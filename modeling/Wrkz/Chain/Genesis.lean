import Wrkz.Chain.Run

/-!
A fresh node. Opening an empty store applies the genesis block, and leaves a
sound state whose chain is that block alone.
-/

set_option autoImplicit false

namespace Wrkz

open Library ChainState

theorem toBytes_of_version1 (cx cx' : Crypto) {b : BlockTemplate}
    (hv : b.majorVersion = blockMajorVersion1) : b.toBytes cx = b.toBytes cx' := by
  have hlt : ¬ blockMajorVersion2 ≤ b.majorVersion := by rw [hv]; decide
  simp [BlockTemplate.toBytes, hlt]

def blankCrypto : Crypto where
  cnFastHash _ := ByteVec.zero 32
  slowHash _ _ := ByteVec.zero 32
  cnUpx _ := ByteVec.zero 32
  checkKey _ := true
  keyImageInDomain _ := true
  checkRingSignature _ _ _ _ := true

/-- The genesis block is a version 1 block at height 0 without transactions, and
its bytes read back. -/
def genesisWellFormed : Bool :=
  match genesisBlock with
  | .ok g =>
    g.majorVersion = blockMajorVersion1 && g.coinbaseHeight = some 0 && g.transactionHashes = [] &&
      match g.toBytes blankCrypto with
      | .ok blob =>
        (match BlockTemplate.fromBytes blob with
        | .ok g' => g' = g
        | .error _ => false)
      | .error _ => false
  | .error _ => false

theorem genesisWellFormed_eq : genesisWellFormed = true := by decide +kernel

theorem genesis_facts {g : BlockTemplate} (hg : genesisBlock = .ok g) :
    g.majorVersion = blockMajorVersion1 ∧ g.coinbaseHeight = some 0 ∧ g.transactionHashes = [] ∧
      ∀ (cx : Crypto) (blob : Bytes), g.toBytes cx = .ok blob →
        BlockTemplate.fromBytes blob = .ok g := by
  have h := genesisWellFormed_eq
  unfold genesisWellFormed at h
  rw [hg] at h
  simp only [Bool.and_eq_true, decide_eq_true_eq] at h
  obtain ⟨⟨⟨hv,hh⟩,hn⟩,hround⟩ := h
  refine ⟨hv,hh,hn,?_⟩
  intro cx blob hblob
  rw [toBytes_of_version1 cx blankCrypto hv] at hblob
  rw [hblob] at hround
  simp only at hround
  cases hparse : BlockTemplate.fromBytes blob with
  | error e => rw [hparse] at hround; cases hround
  | ok g' =>
    rw [hparse] at hround
    simp only [decide_eq_true_eq] at hround
    rw [hround]

theorem openEmpty_store (cfg : Config) (checkpoints : Checkpoints) (clock : Nat) {k : Key}
    (hlite : k ≠ .metaLiteHeight) (hnetwork : k ≠ .metaNetwork) (hprune : k ≠ .metaPruneDepth) :
    (openEmpty cfg checkpoints clock).store k = none := by
  refine (KeyValue.writeBatch_of_untouched ?_).trans rfl
  intro op hop
  simp only [openOps, List.mem_append] at hop
  rcases hop with (hop | hop) | hop
  · split at hop
    · simp at hop
    · rw [List.mem_singleton.1 hop]
      exact hlite.symm
  · split at hop
    · rw [List.mem_singleton.1 hop]
      exact hnetwork.symm
    · simp at hop
  · split at hop
    · rw [List.mem_singleton.1 hop]
      exact hprune.symm
    · simp at hop

theorem openEmpty_holds (cx : Crypto) (cfg : Config) (checkpoints : Checkpoints) (clock : Nat) :
    HoldsChain (openEmpty cfg checkpoints clock) ([] : MainChain cx) := by
  have hread : ∀ k : Key, k ≠ .metaLiteHeight → k ≠ .metaNetwork → k ≠ .metaPruneDepth →
      (openEmpty cfg checkpoints clock).store k = none :=
    fun _ => openEmpty_store cfg checkpoints clock

  refine ⟨⟨rfl,hread _ (by simp) (by simp) (by simp),?_,?_,?_,?_,⟨?_,?_⟩,⟨?_,?_⟩,?_,?_,?_,?_,?_⟩,rfl⟩
  · intro i; exact hread _ (by simp) (by simp) (by simp)
  · intro h i; simp [hread (.hashToIndex h) (by simp) (by simp) (by simp)]
  · intro i; exact hread _ (by simp) (by simp) (by simp)
  · intro i; exact hread _ (by simp) (by simp) (by simp)
  · intro a n; exact hread _ (by simp) (by simp) (by simp)
  · intro a; exact hread _ (by simp) (by simp) (by simp)
  · intro a n; exact hread _ (by simp) (by simp) (by simp)
  · intro a; exact hread _ (by simp) (by simp) (by simp)
  · intro id; exact hread _ (by simp) (by simp) (by simp)
  · intro i; exact hread _ (by simp) (by simp) (by simp)
  · intro i refs hrefs
    rw [hread _ (by simp) (by simp) (by simp)] at hrefs
    cases hrefs
  · intro i raw hraw
    rw [hread _ (by simp) (by simp) (by simp)] at hraw
    cases hraw
  · simp [openEmpty, MainChain.infos]

def blocksOf (cx : Crypto) (raws : List RawBlock) : Set RawBlock :=
  { raw | raw ∈ raws ∨ ∃ g, genesisBlock = .ok g ∧ g.toBytes cx = .ok raw.block ∧
    raw.transactions = [] }

structure IsGenesis {cx : Crypto} (g : MainBlock cx) : Prop where
  template : genesisBlock = .ok g.block
  blob : g.block.toBytes cx = .ok g.raw.block
  transactions : g.transactions = []
  images : g.images = []
  total : g.block.coinbaseOutputTotal = some g.info.alreadyGeneratedCoins
  rawTransactions : g.raw.transactions = []

section

variable {cx : Crypto} {cfg : Config} {checkpoints : Checkpoints} {clock : Nat} {s : ChainState}

theorem openOrGenesis_of_accepted (cfg : Config) (checkpoints : Checkpoints) (clock : Nat)
    {r : BlockTemplate × RawBlock × Accepted} (hacc : genesisAccepted cx = .ok r) :
    ∃ g : MainBlock cx, IsGenesis g ∧ openOrGenesis cx cfg checkpoints clock =
      .ok ⟨⟩ ((openEmpty cfg checkpoints clock).afterPush [] g) := by
  unfold openOrGenesis applyGenesis
  obtain ⟨block,raw,a⟩ := r
  rw [hacc, run_bind_of_ok (liftExcept_ok (block,raw,a) _)]
  unfold genesisAccepted at hacc
  simp only [bind_ok_iff, mapError_ok_iff, orRefuse_ok_iff, pure_ok_iff, Prod.mk.injEq] at hacc
  obtain ⟨g,hg,blob,hblob,hash,hhash,coinbase,hcoinbase,total,htotal,rfl,rfl,rfl⟩ := hacc
  obtain ⟨_,_,hnone,hround⟩ := genesis_facts hg
  let b : MainBlock cx := {
    block := g
    raw := ⟨blob,[]⟩
    transactions := []
    coinbaseHash := cx.cnFastHash coinbase
    info := ⟨hash,g.timestamp,coinbase.length,1,total,1⟩
    images := []
    parsed := hround cx blob hblob
    transactionsParsed := by
      simp [parseTransactions, hnone, refuseIf, bind, Except.bind, parseTransactionBlobs]
    hashed := hhash
    coinbaseHashed := by
      simp [Transaction.hash, hcoinbase, bind, Except.bind, pure, Except.pure] }
  have hpush := (openEmpty_holds cx cfg checkpoints clock).pushBlock_eq (b := b) (by simp) 1
  exact ⟨b,⟨hg,hblob,rfl,rfl,htotal,rfl⟩,hpush⟩

theorem openOrGenesis_eq (h : openOrGenesis cx cfg checkpoints clock = .ok ⟨⟩ s) :
    ∃ g : MainBlock cx, IsGenesis g ∧
      s = (openEmpty cfg checkpoints clock).afterPush [] g := by
  cases hacc : genesisAccepted cx with
  | error e =>
    unfold openOrGenesis applyGenesis at h
    rw [hacc, run_bind_of_error (liftExcept_error e _)] at h
    cases h
  | ok r =>
    obtain ⟨g,hg,hrun⟩ := openOrGenesis_of_accepted cfg checkpoints clock hacc
    cases hrun.symm.trans h
    exact ⟨g,hg,rfl⟩

theorem IsGenesis.mem_blocksOf {g : MainBlock cx} (hg : IsGenesis g) (raws : List RawBlock) :
    g.raw ∈ blocksOf cx raws :=
  .inr ⟨g.block,hg.template,hg.blob,hg.rawTransactions⟩

theorem genesis_sound {U : Set RawBlock} {g : MainBlock cx} (hg : IsGenesis g) (hU : g.raw ∈ U)
    (hs : s = (openEmpty cfg checkpoints clock).afterPush [] g) : Sound U s [g] := by
  have hpush := (openEmpty_holds cx cfg checkpoints clock).push (b := g) (by simp)
  subst hs
  have hempty : Linked U ([] : MainChain cx) := ⟨by simp,by simp,by simp⟩
  refine ⟨hpush,by simp,?_,?_⟩
  · exact hempty.concat hU (genesis_facts hg.template).2.1 (by simp)
  · intro x alt hx
    simp [afterPush, openEmpty] at hx

theorem openEmpty_configured (cfg : Config) (checkpoints : Checkpoints) (clock : Nat)
    (chain : MainChain cx) (g : MainBlock cx) :
    Configured cfg checkpoints ((openEmpty cfg checkpoints clock).afterPush chain g) :=
  ⟨rfl,rfl,rfl,rfl⟩

/-- After any run of `add_block` the state holds a main chain, under the rules the
node was opened with. -/
theorem runBlocks_sound (hopen : openOrGenesis cx cfg checkpoints clock = .ok ⟨⟩ s)
    {raws : List RawBlock} (hU : UniqueIds cx (blocksOf cx raws)) {offers : List (Nat × RawBlock)}
    (hoffers : ∀ offer ∈ offers, offer.2 ∈ raws) :
    ∃ chain, Kept (blocksOf cx raws) (fun s (_ : MainChain cx) => Configured cfg checkpoints s)
      (runBlocks cx offers s) chain := by
  obtain ⟨g,hg,hs⟩ := openOrGenesis_eq hopen
  have hsound := genesis_sound hg (hg.mem_blocksOf raws) hs
  subst hs
  exact runBlocks_kept hU (stable_configured cfg checkpoints)
    (fun _ h => { h with })
    (fun offer ho => .inl (hoffers offer ho))
    ⟨hsound,openEmpty_configured cfg checkpoints clock [] g⟩

theorem rewindable_configured {U : Set RawBlock} (cfg : Config) (checkpoints : Checkpoints) :
    Rewindable U (fun s (_ : MainChain cx) => Configured cfg checkpoints s) :=
  fun _ _ h hoff => h.sameEnv hoff.env

theorem runCalls_sound (hopen : openOrGenesis cx cfg checkpoints clock = .ok ⟨⟩ s)
    {calls : List Call} (hU : UniqueIds cx (blocksOf cx (calls.filterMap Call.raw?))) :
    ∃ chain, Kept (blocksOf cx (calls.filterMap Call.raw?))
      (fun s (_ : MainChain cx) => Configured cfg checkpoints s) (runCalls cx calls s) chain := by
  obtain ⟨g,hg,hs⟩ := openOrGenesis_eq hopen
  have hsound := genesis_sound hg (hg.mem_blocksOf (calls.filterMap Call.raw?)) hs
  subst hs
  exact runCalls_kept hU (stable_configured cfg checkpoints)
    (rewindable_configured cfg checkpoints) (fun _ h => { h with })
    (fun call hcall raw hraw => .inl (List.mem_filterMap.2 ⟨call,hcall,hraw⟩))
    ⟨hsound,openEmpty_configured cfg checkpoints clock [] g⟩

end

end Wrkz
