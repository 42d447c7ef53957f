import Wrkz.Chain.Crash
import Wrkz.Chain.Grove

/-!
What a state answers about its main chain: the output pairs of a block, also after
their record has been dropped, and the transactions of a payment id. Both are functions
of the main chain alone, whatever switches and rewinds led to it.
-/

set_option autoImplicit false

namespace Wrkz

open Library

variable {cx : Crypto} {U : Set RawBlock} {s t : ChainState} {chain p q : MainChain cx}
  {cfg : Config} {checkpoints : Checkpoints}

/-- The rules of the node and the bodies it holds. -/
structure Embodied (cfg : Config) (checkpoints : Checkpoints) (s : ChainState)
    (chain : MainChain cx) : Prop where
  configured : Configured cfg checkpoints s
  bodies : HoldsBodies s chain

theorem stable_embodied (hprune : cfg.pruneDepth = none) :
    Stable U (fun s (chain : MainChain cx) => Embodied cfg checkpoints s chain) where
  push _ h _ _ _ _ := by
    obtain ⟨hconf,hbodies⟩ := h
    exact ⟨{ hconf with },
      hbodies.push (by rw [hconf.cfg]; exact hprune)⟩
  takeOff _ _ h hoff := ⟨h.configured.sameEnv hoff.env,h.bodies.takeOff hoff.toTakenOff⟩
  branches _ _ h := by
    obtain ⟨hconf,hbodies⟩ := h
    exact ⟨{ hconf with },hbodies⟩

theorem runBlocks_embodied {clock : Nat} {s₀ : ChainState} {offers : List (Nat × RawBlock)}
    (hprune : cfg.pruneDepth = none)
    (hopen : ChainState.openOrGenesis cx cfg checkpoints clock = .ok ⟨⟩ s₀)
    (hU : UniqueIds cx (blocksOf cx (offers.map Prod.snd))) :
    ∃ chain, Kept (blocksOf cx (offers.map Prod.snd))
      (fun s (chain : MainChain cx) => Embodied cfg checkpoints s chain)
      (runBlocks cx offers s₀) chain := by
  obtain ⟨g,hg,hs⟩ := openOrGenesis_eq hopen
  have hsound := genesis_sound hg (hg.mem_blocksOf (offers.map Prod.snd)) hs
  subst hs
  have hgenesis : Embodied cfg checkpoints
      ((ChainState.openEmpty cfg checkpoints clock).afterPush [] g) [g] :=
    have hrec := genesis_recorded hg cfg checkpoints clock hprune
    ⟨hrec.configured,hrec.bodies⟩
  refine runBlocks_kept hU (stable_embodied hprune) ?_
    (fun offer ho => .inl (List.mem_map.2 ⟨offer,ho,rfl⟩)) ⟨hsound,hgenesis⟩
  intro s chain now h
  obtain ⟨hconf,hbodies⟩ := h
  exact ⟨{ hconf with },hbodies⟩

theorem HoldsTables.mem_pushOps_blockOutputs (h : HoldsTables s p) (b : MainBlock cx) (d : Nat) :
    (⟨.blockOutputs p.length, some (p.refsOn b)⟩ : WriteOp) ∈
      s.pushOps p.length b.block b.raw b.coinbaseHash (b.accepted d) := by
  have hrefs : (number s.outputCountForAmount
      (blockOutputList p.length b.block b.coinbaseHash b.transactions)).map Prod.fst =
      p.refsOn b := by
    rw [h.outputCountForAmount_eq]
    rfl
  rw [← hrefs]
  exact ChainState.mem_of_pushes .blockOutputs

/-- On a node that keeps every body, with any `unwind_history`, the pairs of every block
of the main chain are those recorded for it when it was pushed on top of the blocks below
it, whether the record is still there or not. -/
theorem blockOutputRefs_recovered {clock : Nat} {s₀ : ChainState}
    {offers : List (Nat × RawBlock)} (hkeeps : cfg.KeepsBodies)
    (hopen : ChainState.openOrGenesis cx cfg checkpoints clock = .ok ⟨⟩ s₀)
    (hU : UniqueIds cx (blocksOf cx (offers.map Prod.snd))) :
    ∃ chain : MainChain cx, HoldsChain (runBlocks cx offers s₀) chain ∧
      ∀ i b, chain[i]? = some b → ∃ refs,
        (∀ (u : ChainState) (d : Nat), HoldsTables u (chain.take i) →
          (⟨.blockOutputs i, some refs⟩ : WriteOp) ∈
            u.pushOps i b.block b.raw b.coinbaseHash (b.accepted d)) ∧
        (runBlocks cx offers s₀).blockOutputRefs cx i = .ok (some refs) := by
  obtain ⟨chain,hkept⟩ := runBlocks_embodied hkeeps.pruneDepth hopen hU
  refine ⟨chain,hkept.sound.holds,fun i b hb => ⟨MainChain.refsOn (chain.take i) b,?_,?_⟩⟩
  · intro u d hu
    have hmem := hu.mem_pushOps_blockOutputs b d
    rwa [List.length_take_of_le (List.getElem?_eq_some_iff.1 hb).1.le] at hmem
  · have hlt := (List.getElem?_eq_some_iff.1 hb).1
    have hsplit : chain.take i ++ b :: chain.drop (i+1) = chain := by
      rw [← (List.getElem?_eq_some_iff.1 hb).2, ← List.drop_eq_getElem_cons hlt,
        List.take_append_drop]
    have hlen : (chain.take i).length = i := List.length_take_of_le hlt.le
    have hkeep : (runBlocks cx offers s₀).cfg.keepsBody i i = true := by
      rw [hkept.inv.configured.cfg]
      simp [Config.keepsBody, hkeeps.storeRawBlocks, hkeeps.liteStartHeight, hkeeps.pruneDepth]
    have hbody : (runBlocks cx offers s₀).store (.rawBlock i) = some b.raw := by
      rw [hkept.inv.bodies i, if_pos hkeep, hb, Option.map_some]
    have htables : HoldsTables (runBlocks cx offers s₀)
        (chain.take i ++ b :: chain.drop (i+1)) := by
      rw [hsplit]
      exact hkept.sound.holds.toHoldsTables
    have hread := htables.blockOutputRefs_of_knowsRefs (.inr (by rw [hlen, hbody]; rfl))
    rwa [hlen] at hread

/-- The smallest window of pair records, on a main chain and the heavier branch that
replaced it. -/
theorem blockOutputRefs_recovered_sample :
    ∃ chain : MainChain sampleCrypto,
      HoldsChain (runBlocks sampleCrypto (sampleMain ++ sampleHeavyBranch)
        (sampleNode { unwindHistory := minPruneDepth } .none 1000)) chain ∧
      ∀ i b, chain[i]? = some b → ∃ refs,
        (runBlocks sampleCrypto (sampleMain ++ sampleHeavyBranch)
          (sampleNode { unwindHistory := minPruneDepth } .none 1000)).blockOutputRefs
            sampleCrypto i = .ok (some refs) := by
  obtain ⟨chain,hchain,hrefs⟩ := blockOutputRefs_recovered ⟨rfl,rfl,rfl⟩
    (sampleNode_open { unwindHistory := minPruneDepth } .none 1000)
    (by decide +kernel : UniqueIds sampleCrypto
      (blocksOf sampleCrypto ((sampleMain ++ sampleHeavyBranch).map Prod.snd)))
  exact ⟨chain,hchain,fun i b hb => (hrefs i b hb).imp fun _ h => h.2⟩

namespace ChainState

/-- The numbered entries of a payment id, each of which must be there. -/
def paymentIdEntries (s : ChainState) (id : Hash) (count : Nat) :
    List Nat → Except ChainError (List Hash)
  | [] => .ok []
  | n :: rest => do
    let hash ← orRefuse (s.store (.paymentIdEntry id n))
      (ChainError.corrupt s!"payment-id entry {n} of {count} is missing")
    let hashes ← paymentIdEntries s id count rest
    pure (hash :: hashes)

def transactionHashesByPaymentId (s : ChainState) (id : Hash) : Except ChainError (List Hash) := do
  let legacy := s.legacyPaymentIdList id
  let count := s.paymentIdEntryCount id
  let entries ← s.paymentIdEntries id count (List.range count)
  pure (legacy ++ entries)

end ChainState

/-- The hashes a block lists for those of its transactions that carry the payment id. -/
def MainBlock.listedFor (b : MainBlock cx) (id : Hash) : List Hash :=
  (b.transactions.zip b.block.transactionHashes).filterMap fun listed =>
    if (parseExtraWallet listed.1.body.extra).paymentId = some (.long id) then some listed.2
    else none

theorem MainBlock.recordsOf_paymentRefs (b : MainBlock cx) (id : Hash) :
    recordsOf id b.paymentRefs = b.listedFor id := by
  unfold recordsOf MainBlock.paymentRefs Wrkz.paymentRefs MainBlock.listedFor
  rw [List.filterMap_filterMap]
  congr 1
  funext listed
  obtain ⟨tx,hash⟩ := listed
  dsimp only
  cases (parseExtraWallet tx.body.extra).paymentId with
  | none => simp
  | some payment =>
    cases payment with
    | long id' => by_cases h : id' = id <;> simp [h]
    | encryptedShort id' => simp

theorem MainChain.paymentLog_eq (chain : MainChain cx) (id : Hash) :
    chain.paymentLog id = chain.flatMap fun b => b.listedFor id := by
  unfold MainChain.paymentLog MainChain.payments
  induction chain with
  | nil => rfl
  | cons b rest ih => rw [List.flatMap_cons, List.flatMap_cons, recordsOf_append, ih,
      b.recordsOf_paymentRefs]

namespace HoldsTables

theorem paymentIdEntries_eq (h : HoldsTables s chain) (id : Hash) (count : Nat) :
    ∀ start n, start + n ≤ (chain.paymentLog id).length →
      s.paymentIdEntries id count (List.range' start n) =
        .ok (((chain.paymentLog id).drop start).take n) := by
  intro start n
  induction n generalizing start with
  | zero => simp [ChainState.paymentIdEntries]
  | succ n ih =>
    intro hle
    have hlt : start < (chain.paymentLog id).length := by omega
    have hentry : s.store (.paymentIdEntry id start) = some ((chain.paymentLog id).get ⟨start,hlt⟩) := by
      rw [h.payments.entry_eq id start, List.getElem?_eq_getElem hlt]
      rfl
    rw [List.range'_succ, ChainState.paymentIdEntries, hentry, ih (start+1) (by omega),
      List.drop_eq_getElem_cons hlt]
    rfl

theorem transactionHashesByPaymentId_eq (h : HoldsTables s chain) (id : Hash) :
    s.transactionHashesByPaymentId id = .ok (chain.paymentLog id) := by
  have hentries := h.paymentIdEntries_eq id (chain.paymentLog id).length 0
    (chain.paymentLog id).length (by omega)
  unfold ChainState.transactionHashesByPaymentId ChainState.legacyPaymentIdList
  rw [← List.range_eq_range'] at hentries
  simp only [h.legacy, h.paymentIdEntryCount_eq, hentries]
  simp [bind, Except.bind, pure, Except.pure]

end HoldsTables

/-- After every run of `add_block` and `rewind_to` a payment id gives the hashes that the
main chain lists for the transactions carrying it, in chain order and as often. -/
theorem paymentIds_exact {clock : Nat} {s₀ : ChainState} {calls : List Call}
    (hopen : ChainState.openOrGenesis cx cfg checkpoints clock = .ok ⟨⟩ s₀)
    (hU : UniqueIds cx (blocksOf cx (calls.filterMap Call.raw?))) :
    ∃ chain : MainChain cx, HoldsChain (runCalls cx calls s₀) chain ∧
      ∀ id, (runCalls cx calls s₀).transactionHashesByPaymentId id =
        .ok (chain.flatMap fun b => b.listedFor id) := by
  obtain ⟨chain,hkept⟩ := runCalls_sound hopen hU
  refine ⟨chain,hkept.sound.holds,fun id => ?_⟩
  rw [hkept.sound.holds.toHoldsTables.transactionHashesByPaymentId_eq, chain.paymentLog_eq]

/-- With a payment id in the nonce field of the extra. -/
def samplePayment (image : Hash) : Transaction :=
  let tx := sampleSpend 10000 0 100 image
  { tx with body := { tx.body with extra := [2,33,0] ++ (mixHash [7]).bytes } }

/-- Two payments with one id, of which the second is taken off again. -/
def samplePayments : List Call :=
  (sampleOffers 1000 (sampleChain [(60,[samplePayment (mixHash [3])],100),
    (120,[samplePayment (mixHash [4])],100)])).map (fun offer => .addBlock offer.1 offer.2) ++
    [.rewindTo 1000 1]

theorem paymentIds_exact_sample :
    let s := runCalls sampleCrypto samplePayments (sampleNode {} sampleZone 1000)
    s.transactionHashesByPaymentId (mixHash [7]) =
        .ok [sampleTxId (samplePayment (mixHash [3]))] ∧
      ∃ chain : MainChain sampleCrypto, HoldsChain s chain ∧
        ∀ id, s.transactionHashesByPaymentId id = .ok (chain.flatMap fun b => b.listedFor id) :=
  ⟨by decide +kernel,paymentIds_exact (sampleNode_open {} sampleZone 1000) (by decide +kernel)⟩

end Wrkz
