import Wrkz.Chain.Finality
import Wrkz.Chain.Inverse
import Wrkz.Chain.Representation
import Wrkz.Library.Along
import Wrkz.Primitives.WellFormed

/-!
How long an output stays locked. A transaction's lock is read twice, when its
block is checked and when a ring refers to its output, and each reading decides
by itself whether the field is a height or a time. Where the two agree, an output
is not referred to before the minimum lock is over.
-/

set_option autoImplicit false

namespace Wrkz

open Library

def CheckedOn {cx : Crypto} (cfg : Config) (checkpoints : Checkpoints) (p : MainChain cx)
    (b : MainBlock cx) : Prop :=
  p ≠ [] → ∃ s d, HoldsChain s p ∧ Configured cfg checkpoints s ∧
    s.checkMain cx b.block b.raw.transactions b.info.blockHash (p.length-1) = .ok (b.accepted d)

/-- A node under the given rules whose blocks were all checked where they stand. -/
structure Vouched {cx : Crypto} (cfg : Config) (checkpoints : Checkpoints) (s : ChainState)
    (chain : MainChain cx) : Prop where
  configured : Configured cfg checkpoints s
  checked : Along (CheckedOn cfg checkpoints) chain

section

variable {cx : Crypto} {U : Set RawBlock} {cfg : Config} {checkpoints : Checkpoints}
  {s : ChainState} {chain : MainChain cx} {clock : Nat}

theorem stable_vouched (cfg : Config) (checkpoints : Checkpoints) :
    Stable U (fun s (chain : MainChain cx) => Vouched cfg checkpoints s chain) where
  push {s chain b d prev} hsound h hprev hknown hcheck hfresh := by
    refine ⟨(stable_configured cfg checkpoints).push hsound h.configured hprev hknown hcheck hfresh,
      along_concat.2 ⟨h.checked,fun _ => ⟨s,d,hsound.holds,h.configured,?_⟩⟩⟩
    rw [← hprev, Nat.add_sub_cancel]
    exact hcheck
  takeOff _ _ h hoff := ⟨h.configured.sameEnv hoff.env,h.checked.of_append⟩
  branches alts unwound h :=
    ⟨{ h.configured with },h.checked⟩

theorem runBlocks_vouched (hopen : ChainState.openOrGenesis cx cfg checkpoints clock = .ok ⟨⟩ s)
    {raws : List RawBlock} (hU : UniqueIds cx (blocksOf cx raws)) {offers : List (Nat × RawBlock)}
    (hoffers : ∀ offer ∈ offers, offer.2 ∈ raws) :
    ∃ chain : MainChain cx, Kept (blocksOf cx raws) (Vouched cfg checkpoints)
      (runBlocks cx offers s) chain := by
  obtain ⟨g,hg,hs⟩ := openOrGenesis_eq hopen
  have hsound := genesis_sound hg (hg.mem_blocksOf raws) hs
  subst hs
  refine runBlocks_kept hU (stable_vouched cfg checkpoints)
    (fun _ h => ⟨{ h.configured with },h.checked⟩)
    (fun offer ho => .inl (hoffers offer ho))
    ⟨hsound,openEmpty_configured cfg checkpoints clock [] g,?_⟩
  have hfirst : Along (CheckedOn cfg checkpoints) ([] ++ [g]) :=
    along_concat.2 ⟨along_nil,fun hne => absurd rfl hne⟩
  exact hfirst

end

/-- The two readings of the lock `unlockTime` ask the same wait of a block's
outputs. -/
def LockReadAlike (unlockTime timestamp : Nat) : Prop :=
  (unlockTime = cryptonoteMaxBlockNumber → timestamp + 900 ≤ cryptonoteMaxBlockNumber) ∧
    (unlockTime = 2^64 - 1 → timestamp + 900 < 2^64)

instance (unlockTime timestamp : Nat) : Decidable (LockReadAlike unlockTime timestamp) :=
  inferInstanceAs (Decidable (_ ∧ _))

/-- A lock that passed in block `a` and is over for block `b` has been waited for. -/
def Waited (a timestamp b parentTimestamp : Nat) : Prop :=
  a + 14 ≤ b ∨ timestamp + 900 ≤ parentTimestamp + 60

instance (a timestamp b parentTimestamp : Nat) : Decidable (Waited a timestamp b parentTimestamp) :=
  inferInstanceAs (Decidable (_ ∨ _))

section

variable {u a b timestamp : Nat}

/-- From the height where locks are asked for, a lock in seconds is compared with
the tip's timestamp. -/
theorem isSpendTimeUnlocked_iff {chain : ChainAccess} (hb : unlockTimeHeight + 1 < b) :
    isSpendTimeUnlocked chain u (b-1) = true ↔
      if u < cryptonoteMaxBlockNumber then u ≤ b else u ≤ chain.topBlockTimestamp + 60 := by
  have hlate : transactionInputBlocktimeValidationHeight ≤ b - 1 := by
    simp only [unlockTimeHeight, transactionInputBlocktimeValidationHeight] at hb ⊢
    omega
  have hone : b - 1 + cryptonoteLockedTxAllowedDeltaBlocks = b := by
    simp only [cryptonoteLockedTxAllowedDeltaBlocks]
    omega
  unfold isSpendTimeUnlocked
  rw [if_pos hlate, hone]
  split
  · exact decide_eq_true_iff
  · exact decide_eq_true_iff

theorem lock_waited {chain : ChainAccess} (hu : u < 2^64) (ha : unlockTimeHeight + 1 < a)
    (hb : unlockTimeHeight + 1 < b) (hread : LockReadAlike u timestamp)
    (hmin : minimumUnlockTime u (a-1) timestamp ≤ u)
    (hunlocked : isSpendTimeUnlocked chain u (b-1) = true) :
    Waited a timestamp b chain.topBlockTimestamp := by
  rw [isSpendTimeUnlocked_iff hb] at hunlocked
  obtain ⟨hmax,hlast⟩ := hread
  unfold minimumUnlockTime minimumUnlockTimeBlocks difficultyTarget saturate64 at hmin
  unfold Waited
  rcases Nat.lt_trichotomy u cryptonoteMaxBlockNumber with hlt | heq | hgt
  · rw [if_pos hlt] at hunlocked
    rw [if_neg (by omega)] at hmin
    exact .inl (by omega)
  · have htime := hmax heq
    rw [if_neg (by omega)] at hunlocked
    exact .inr (by omega)
  · rw [if_neg (by omega)] at hunlocked
    rw [if_pos hgt] at hmin
    exact .inr (by omega)

/-- The two readings ask the same wait exactly of the locks above: of another one
that passed, some block refers to the output too early. -/
theorem lockReadAlike_iff (hu : u < 2^64) (ha : unlockTimeHeight + 1 < a)
    (hmin : minimumUnlockTime u (a-1) timestamp ≤ u) :
    LockReadAlike u timestamp ↔ ∀ (chain : ChainAccess) (b : Nat), a < b →
      isSpendTimeUnlocked chain u (b-1) = true → Waited a timestamp b chain.topBlockTimestamp := by
  constructor
  · intro hread chain b hab hunlocked
    exact lock_waited hu ha (by omega) hread hmin hunlocked
  · intro hall
    -- the block after `a`, on a tip whose timestamp is just enough for a lock in seconds
    have hnext : cryptonoteMaxBlockNumber ≤ u → timestamp + 900 ≤ u := by
      intro htime
      have hmany : 60 ≤ cryptonoteMaxBlockNumber := by decide
      let chain : ChainAccess := ⟨fun _ _ => false,fun _ _ => none,u-60,0⟩
      have hunlocked : isSpendTimeUnlocked chain u (a+1-1) = true := by
        rw [isSpendTimeUnlocked_iff (by omega), if_neg (by omega)]
        change u ≤ u - 60 + 60
        omega
      have hwaited := hall chain (a+1) (by omega) hunlocked
      unfold Waited at hwaited
      change a + 14 ≤ a + 1 ∨ timestamp + 900 ≤ u - 60 + 60 at hwaited
      omega
    have hmax : cryptonoteMaxBlockNumber ≤ 2^64 - 1 := by decide
    constructor
    · intro heq
      have := hnext (by omega)
      omega
    · intro heq
      have := hnext (by omega)
      omega

end

section

variable {cx : Crypto} {tx : Transaction} {chain : ChainAccess} {ctx : TxContext}

theorem gatherMembers_unlocked {amount : Nat} {idxs : List Nat} {ring : List Hash}
    (h : gatherMembers chain ctx amount idxs = .ok ring) :
    ∀ g ∈ idxs, ∃ record, chain.keyOutput amount g = some record ∧
      isSpendTimeUnlocked chain record.unlockTime ctx.blockHeight = true := by
  induction idxs generalizing ring with
  | nil => simp
  | cons first idxs ih =>
    simp only [gatherMembers, List.map_cons, unlockedMembers, bind_ok_iff, orRefuse_ok_iff,
      refuseIf_ok_iff, pure_ok_iff] at h
    obtain ⟨record,hrecord,_,hunlocked,rest,hrest,_⟩ := h
    intro g hg
    cases hg with
    | head => exact ⟨record,hrecord,by simpa using hunlocked⟩
    | tail _ hg => exact ih hrest g hg

theorem TxPassed.members (h : TxPassed cx chain ctx tx)
    (hzone : ctx.checkpoints.isInCheckpointZone (ctx.blockHeight+1) = false) {amount : Nat}
    {offsets : List Nat} {image : Hash} (hinput : Input.key amount offsets image ∈ tx.body.inputs) :
    ∃ absolute, relativeOffsetsToAbsolute offsets = some absolute ∧
      ∀ g ∈ absolute, ∃ record, chain.keyOutput amount g = some record ∧
        isSpendTimeUnlocked chain record.unlockTime ctx.blockHeight = true := by
  obtain ⟨i,hi⟩ := List.getElem?_of_mem hinput
  obtain ⟨_,_,_,hring,_⟩ := h.rings hzone i _ hi
  obtain ⟨_,absolute,habsolute,ring,hmembers,_⟩ := gatherRing_ok_iff.1 hring
  exact ⟨absolute,habsolute,gatherMembers_unlocked hmembers⟩

end

section

variable {cx : Crypto} {s : ChainState} {b : MainBlock cx} {prev d : Nat}

section

variable (h : s.checkMain cx b.block b.raw.transactions b.info.blockHash prev = .ok (b.accepted d))
include h

theorem checkMain_unlockTime :
    ∀ tx ∈ b.transactions, validateUnlockTime tx prev b.block.timestamp = .ok ⟨⟩ := by
  intro tx htx
  exact ((checkMain_transactions h).1.passed tx htx).unlockTime

theorem checkMain_timestamp : b.info.timestamp = b.block.timestamp := by
  obtain ⟨_,head,parent,reward,_,_,_,hinfo⟩ := checkMain_transactions h
  rw [(nextInfo_ok_iff.1 hinfo).2]

end

theorem parseTransactionBlobs_wellFormed {blobs : List Bytes} {txs : List Transaction}
    (h : parseTransactionBlobs blobs = .ok txs) : ∀ tx ∈ txs, tx.body.WellFormed := by
  induction blobs generalizing txs with
  | nil =>
    cases h
    simp
  | cons blob blobs ih =>
    simp only [parseTransactionBlobs, bind_ok_iff, mapError_ok_iff, pure_ok_iff] at h
    obtain ⟨tx,htx,rest,hrest,rfl⟩ := h
    intro tx' htx'
    cases htx' with
    | head => exact Transaction.fromBytes_wellFormed htx
    | tail _ htx' => exact ih hrest tx' htx'

theorem MainBlock.transactions_wellFormed (b : MainBlock cx) :
    ∀ tx ∈ b.transactions, tx.body.WellFormed :=
  parseTransactionBlobs_wellFormed (parseTransactions_ok b.transactionsParsed).2

end

/-- The output is one of a transaction of the block other than the coinbase. -/
def MainBlock.Created {cx : Crypto} (a : MainBlock cx) (index : Nat) (tx : Transaction)
    (record : OutputRecord) : Prop :=
  ∃ txHash amount, (tx,txHash) ∈ a.transactions.zip a.block.transactionHashes ∧
    (amount,record) ∈ txOutputs index tx txHash

/-- Both readings of every lock of a block's transactions ask the same wait. -/
def RawBlock.LocksReadAlike (raw : RawBlock) : Prop :=
  ∀ block ∈ (BlockTemplate.fromBytes raw.block).toOption,
    ∀ txs ∈ (parseTransactions block raw.transactions).toOption,
      ∀ tx ∈ txs, LockReadAlike tx.body.unlockTime block.timestamp

instance (raw : RawBlock) : Decidable raw.LocksReadAlike :=
  inferInstanceAs (Decidable (∀ block ∈ (BlockTemplate.fromBytes raw.block).toOption,
    ∀ txs ∈ (parseTransactions block raw.transactions).toOption,
      ∀ tx ∈ txs, LockReadAlike tx.body.unlockTime block.timestamp))

theorem MainBlock.lockReadAlike {cx : Crypto} {b : MainBlock cx} (h : b.raw.LocksReadAlike)
    {tx : Transaction} (htx : tx ∈ b.transactions) :
    LockReadAlike tx.body.unlockTime b.block.timestamp :=
  h b.block (by rw [b.parsed]; rfl) b.transactions (by rw [b.transactionsParsed]; rfl) tx htx

/-- Above the checkpoint zone and from the height where locks are asked for, every
ring member of a block is an output of the chain, and if a transaction of block `A`
created it then its lock was waited for: 14 blocks from `A`, or 14 minutes from its
timestamp. -/
def MainChain.LocksWaited {cx : Crypto} (checkpoints : Checkpoints) (chain : MainChain cx) : Prop :=
  ∀ b B P, chain[b]? = some B → chain[b-1]? = some P → unlockTimeHeight + 1 < b →
    checkpoints.isInCheckpointZone b = false →
    ∀ tx ∈ B.transactions, ∀ amount offsets image,
      Input.key amount offsets image ∈ tx.body.inputs →
      ∃ absolute, relativeOffsetsToAbsolute offsets = some absolute ∧ ∀ g ∈ absolute,
        ∃ record, (chain.outputLog amount)[g]? = some record ∧
          ∀ a A creator, chain[a]? = some A → unlockTimeHeight + 1 < a →
            A.Created a creator record →
            a + 14 ≤ b ∨ A.block.timestamp + 900 ≤ P.block.timestamp + 60

section

variable {cx : Crypto} {U : Set RawBlock} {cfg : Config} {checkpoints : Checkpoints}
  {s : ChainState} {chain : MainChain cx} {A B : MainBlock cx} {a b : Nat} {clock : Nat}

theorem Vouched.accepted (h : Vouched cfg checkpoints s chain) (hb : chain[b]? = some B)
    (hpos : 0 < b) : ∃ t d, HoldsChain t (chain.take b) ∧ Configured cfg checkpoints t ∧
      t.checkMain cx B.block B.raw.transactions B.info.blockHash (b-1) = .ok (B.accepted d) := by
  have hlt := (List.getElem?_eq_some_iff.1 hb).1
  have hlen : (chain.take b).length = b := by
    rw [List.length_take]
    omega
  have hchecked := h.checked.getElem? hb
  unfold CheckedOn at hchecked
  rw [hlen] at hchecked
  exact hchecked (List.ne_nil_of_length_pos (by omega))

variable {record : OutputRecord} {P : MainBlock cx} {amount g : Nat}

theorem MainChain.outputLog_take (h : (outputLog (chain.take b) amount)[g]? = some record) :
    (outputLog chain amount)[g]? = some record := by
  have hsplit : chain = chain.take b ++ chain.drop b := (List.take_append_drop b chain).symm
  unfold outputLog at h ⊢
  rw [hsplit, outputs_append, recordsOf_append,
    List.getElem?_append_left (List.getElem?_eq_some_iff.1 h).1]
  exact h

theorem HoldsTables.keyOutput_eq_some (h : HoldsTables s chain)
    (hkey : s.access.keyOutput amount g = some record) :
    (chain.outputLog amount)[g]? = some record := by
  simp only [ChainState.access, ChainState.keyOutput] at hkey
  split at hkey
  · rwa [h.outputs.entry_eq amount g] at hkey
  · cases hkey

theorem HoldsTables.topBlockTimestamp_eq (h : HoldsTables s (chain.take b)) (hpos : 0 < b)
    (hlt : b ≤ chain.length) (hP : chain[b-1]? = some P) :
    s.access.topBlockTimestamp = P.info.timestamp := by
  have hlast : (chain.take b).getLast? = some P := by
    rw [List.getLast?_eq_getElem?, List.length_take, Nat.min_eq_left hlt,
      List.getElem?_take_of_lt (by omega), hP]
  simp only [ChainState.access, h.tipInfo_eq, hlast, Option.map_some, Option.getD_some]

theorem Vouched.waited (h : Vouched cfg checkpoints s chain) (hlinked : Linked U chain)
    (hU : ∀ raw ∈ U, raw.LocksReadAlike) {t : ChainState} {tx : Transaction}
    (hA : chain[a]? = some A) (hP : chain[b-1]? = some P) (ha : unlockTimeHeight + 1 < a)
    (hb : unlockTimeHeight + 1 < b) (hlt : b ≤ chain.length) (ht : HoldsChain t (chain.take b))
    (hcreated : A.Created a tx record)
    (hunlocked : isSpendTimeUnlocked t.access record.unlockTime (b-1) = true) :
    Waited a A.block.timestamp b P.block.timestamp := by
  obtain ⟨txHash,amount,hzip,hout⟩ := hcreated
  have htx : tx ∈ A.transactions := (List.of_mem_zip hzip).1
  have hlock : record.unlockTime = tx.body.unlockTime := by
    obtain ⟨⟨o,i⟩,_,hrecord⟩ := List.mem_map.1 hout
    cases hrecord
    rfl
  obtain ⟨_,_,_,_,hchecked⟩ := h.accepted hA (by omega)
  have hmin := refuseIf_ok_iff.1 (checkMain_unlockTime hchecked tx htx)
  obtain ⟨_,_,_,_,hparent⟩ := h.accepted hP (by omega)
  have hknown := hlinked.known A (List.mem_of_getElem? hA)
  have hread := MainBlock.lockReadAlike (hU A.raw hknown) htx
  rw [hlock] at hunlocked
  have hwaited := lock_waited (A.transactions_wellFormed tx htx).unlockTime ha hb hread (by omega)
    hunlocked
  rwa [ht.topBlockTimestamp_eq (by omega) hlt hP, checkMain_timestamp hparent] at hwaited

/-- After every run of `add_block` over blocks whose locks are read alike. -/
theorem locked_outputs_wait
    (hopen : ChainState.openOrGenesis cx cfg checkpoints clock = .ok ⟨⟩ s)
    {raws : List RawBlock} (hU : UniqueIds cx (blocksOf cx raws)) {offers : List (Nat × RawBlock)}
    (hoffers : ∀ offer ∈ offers, offer.2 ∈ raws) (hlocks : ∀ raw ∈ raws, raw.LocksReadAlike) :
    ∃ chain : MainChain cx, Sound (blocksOf cx raws) (runBlocks cx offers s) chain ∧
      chain.LocksWaited checkpoints := by
  obtain ⟨chain,hkept⟩ := runBlocks_vouched hopen hU hoffers
  refine ⟨chain,hkept.sound,?_⟩
  intro b B P hB hP hb hzone tx htx amount offsets image hinput
  have hlt := (List.getElem?_eq_some_iff.1 hB).1
  obtain ⟨t,d,ht,hconf,hcheck⟩ := hkept.inv.accepted hB (by omega)
  have hzone' : t.checkpoints.isInCheckpointZone (b-1+1) = false := by
    rw [hconf.checkpoints, Nat.sub_add_cancel (by omega)]
    exact hzone
  have hpassed := (checkMain_transactions hcheck).1.passed tx htx
  obtain ⟨absolute,habsolute,hmembers⟩ := hpassed.members hzone' hinput
  refine ⟨absolute,habsolute,?_⟩
  intro g hg
  obtain ⟨record,hrecord,hunlocked⟩ := hmembers g hg
  refine ⟨record,MainChain.outputLog_take (ht.keyOutput_eq_some hrecord),?_⟩
  intro a A creator hA ha hcreated
  have hall : ∀ raw ∈ blocksOf cx raws, raw.LocksReadAlike := by
    rintro raw (hraw | ⟨_,_,_,hnone⟩)
    · exact hlocks raw hraw
    · -- the genesis block has no transactions
      intro block _ txs htxs tx' htx'
      rw [hnone] at htxs
      have hlen := (parseTransactions_length (toOption_eq_some_iff.1 htxs)).1
      rw [List.length_eq_zero_iff.1 hlen] at htx'
      cases htx'
  exact hkept.inv.waited hkept.sound.linked hall hA hP ha hb hlt.le ht hcreated hunlocked

end

/-- Locked up to the boundary of the two readings. -/
def sampleLock : Transaction :=
  let tx := sampleSpend 10000 0 100 (mixHash [3])
  { tx with body := { tx.body with unlockTime := cryptonoteMaxBlockNumber } }

def sampleLocked : List (Nat × RawBlock) :=
  sampleOffers 1000 (sampleChain [(60,[sampleLock],100),(120,[],0)])

theorem locked_outputs_wait_sample :
    let raws := sampleLocked.map Prod.snd
    let s := runBlocks sampleCrypto sampleLocked (sampleNode defaultConfig sampleZone 1000)
    s.tip = some 2 ∧ (∃ raw ∈ raws, sampleLock ∈ raw.transactionList ∧ raw.LocksReadAlike) ∧
      ∃ chain : MainChain sampleCrypto, Sound (blocksOf sampleCrypto raws) s chain ∧
        chain.LocksWaited sampleZone :=
  ⟨by decide +kernel,by decide +kernel,
    locked_outputs_wait (sampleNode_open defaultConfig sampleZone 1000) (by decide +kernel)
      (by decide +kernel) (by decide +kernel)⟩

def lateCrypto : Crypto := { sampleCrypto with cnUpx := fun _ => ByteVec.zero 32 }

def lateTip : Nat := unlockTimeHeight + 1

def lateTime (index : Nat) : Nat := 1500000000 + 60*index

def lateInfo (index : Nat) : BlockInfo :=
  ⟨mixHash (littleEndian index 8),lateTime index,1000,1000*index,0,index+1⟩

def lateStore : Store
  | .metaTip => some lateTip
  | .blockInfo i => if i ≤ lateTip then some (lateInfo i) else none
  | .hashToIndex h => if h = (lateInfo lateTip).blockHash then some lateTip else none
  | .output amount n =>
    if amount = 100000 ∧ n < 2 then some ⟨mixHash [UInt8.ofNat n],0,mixHash [9],n,0⟩ else none
  | .outputCount amount => if amount = 100000 then some 2 else none
  | _ => none

def lateNode : ChainState where
  store := lateStore
  cfg := defaultConfig
  checkpoints := .none
  tip := some lateTip
  recent := (List.range' (lateTip + 1 - 256) 256).map lateInfo
  blockMedianSize := 100000
  altBlocks := ∅
  unwound := []
  clock := lateTime (lateTip+2)
  powHint := none
  strictTransactionList := true

/-- A ring of the first two outputs of an amount, and two equal outputs. -/
def lateSpend (amount out unlockTime : Nat) (image : Hash) : Transaction :=
  ⟨⟨1,unlockTime,[.key amount [0,1] image],[⟨out,mixHash [2]⟩,⟨out,mixHash [3]⟩],[]⟩,
    [[ByteVec.zero 64,ByteVec.zero 64]]⟩

def lateLock : Transaction := lateSpend 100000 40000 cryptonoteMaxBlockNumber (mixHash [4])

/-- A ring of the two outputs `lateLock` creates. -/
def lateRefer : Transaction := lateSpend 40000 10000 (lateTip+100) (mixHash [5])

def lateBlocks : List (Nat × RawBlock) :=
  sampleOffers 0 (sampleBranch (lateTip+1) 0 (lateInfo lateTip).blockHash
    [(lateTime (lateTip+1),[lateLock],20000),(lateTime (lateTip+2),[lateRefer],20000)])

def lateRaw (i : Nat) : RawBlock := (lateBlocks.getD i (0,⟨[],[]⟩)).2

/-- The next block refers to an output locked at the boundary. -/
theorem locked_output_referred_at_once :
    lateLock ∈ (lateRaw 0).transactionList ∧ lateRefer ∈ (lateRaw 1).transactionList ∧
    lateRefer.body.inputs = [.key 40000 [0,1] (mixHash [5])] ∧
    ∃ out t, ChainState.addBlock lateCrypto (lateRaw 0) lateNode = .ok out t ∧
      out.index = lateTip + 1 ∧ out.status = .main ∧
      t.access.keyOutput 40000 0 = some
        ⟨mixHash [2],cryptonoteMaxBlockNumber,sampleTxId lateLock,0,lateTip+1⟩ ∧
      t.tipInfo.map BlockInfo.timestamp = some (lateTime (lateTip+1)) ∧
      t.checkpoints.isInCheckpointZone (lateTip+2) = false ∧
      ∃ out' u, ChainState.addBlock lateCrypto (lateRaw 1) t = .ok out' u ∧
        out'.index = lateTip + 2 ∧ out'.status = .main ∧
        ¬ (lateTip + 1 + 14 ≤ lateTip + 2 ∨
          lateTime (lateTip+1) + 900 ≤ lateTime (lateTip+1) + 60) := by
  refine ⟨by decide +kernel,by decide +kernel,rfl,?_⟩
  obtain ⟨out,t,hrun,⟨hindex,hstatus,hout,htime,hzone⟩,out',u,hrun',hindex',hstatus'⟩ :=
    Ensures.exists_ok_ok (m := ChainState.addBlock lateCrypto (lateRaw 0)) (s := lateNode)
      (Q := fun out t => out.index = lateTip + 1 ∧ out.status = .main ∧
        t.access.keyOutput 40000 0 = some
          ⟨mixHash [2],cryptonoteMaxBlockNumber,sampleTxId lateLock,0,lateTip+1⟩ ∧
        t.tipInfo.map BlockInfo.timestamp = some (lateTime (lateTip+1)) ∧
        t.checkpoints.isInCheckpointZone (lateTip+2) = false)
      (n := ChainState.addBlock lateCrypto (lateRaw 1))
      (R := fun out' _ => out'.index = lateTip + 2 ∧ out'.status = .main) (by decide +kernel)
  exact ⟨out,t,hrun,hindex,hstatus,hout,htime,hzone,out',u,hrun',hindex',hstatus',by omega⟩

end Wrkz
