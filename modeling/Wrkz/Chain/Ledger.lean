import Wrkz.Chain.Apply

/-!
The main chain as a list of blocks, and what it means for a state to hold it:
every record of the store is the one the list determines. The tables of key
images and of transactions are left to `HoldsSpends`, since inside a checkpoint
zone they are not determined by the chain.
-/

set_option autoImplicit false

namespace Wrkz

open Library List

/-- A block of the main chain with what its acceptance established. -/
structure MainBlock (cx : Crypto) where
  block : BlockTemplate
  raw : RawBlock
  transactions : List Transaction
  coinbaseHash : Hash
  info : BlockInfo
  images : List Hash
  parsed : BlockTemplate.fromBytes raw.block = .ok block
  transactionsParsed : parseTransactions block raw.transactions = .ok transactions
  hashed : block.hash cx = .ok info.blockHash
  coinbaseHashed : block.baseTransaction.hash cx = .ok coinbaseHash

namespace MainBlock

variable {cx : Crypto} (b : MainBlock cx)

def txHashes : List Hash := b.coinbaseHash :: b.block.transactionHashes

def outputsAt (index : Nat) : List (Nat × OutputRecord) :=
  blockOutputList index b.block b.coinbaseHash b.transactions

def paymentRefs : List (Hash × Hash) := Wrkz.paymentRefs b.block b.transactions

def accepted (difficulty : Nat) : Accepted := ⟨b.transactions,b.info,⟨b.images⟩,difficulty⟩

end MainBlock

abbrev MainChain (cx : Crypto) := List (MainBlock cx)

namespace MainChain

variable {cx : Crypto}

def outputsFrom (start : Nat) : MainChain cx → List (Nat × OutputRecord)
  | [] => []
  | b :: rest => b.outputsAt start ++ outputsFrom (start+1) rest

def outputs (chain : MainChain cx) : List (Nat × OutputRecord) := outputsFrom 0 chain

def payments (chain : MainChain cx) : List (Hash × Hash) := chain.flatMap MainBlock.paymentRefs

def outputLog (chain : MainChain cx) (amount : Nat) : List OutputRecord :=
  recordsOf amount chain.outputs

def paymentLog (chain : MainChain cx) (id : Hash) : List Hash := recordsOf id chain.payments

def outputCount (chain : MainChain cx) (amount : Nat) : Nat := (chain.outputLog amount).length

/-- The pairs a block on top of `chain` creates. -/
def refsOn (chain : MainChain cx) (b : MainBlock cx) : List (Nat × Nat) :=
  (number chain.outputCount (b.outputsAt chain.length)).map Prod.fst

def infos (chain : MainChain cx) : List BlockInfo := chain.map MainBlock.info

def infosAt (chain : MainChain cx) (idxs : List Nat) : List BlockInfo :=
  idxs.filterMap fun i => (chain[i]?).map MainBlock.info

def tip : MainChain cx → Option Nat
  | [] => none
  | _ :: rest => some rest.length

@[simp] theorem tip_concat (chain : MainChain cx) (b : MainBlock cx) :
    tip (chain ++ [b]) = some chain.length := by
  cases chain <;> simp [tip]

variable {o : Nat × OutputRecord} {chain : MainChain cx} {index : Nat}

theorem tip_eq_some_iff {t : Nat} : chain.tip = some t ↔ chain.length = t + 1 := by
  cases chain <;> simp [tip]

theorem tip_eq_ite (chain : MainChain cx) :
    chain.tip = if chain.length = 0 then none else some (chain.length-1) := by
  cases chain <;> simp [tip]

def medianSize (chain : MainChain cx) : Nat :=
  match chain.tip with
  | none => fullRewardZone (blockMajorVersionForIndex 0)
  | some t =>
    let start := t + 1 - cryptonoteRewardBlocksWindow
    max (medianValue ((chain.infosAt (List.range' start (t + 1 - start))).map BlockInfo.blockSize))
      (fullRewardZone (blockMajorVersionForIndex (t+1)))

theorem tip_eq_none_iff : chain.tip = none ↔ chain = [] := by
  cases chain <;> simp [tip]

theorem outputsFrom_append (start : Nat) (chain tail : MainChain cx) :
    outputsFrom start (chain ++ tail) =
      outputsFrom start chain ++ outputsFrom (start + chain.length) tail := by
  induction chain generalizing start with
  | nil => rfl
  | cons b rest ih =>
    have hlen : start + 1 + rest.length = start + (rest.length + 1) := by omega
    simp [outputsFrom, ih, hlen]

theorem outputs_append (chain tail : MainChain cx) :
    outputs (chain ++ tail) = chain.outputs ++ outputsFrom chain.length tail := by
  have h := outputsFrom_append 0 chain tail
  rw [Nat.zero_add] at h
  exact h

theorem outputs_concat (chain : MainChain cx) (b : MainBlock cx) :
    outputs (chain ++ [b]) = chain.outputs ++ b.outputsAt chain.length := by
  simp [outputs_append, outputsFrom]

theorem payments_append (chain tail : MainChain cx) :
    payments (chain ++ tail) = chain.payments ++ payments tail := by
  simp [payments]

theorem payments_concat (chain : MainChain cx) (b : MainBlock cx) :
    payments (chain ++ [b]) = chain.payments ++ b.paymentRefs := by
  simp [payments]

theorem txOutputs_blockIndex {tx : Transaction} {h : Hash}
    (ho : o ∈ txOutputs index tx h) : o.2.blockIndex = index := by
  obtain ⟨⟨out,i⟩,_,rfl⟩ := mem_map.1 ho
  rfl

theorem outputsAt_blockIndex {b : MainBlock cx}
    (ho : o ∈ b.outputsAt index) : o.2.blockIndex = index := by
  rcases mem_append.1 ho with ho | ho
  · exact txOutputs_blockIndex ho
  · obtain ⟨⟨tx,h⟩,_,ho⟩ := mem_flatMap.1 ho
    exact txOutputs_blockIndex ho

theorem outputsFrom_blockIndex {start : Nat} (ho : o ∈ outputsFrom start chain) :
    start ≤ o.2.blockIndex ∧ o.2.blockIndex < start + chain.length := by
  induction chain generalizing start with
  | nil => simp [outputsFrom] at ho
  | cons b rest ih =>
    rcases mem_append.1 ho with ho | ho
    · have h := outputsAt_blockIndex ho
      simp only [length_cons]
      omega
    · have h := ih ho
      simp only [length_cons]
      omega

end MainChain

/-- What no block changes: two states judge by the same rules and the same clock. -/
structure SameEnv (s t : ChainState) : Prop where
  cfg : t.cfg = s.cfg
  checkpoints : t.checkpoints = s.checkpoints
  clock : t.clock = s.clock
  powHint : t.powHint = s.powHint
  strictTransactionList : t.strictTransactionList = s.strictTransactionList

namespace SameEnv

theorem refl (s : ChainState) : SameEnv s s := ⟨rfl,rfl,rfl,rfl,rfl⟩

theorem trans {s t u : ChainState} (h : SameEnv s t) (h' : SameEnv t u) : SameEnv s u :=
  ⟨h'.1.trans h.1,h'.2.trans h.2,h'.3.trans h.3,h'.4.trans h.4,h'.5.trans h.5⟩

end SameEnv

/-- The state's tables are those of the chain. The per-block output pairs and the
bodies may be missing, but are never wrong. -/
structure HoldsTables {cx : Crypto} (s : ChainState) (chain : MainChain cx) : Prop where
  tip : s.tip = chain.tip
  metaTip : s.store .metaTip = s.tip
  infos : ∀ i, s.store (.blockInfo i) = (chain[i]?).map MainBlock.info
  hashes : ∀ h i, s.store (.hashToIndex h) = some i ↔
    ∃ b, chain[i]? = some b ∧ b.info.blockHash = h
  txHashes : ∀ i, s.store (.blockTxHashes i) = (chain[i]?).map MainBlock.txHashes
  blockKeyImages : ∀ i, s.store (.blockKeyImages i) =
    (chain[i]?).bind fun b => if b.images = [] then none else some (sortHashes b.images)
  outputs : HoldsLog (fun a n => s.store (.output a n)) (fun a => s.store (.outputCount a))
    chain.outputLog
  payments : HoldsLog (fun id n => s.store (.paymentIdEntry id n))
    (fun id => s.store (.paymentIdCount id)) chain.paymentLog
  legacy : ∀ id, s.store (.paymentId id) = none
  blockPaymentIds : ∀ i, s.store (.blockPaymentIds i) =
    (chain[i]?).bind fun b => if b.paymentRefs = [] then none else some b.paymentRefs
  blockOutputs : ∀ i refs, s.store (.blockOutputs i) = some refs →
    ∃ b, chain[i]? = some b ∧ refs = MainChain.refsOn (chain.take i) b
  rawBlocks : ∀ i raw, s.store (.rawBlock i) = some raw → ∃ b, chain[i]? = some b ∧ b.raw = raw
  recent : s.recent = chain.infos.drop (chain.length - s.cfg.recentWindow)

structure HoldsChain {cx : Crypto} (s : ChainState) (chain : MainChain cx) : Prop
    extends HoldsTables s chain where
  median : s.blockMedianSize = chain.medianSize

/-- The key images and the transactions of the chain, each at its own block. -/
structure HoldsSpends {cx : Crypto} (s : ChainState) (chain : MainChain cx) : Prop where
  keyImages : ∀ k i, s.store (.keyImage k) = some i ↔ ∃ b, chain[i]? = some b ∧ k ∈ b.images
  transactions : ∀ h i, s.store (.transactionIndex h) = some i ↔
    ∃ b, chain[i]? = some b ∧ h ∈ b.txHashes

def HoldsBodies {cx : Crypto} (s : ChainState) (chain : MainChain cx) : Prop :=
  ∀ i, s.store (.rawBlock i) =
    if s.cfg.keepsBody i i = true then (chain[i]?).map MainBlock.raw else none

namespace HoldsTables

variable {cx : Crypto} {s : ChainState} {chain : MainChain cx}

variable (h : HoldsTables s chain)
include h

theorem congr {t : ChainState} (hstore : t.store = s.store) (hcfg : t.cfg = s.cfg)
    (htip : t.tip = s.tip) (hrecent : t.recent = s.recent) : HoldsTables t chain := by
  obtain ⟨h₁,h₂,h₃,h₄,h₅,h₆,h₇,h₈,h₉,h₁₀,h₁₁,h₁₂,h₁₃⟩ := h
  rw [← hstore, ← htip] at h₂
  rw [← htip] at h₁
  rw [← hrecent, ← hcfg] at h₁₃
  rw [← hstore] at h₃ h₄ h₅ h₆ h₇ h₈ h₉ h₁₀ h₁₁ h₁₂
  exact ⟨h₁,h₂,h₃,h₄,h₅,h₆,h₇,h₈,h₉,h₁₀,h₁₁,h₁₂,h₁₃⟩

theorem recent_length : s.recent.length = min chain.length s.cfg.recentWindow := by
  rw [h.recent]
  simp only [MainChain.infos, length_drop, length_map]
  omega

/-- The cache of recent infos never answers differently from the store. -/
theorem blockInfo_eq (i : Nat) : s.blockInfo i = (chain[i]?).map MainBlock.info := by
  unfold ChainState.blockInfo
  rw [h.tip]
  cases ht : chain.tip with
  | none => exact h.infos i
  | some t =>
    have hlen := MainChain.tip_eq_some_iff.1 ht
    simp only
    split
    · rename_i hi
      rw [h.recent_length] at hi ⊢
      rw [h.recent, getElem?_drop]
      have hidx : chain.length - s.cfg.recentWindow +
          (min chain.length s.cfg.recentWindow - 1 - (t - i)) = i := by omega
      rw [hidx]
      simp [MainChain.infos]
    · exact h.infos i

theorem tipInfo_eq : s.tipInfo = chain.getLast?.map MainBlock.info := by
  have hw : 0 < s.cfg.recentWindow := Nat.lt_of_lt_of_le (by decide) s.cfg.recentWindow_ge
  unfold ChainState.tipInfo
  rw [h.recent, getLast?_drop]
  cases chain with
  | nil => simp [MainChain.infos]
  | cons b rest =>
    have hlt : ¬ (MainChain.infos (b :: rest)).length ≤
        (b :: rest).length - s.cfg.recentWindow := by
      simp only [MainChain.infos, length_map, length_cons]
      omega
    rw [if_neg hlt, MainChain.infos, getLast?_map]

theorem blockIndexByHash_iff {x : Hash} {i : Nat} :
    s.blockIndexByHash x = some i ↔ ∃ b, chain[i]? = some b ∧ b.info.blockHash = x :=
  h.hashes x i

theorem outputCountForAmount_eq : s.outputCountForAmount = chain.outputCount := by
  funext a
  exact h.outputs.count_getD a

theorem paymentIdEntryCount_eq (id : Hash) :
    s.paymentIdEntryCount id = (chain.paymentLog id).length :=
  h.payments.count_getD id

theorem infosInView_main {n : Nat} {idxs : List Nat} (hidx : ∀ i ∈ idxs, i ≤ n ∧ i < chain.length) :
    s.infosInView (.mainChain n) idxs = .ok (chain.infosAt idxs) := by
  induction idxs with
  | nil => rfl
  | cons i rest ih =>
    have hi := hidx i mem_cons_self
    have hrest := ih (fun j hj => hidx j (mem_cons_of_mem _ hj))
    have hview : s.infoInView (.mainChain n) i = some (chain.get ⟨i,hi.2⟩).info := by
      unfold ChainState.infoInView
      rw [if_neg (by simp [ChainView.mainChain]; omega), h.blockInfo_eq]
      simp [getElem?_eq_getElem hi.2]
    simp [ChainState.infosInView, hview, hrest, orRefuse, bind, Except.bind, pure, Except.pure,
      MainChain.infosAt, getElem?_eq_getElem hi.2]

theorem medianSizeAtTip_eq : s.medianSizeAtTip = .ok chain.medianSize := by
  unfold ChainState.medianSizeAtTip MainChain.medianSize
  rw [h.tip]
  cases ht : chain.tip with
  | none => rfl
  | some t =>
    have hlen := MainChain.tip_eq_some_iff.1 ht
    have hidx : ∀ i ∈ range' (t + 1 - cryptonoteRewardBlocksWindow)
        (t + 1 - (t + 1 - cryptonoteRewardBlocksWindow)), i ≤ t ∧ i < chain.length := by
      intro i hi
      have hi' := mem_range'_1.1 hi
      omega
    simp only [ChainState.rewardSizeMedian, ChainState.lastInfos, h.infosInView_main hidx]
    rfl

theorem updateBlockMedianSize_spec :
    ChainState.updateBlockMedianSize s = .ok ⟨⟩ { s with blockMedianSize := chain.medianSize } ∧
      HoldsChain { s with blockMedianSize := chain.medianSize } chain := by
  refine ⟨?_,h.congr rfl rfl rfl rfl,rfl⟩
  simp [ChainState.updateBlockMedianSize, h.medianSizeAtTip_eq]

end HoldsTables

theorem HoldsChain.congr {cx : Crypto} {s t : ChainState} {chain : MainChain cx}
    (h : HoldsChain s chain) (hstore : t.store = s.store) (hcfg : t.cfg = s.cfg)
    (htip : t.tip = s.tip) (hrecent : t.recent = s.recent)
    (hmedian : t.blockMedianSize = s.blockMedianSize) : HoldsChain t chain :=
  ⟨h.toHoldsTables.congr hstore hcfg htip hrecent,hmedian.trans h.median⟩

end Wrkz
