import Wrkz.Chain.Ledger

/-!
`push_block` puts a block on top of the chain a state holds. Each part of its
batch is read back table by table, then the tables are put together again.
-/

set_option autoImplicit false

namespace Wrkz

open Library MainChain ChainState List

@[simp] theorem mem_sortHashes {hs : List Hash} {h : Hash} : h ∈ sortHashes hs ↔ h ∈ hs := by
  simp [sortHashes]

@[simp] theorem sortHashes_eq_nil {hs : List Hash} : sortHashes hs = [] ↔ hs = [] := by
  have hp : (sortHashes hs).Perm hs := perm_insertionSort _ _
  exact ⟨fun h => by rw [h] at hp; exact hp.nil_eq.symm,fun h => by rw [h]; rfl⟩

namespace ChainState

section

variable (s : ChainState) (index : Nat) (block : BlockTemplate) (raw : RawBlock)
  (coinbaseHash : Hash) (a : Accepted)

/-- What `push_block` writes. -/
inductive Pushes : WriteOp → Prop
  | output {amount n : Nat} {r : OutputRecord} (h : ((amount,n),r) ∈ number s.outputCountForAmount
      (blockOutputList index block coinbaseHash a.transactions)) :
      Pushes ⟨.output amount n,some r⟩
  | outputCount {amount c : Nat} (h : (assign s.outputCountForAmount ∅
      (blockOutputList index block coinbaseHash a.transactions)).2.lookup amount = some c) :
      Pushes ⟨.outputCount amount,some c⟩
  | keyImage {image : Hash} (h : image ∈ a.validatorState.spentKeyImages) :
      Pushes ⟨.keyImage image,some index⟩
  | blockKeyImages (h : a.validatorState.spentKeyImages ≠ []) :
      Pushes ⟨.blockKeyImages index,some (sortHashes a.validatorState.spentKeyImages)⟩
  | blockInfo : Pushes ⟨.blockInfo index,some a.info⟩
  | hashToIndex : Pushes ⟨.hashToIndex a.info.blockHash,some index⟩
  | blockTxHashes : Pushes ⟨.blockTxHashes index,some (coinbaseHash :: block.transactionHashes)⟩
  | transactionIndex {h : Hash} (hmem : h ∈ coinbaseHash :: block.transactionHashes) :
      Pushes ⟨.transactionIndex h,some index⟩
  | blockOutputs : Pushes ⟨.blockOutputs index,some ((number s.outputCountForAmount
      (blockOutputList index block coinbaseHash a.transactions)).map Prod.fst)⟩
  | paymentIdEntry {id h : Hash} {n : Nat}
      (hmem : ((id,n),h) ∈ number s.paymentIdEntryCount (paymentRefs block a.transactions)) :
      Pushes ⟨.paymentIdEntry id n,some h⟩
  | paymentIdCount {id : Hash} {c : Nat} (h : (assign s.paymentIdEntryCount ∅
      (paymentRefs block a.transactions)).2.lookup id = some c) : Pushes ⟨.paymentIdCount id,some c⟩
  | blockPaymentIds (h : paymentRefs block a.transactions ≠ []) :
      Pushes ⟨.blockPaymentIds index,some (paymentRefs block a.transactions)⟩
  | rawBlock (h : s.cfg.keepsBody index index = true) : Pushes ⟨.rawBlock index,some raw⟩
  | prunedBlock {i d : Nat} (h : s.cfg.pruneDepth = some d) (hi : i + d = index) :
      Pushes ⟨.rawBlock i,none⟩
  | droppedOutputs {i : Nat} (hi : i + s.cfg.unwindHistory = index) : Pushes ⟨.blockOutputs i,none⟩
  | metaVersion : Pushes ⟨.metaVersion,some stateSchemaVersion⟩
  | metaTip : Pushes ⟨.metaTip,some index⟩

end

variable {s : ChainState} {index : Nat} {block : BlockTemplate} {raw : RawBlock}
  {coinbaseHash : Hash} {a : Accepted}

variable {op : WriteOp} {k : Key} {r : Option k.Record} {amount n : Nat}

theorem pushes_of_mem_bodyOps (h : op ∈ bodyOps s.cfg index raw) :
    s.Pushes index block raw coinbaseHash a op := by
  simp only [bodyOps, mem_append] at h
  rcases h with (h | h) | h
  · split at h
    · rename_i hkeeps
      rw [mem_singleton.1 h]
      exact .rawBlock hkeeps
    · simp at h
  · split at h
    · rename_i d hd
      split at h
      · rw [mem_singleton.1 h]
        exact .prunedBlock hd (by omega)
      · simp at h
    · simp at h
  · split at h
    · rw [mem_singleton.1 h]
      exact .droppedOutputs (by omega)
    · simp at h

theorem pushes_of_mem (h : op ∈ s.pushOps index block raw coinbaseHash a) :
    s.Pushes index block raw coinbaseHash a op := by
  simp only [pushOps, mem_append, outputOps, keyImageOps, blockOps, metaOps, mem_map,
    mem_cons, not_mem_nil, or_false, assign_fst, nextIndex_empty, mem_sortHashes] at h
  rcases h with (((((⟨e,he,rfl⟩ | ⟨c,hc,rfl⟩) | (⟨i,hi,rfl⟩ | h)) | (((rfl | rfl | rfl) |
    ⟨x,hx,rfl⟩) | rfl)) | h) | h) | (rfl | rfl)
  · exact .output he
  · exact .outputCount (AList.mem_lookup_iff.2 hc)
  · exact .keyImage hi
  · split at h
    · simp at h
    · rename_i hne
      rw [mem_singleton.1 h]
      exact .blockKeyImages (by simpa using hne)
  · exact .blockInfo
  · exact .hashToIndex
  · exact .blockTxHashes
  · exact .transactionIndex (by simpa using hx)
  · exact .blockOutputs
  · unfold paymentOps at h
    split at h
    · simp at h
    · rename_i hne
      simp only [mem_append, mem_map, mem_singleton, assign_fst, nextIndex_empty] at h
      rcases h with (⟨e,he,rfl⟩ | ⟨c,hc,rfl⟩) | rfl
      · exact .paymentIdEntry he
      · exact .paymentIdCount (AList.mem_lookup_iff.2 hc)
      · exact .blockPaymentIds hne
  · exact pushes_of_mem_bodyOps h
  · exact .metaVersion
  · exact .metaTip

theorem mem_of_pushes (h : s.Pushes index block raw coinbaseHash a op) :
    op ∈ s.pushOps index block raw coinbaseHash a := by
  cases h with
  | outputCount h => simp [pushOps, outputOps, AList.mem_lookup_iff.1 h]
  | transactionIndex hmem =>
    rcases mem_cons.1 hmem with rfl | hmem <;> simp [pushOps, blockOps, *]
  | paymentIdEntry hmem =>
    have hne : paymentRefs block a.transactions ≠ [] := by
      intro hnil
      simp [hnil] at hmem
    simp [pushOps, paymentOps, assign_fst, hne, hmem]
  | paymentIdCount h =>
    have hne : paymentRefs block a.transactions ≠ [] := by
      intro hnil
      simp [hnil, assign] at h
    simp [pushOps, paymentOps, hne, AList.mem_lookup_iff.1 h]
  | prunedBlock h hi =>
    simp only [pushOps, bodyOps, h]
    simp
    omega
  | droppedOutputs hi =>
    simp only [pushOps, bodyOps, mem_append]
    simp
    omega
  | _ =>
    simp [pushOps, outputOps, keyImageOps, blockOps, paymentOps, bodyOps, metaOps, assign_fst, *]

variable (s index block raw coinbaseHash a)

/-- The store after the batch of `push_block`. -/
def pushed : Store := s.store.writeBatch (s.pushOps index block raw coinbaseHash a)

variable {s index block raw coinbaseHash a}

theorem pushed_of_pushes (hmem : s.Pushes index block raw coinbaseHash a ⟨k,r⟩)
    (huniq : ∀ r', s.Pushes index block raw coinbaseHash a ⟨k,r'⟩ → r' = r) :
    s.pushed index block raw coinbaseHash a k = r :=
  KeyValue.writeBatch_of_mem (mem_of_pushes hmem) fun r' hr' => huniq r' (pushes_of_mem hr')

theorem pushed_of_not_pushes (h : ∀ r, ¬ s.Pushes index block raw coinbaseHash a ⟨k,r⟩) :
    s.pushed index block raw coinbaseHash a k = s.store k := by
  refine KeyValue.writeBatch_of_untouched ?_
  rintro ⟨k',r'⟩ hop rfl
  exact h r' (pushes_of_mem hop)

theorem pushed_ite {p : Prop} [Decidable p]
    (hmem : p → s.Pushes index block raw coinbaseHash a ⟨k,r⟩)
    (huniq : ∀ r', s.Pushes index block raw coinbaseHash a ⟨k,r'⟩ → p ∧ r' = r) :
    s.pushed index block raw coinbaseHash a k = if p then r else s.store k := by
  split
  · rename_i hp
    exact pushed_of_pushes (hmem hp) fun r' hr' => (huniq r' hr').2
  · rename_i hp
    exact pushed_of_not_pushes fun r' hr' => hp (huniq r' hr').1

variable (s index block raw coinbaseHash a)

theorem pushed_metaTip : s.pushed index block raw coinbaseHash a .metaTip = some index := by
  refine pushed_of_pushes .metaTip fun r h => ?_
  cases h
  rfl

theorem pushed_blockInfo (i : Nat) :
    s.pushed index block raw coinbaseHash a (.blockInfo i) =
      if i = index then some a.info else s.store (.blockInfo i) := by
  refine pushed_ite (fun hi => hi ▸ .blockInfo) fun r h => ?_
  cases h
  exact ⟨rfl,rfl⟩

theorem pushed_hashToIndex (h : Hash) :
    s.pushed index block raw coinbaseHash a (.hashToIndex h) =
      if h = a.info.blockHash then some index else s.store (.hashToIndex h) := by
  refine pushed_ite (fun hh => hh ▸ .hashToIndex) fun r h => ?_
  cases h
  exact ⟨rfl,rfl⟩

theorem pushed_blockTxHashes (i : Nat) :
    s.pushed index block raw coinbaseHash a (.blockTxHashes i) =
      if i = index then some (coinbaseHash :: block.transactionHashes)
      else s.store (.blockTxHashes i) := by
  refine pushed_ite (fun hi => hi ▸ .blockTxHashes) fun r h => ?_
  cases h
  exact ⟨rfl,rfl⟩

theorem pushed_transactionIndex (h : Hash) :
    s.pushed index block raw coinbaseHash a (.transactionIndex h) =
      if h ∈ coinbaseHash :: block.transactionHashes then some index
      else s.store (.transactionIndex h) := by
  refine pushed_ite .transactionIndex fun r h => ?_
  cases h with
  | transactionIndex hmem => exact ⟨hmem,rfl⟩

theorem pushed_keyImage (image : Hash) :
    s.pushed index block raw coinbaseHash a (.keyImage image) =
      if image ∈ a.validatorState.spentKeyImages then some index else s.store (.keyImage image) := by
  refine pushed_ite .keyImage fun r h => ?_
  cases h with
  | keyImage h => exact ⟨h,rfl⟩

theorem pushed_blockKeyImages (i : Nat) :
    s.pushed index block raw coinbaseHash a (.blockKeyImages i) =
      if i = index ∧ a.validatorState.spentKeyImages ≠ [] then
        some (sortHashes a.validatorState.spentKeyImages)
      else s.store (.blockKeyImages i) := by
  refine pushed_ite (fun hi => hi.1 ▸ .blockKeyImages hi.2) fun r h => ?_
  cases h with
  | blockKeyImages h => exact ⟨⟨rfl,h⟩,rfl⟩

theorem pushed_output_new {r : OutputRecord}
    (h : ((amount,n),r) ∈ number s.outputCountForAmount
      (blockOutputList index block coinbaseHash a.transactions)) :
    s.pushed index block raw coinbaseHash a (.output amount n) = some r := by
  refine pushed_of_pushes (.output h) fun r' h' => ?_
  cases h' with
  | output h' => rw [number_unique h' h]

theorem pushed_output_old
    (h : (amount,n) ∉ (number s.outputCountForAmount
      (blockOutputList index block coinbaseHash a.transactions)).map Prod.fst) :
    s.pushed index block raw coinbaseHash a (.output amount n) = s.store (.output amount n) := by
  refine pushed_of_not_pushes fun r h' => ?_
  cases h' with
  | output h' => exact h (mem_map.2 ⟨_,h',rfl⟩)

theorem pushed_outputCount (amount : Nat) :
    s.pushed index block raw coinbaseHash a (.outputCount amount) =
      if recordsOf amount (blockOutputList index block coinbaseHash a.transactions) = [] then
        s.store (.outputCount amount)
      else some (s.outputCountForAmount amount +
        (recordsOf amount (blockOutputList index block coinbaseHash a.transactions)).length) := by
  rw [← ite_not]
  refine pushed_ite (fun hne => .outputCount (by simp [assign_snd_lookup, hne])) fun r h => ?_
  cases h with
  | outputCount h =>
    rw [assign_snd_lookup] at h
    split at h
    · simp at h
    · rename_i hne
      exact ⟨hne,by rw [← h, nextIndex_empty]⟩

theorem pushed_paymentIdEntry_new {id h : Hash} {n : Nat}
    (hmem : ((id,n),h) ∈ number s.paymentIdEntryCount (paymentRefs block a.transactions)) :
    s.pushed index block raw coinbaseHash a (.paymentIdEntry id n) = some h := by
  refine pushed_of_pushes (.paymentIdEntry hmem) fun r' h' => ?_
  cases h' with
  | paymentIdEntry h' => rw [number_unique h' hmem]

theorem pushed_paymentIdEntry_old {id : Hash} {n : Nat}
    (h : (id,n) ∉ (number s.paymentIdEntryCount (paymentRefs block a.transactions)).map Prod.fst) :
    s.pushed index block raw coinbaseHash a (.paymentIdEntry id n) =
      s.store (.paymentIdEntry id n) := by
  refine pushed_of_not_pushes fun r h' => ?_
  cases h' with
  | paymentIdEntry h' => exact h (mem_map.2 ⟨_,h',rfl⟩)

theorem pushed_paymentIdCount (id : Hash) :
    s.pushed index block raw coinbaseHash a (.paymentIdCount id) =
      if recordsOf id (paymentRefs block a.transactions) = [] then s.store (.paymentIdCount id)
      else some (s.paymentIdEntryCount id +
        (recordsOf id (paymentRefs block a.transactions)).length) := by
  rw [← ite_not]
  refine pushed_ite (fun hne => .paymentIdCount (by simp [assign_snd_lookup, hne])) fun r h => ?_
  cases h with
  | paymentIdCount h =>
    rw [assign_snd_lookup] at h
    split at h
    · simp at h
    · rename_i hne
      exact ⟨hne,by rw [← h, nextIndex_empty]⟩

theorem pushed_blockPaymentIds (i : Nat) :
    s.pushed index block raw coinbaseHash a (.blockPaymentIds i) =
      if i = index ∧ paymentRefs block a.transactions ≠ [] then
        some (paymentRefs block a.transactions)
      else s.store (.blockPaymentIds i) := by
  refine pushed_ite (fun hi => hi.1 ▸ .blockPaymentIds hi.2) fun r h => ?_
  cases h with
  | blockPaymentIds h => exact ⟨⟨rfl,h⟩,rfl⟩

theorem pushed_paymentId (id : Hash) :
    s.pushed index block raw coinbaseHash a (.paymentId id) = s.store (.paymentId id) :=
  pushed_of_not_pushes fun r h => by cases h

theorem pushed_blockOutputs (i : Nat) :
    s.pushed index block raw coinbaseHash a (.blockOutputs i) =
      if i = index then some ((number s.outputCountForAmount
        (blockOutputList index block coinbaseHash a.transactions)).map Prod.fst)
      else if i + s.cfg.unwindHistory = index then none else s.store (.blockOutputs i) := by
  have hpos : 0 < s.cfg.unwindHistory := Nat.lt_of_lt_of_le (by decide) s.cfg.unwindHistory_ge
  by_cases hi : i = index
  · subst hi
    rw [if_pos rfl]
    refine pushed_of_pushes .blockOutputs fun r h => ?_
    cases h with
    | blockOutputs => rfl
    | droppedOutputs hi => omega
  · rw [if_neg hi]
    refine pushed_ite .droppedOutputs fun r h => ?_
    cases h with
    | blockOutputs => exact absurd rfl hi
    | droppedOutputs hi => exact ⟨hi,rfl⟩

theorem pushed_rawBlock_some {i : Nat} {r : RawBlock}
    (h : s.pushed index block raw coinbaseHash a (.rawBlock i) = some r) :
    (i = index ∧ r = raw) ∨ s.store (.rawBlock i) = some r := by
  rcases KeyValue.writeBatch_eq_or_mem s.store (s.pushOps index block raw coinbaseHash a)
    (.rawBlock i) with heq | hmem
  · exact .inr (heq.symm.trans h)
  · unfold pushed at h
    rw [h] at hmem
    cases pushes_of_mem hmem
    exact .inl ⟨rfl,rfl⟩

theorem pushed_rawBlock_of_unpruned (hprune : s.cfg.pruneDepth = none) (i : Nat) :
    s.pushed index block raw coinbaseHash a (.rawBlock i) =
      if i = index ∧ s.cfg.keepsBody index index = true then some raw else s.store (.rawBlock i) := by
  refine pushed_ite (by rintro ⟨rfl,h⟩; exact .rawBlock h) fun r h => ?_
  cases h with
  | rawBlock h => exact ⟨⟨rfl,h⟩,rfl⟩
  | prunedBlock hd => simp [hprune] at hd

end ChainState

variable {cx : Crypto} {s : ChainState} {chain : MainChain cx}

theorem MainChain.getElem?_concat (chain : MainChain cx) (b : MainBlock cx) (i : Nat) :
    (chain ++ [b])[i]? = if i = chain.length then some b else chain[i]? := by
  rcases Nat.lt_trichotomy i chain.length with hi | hi | hi
  · rw [getElem?_append_left hi, if_neg (by omega)]
  · subst hi; simp
  · rw [if_neg (by omega), getElem?_eq_none (by simp; omega), getElem?_eq_none (by omega)]

theorem MainChain.map_getElem?_concat {α : Type} (chain : MainChain cx) (b : MainBlock cx)
    (f : MainBlock cx → α) (i : Nat) :
    ((chain ++ [b])[i]?).map f = if i = chain.length then some (f b) else (chain[i]?).map f := by
  rw [getElem?_concat]
  split <;> rfl

/-- The state after `b` has been pushed on `chain`. -/
def ChainState.afterPush (s : ChainState) (chain : MainChain cx) (b : MainBlock cx) : ChainState :=
  let recent := s.recent ++ [b.info]
  { s with
    store := s.pushed chain.length b.block b.raw b.coinbaseHash (b.accepted 0)
    tip := some chain.length
    recent := recent.drop (recent.length - s.cfg.recentWindow)
    blockMedianSize := medianSize (chain ++ [b]) }

theorem ChainState.afterPush_keyImage (s : ChainState) (chain : MainChain cx) (b : MainBlock cx)
    (k : Hash) : (s.afterPush chain b).store (.keyImage k) =
      if k ∈ b.images then some chain.length else s.store (.keyImage k) :=
  s.pushed_keyImage _ _ _ _ _ k

theorem ChainState.afterPush_transactionIndex (s : ChainState) (chain : MainChain cx)
    (b : MainBlock cx) (h : Hash) : (s.afterPush chain b).store (.transactionIndex h) =
      if h ∈ b.txHashes then some chain.length else s.store (.transactionIndex h) :=
  s.pushed_transactionIndex _ _ _ _ _ h

namespace HoldsTables

variable (h : HoldsTables s chain)
include h

theorem pushed_hashes {b : MainBlock cx}
    (hfresh : ∀ c ∈ chain, c.info.blockHash ≠ b.info.blockHash) (x : Hash) (i : Nat) :
    s.pushed chain.length b.block b.raw b.coinbaseHash (b.accepted 0) (.hashToIndex x) = some i ↔
      ∃ c, (chain ++ [b])[i]? = some c ∧ c.info.blockHash = x := by
  rw [pushed_hashToIndex, getElem?_concat]
  by_cases hx : x = b.info.blockHash
  · subst hx
    simp only [MainBlock.accepted, if_true, Option.some.injEq]
    constructor
    · intro hi
      subst hi
      exact ⟨b,by simp,rfl⟩
    · rintro ⟨c,hc,heq⟩
      split at hc
      · rename_i hi; exact hi.symm
      · exact absurd heq (hfresh c (mem_of_getElem? hc))
  · rw [if_neg (by simpa [MainBlock.accepted] using hx), h.hashes]
    constructor
    · rintro ⟨c,hc,heq⟩
      have hi : i ≠ chain.length := by
        have := (List.getElem?_eq_some_iff.1 hc).1
        omega
      exact ⟨c,by rw [if_neg hi]; exact hc,heq⟩
    · rintro ⟨c,hc,heq⟩
      split at hc
      · cases hc
        exact absurd heq.symm hx
      · exact ⟨c,hc,heq⟩

theorem pushed_blockOutputs (b : MainBlock cx) {i : Nat} {refs : List (Nat × Nat)}
    (hrefs : s.pushed chain.length b.block b.raw b.coinbaseHash (b.accepted 0) (.blockOutputs i) =
      some refs) : ∃ c, (chain ++ [b])[i]? = some c ∧ refs = refsOn ((chain ++ [b]).take i) c := by
  rw [ChainState.pushed_blockOutputs, h.outputCountForAmount_eq] at hrefs
  rw [getElem?_concat]
  split at hrefs
  · rename_i hi
    subst hi
    refine ⟨b,by simp,?_⟩
    rw [take_left]
    exact (Option.some.inj hrefs).symm
  · rename_i hi
    split at hrefs
    · cases hrefs
    · obtain ⟨c,hc,hr⟩ := h.blockOutputs i refs hrefs
      have hlt := (List.getElem?_eq_some_iff.1 hc).1
      refine ⟨c,by rw [if_neg hi]; exact hc,?_⟩
      rw [List.take_append_of_le_length (by omega)]
      exact hr

theorem pushed_outputs (b : MainBlock cx) :
    HoldsLog
      (fun x n => s.pushed chain.length b.block b.raw b.coinbaseHash (b.accepted 0) (.output x n))
      (fun x => s.pushed chain.length b.block b.raw b.coinbaseHash (b.accepted 0) (.outputCount x))
      (outputLog (chain ++ [b])) := by
  have hlog : outputLog (chain ++ [b]) = fun x =>
      chain.outputLog x ++ recordsOf x (b.outputsAt chain.length) := by
    funext x
    simp [outputLog, outputs_concat]
  rw [hlog]
  refine h.outputs.append ?_ ?_ ?_
  · intro x n r hr
    refine pushed_output_new _ _ _ _ _ _ ?_
    rw [h.outputCountForAmount_eq]
    exact hr
  · intro x n hn
    refine pushed_output_old _ _ _ _ _ _ ?_
    rw [h.outputCountForAmount_eq]
    exact hn
  · intro x
    rw [pushed_outputCount, h.outputCountForAmount_eq]
    rfl

theorem pushed_payments (b : MainBlock cx) :
    HoldsLog
      (fun x n => s.pushed chain.length b.block b.raw b.coinbaseHash (b.accepted 0)
        (.paymentIdEntry x n))
      (fun x => s.pushed chain.length b.block b.raw b.coinbaseHash (b.accepted 0)
        (.paymentIdCount x))
      (paymentLog (chain ++ [b])) := by
  have hlog : paymentLog (chain ++ [b]) = fun x =>
      chain.paymentLog x ++ recordsOf x b.paymentRefs := by
    funext x
    simp [paymentLog, payments_concat]
  have hcount : s.paymentIdEntryCount = fun x => (chain.paymentLog x).length := by
    funext x
    exact h.paymentIdEntryCount_eq x
  rw [hlog]
  refine h.payments.append ?_ ?_ ?_
  · intro x n r hr
    refine pushed_paymentIdEntry_new _ _ _ _ _ _ ?_
    rw [hcount]
    exact hr
  · intro x n hn
    refine pushed_paymentIdEntry_old _ _ _ _ _ _ ?_
    rw [hcount]
    exact hn
  · intro x
    rw [pushed_paymentIdCount, hcount]
    rfl

theorem push {b : MainBlock cx} (hfresh : ∀ c ∈ chain, c.info.blockHash ≠ b.info.blockHash) :
    HoldsTables (s.afterPush chain b) (chain ++ [b]) where
  tip := by simp [afterPush]
  metaTip := s.pushed_metaTip _ _ _ _ _
  infos i := by
    rw [map_getElem?_concat, ← h.infos]
    exact s.pushed_blockInfo _ _ _ _ _ i
  hashes := h.pushed_hashes hfresh
  txHashes i := by
    rw [map_getElem?_concat, ← h.txHashes]
    exact s.pushed_blockTxHashes _ _ _ _ _ i
  blockKeyImages i := by
    refine (s.pushed_blockKeyImages _ _ _ _ _ i).trans ?_
    rw [getElem?_concat, h.blockKeyImages]
    by_cases hi : i = chain.length
    · subst hi
      by_cases him : b.images = [] <;> simp [MainBlock.accepted, him]
    · simp [hi]
  outputs := h.pushed_outputs b
  payments := h.pushed_payments b
  legacy id := (s.pushed_paymentId _ _ _ _ _ id).trans (h.legacy id)
  blockPaymentIds i := by
    refine (s.pushed_blockPaymentIds _ _ _ _ _ i).trans ?_
    rw [getElem?_concat, h.blockPaymentIds]
    have hrefs : paymentRefs b.block (b.accepted 0).transactions = b.paymentRefs := rfl
    rw [hrefs]
    by_cases hi : i = chain.length
    · subst hi
      by_cases href : b.paymentRefs = [] <;> simp [href]
    · simp [hi]
  blockOutputs _ _ hrefs := h.pushed_blockOutputs b hrefs
  rawBlocks i r hr := by
    rw [getElem?_concat]
    rcases s.pushed_rawBlock_some _ _ _ _ _ hr with ⟨hi,heq⟩ | hold
    · exact ⟨b,by rw [if_pos hi],heq.symm⟩
    · obtain ⟨c,hc,heq⟩ := h.rawBlocks i r hold
      have hi : i ≠ chain.length := by
        have := (List.getElem?_eq_some_iff.1 hc).1
        omega
      exact ⟨c,by rw [if_neg hi]; exact hc,heq⟩
  recent := by
    have hlen := h.recent_length
    have hr := h.recent
    simp only [afterPush, length_append, length_singleton, hlen]
    rw [hr]
    have hw : 0 < s.cfg.recentWindow := Nat.lt_of_lt_of_le (by decide) s.cfg.recentWindow_ge
    simp only [MainChain.infos, map_append, map_cons, map_nil]
    rw [drop_append_of_le_length (by simp; omega),
      drop_append_of_le_length (by simp; omega), drop_drop]
    congr 2
    omega

end HoldsTables

variable {b : MainBlock cx} (h : HoldsChain s chain)
  (hfresh : ∀ c ∈ chain, c.info.blockHash ≠ b.info.blockHash)
include h hfresh

theorem HoldsChain.push : HoldsChain (s.afterPush chain b) (chain ++ [b]) :=
  ⟨h.toHoldsTables.push hfresh,rfl⟩

theorem HoldsChain.pushBlock_eq (d : Nat) :
    pushBlock cx chain.length b.block b.raw (b.accepted d) s =
      .ok ⟨⟩ (s.afterPush chain b) := by
  have htables := (h.toHoldsTables.push hfresh).congr
    (t := { s.afterPush chain b with blockMedianSize := s.blockMedianSize }) rfl rfl rfl rfl
  simp only [pushBlock, b.coinbaseHashed]
  exact htables.updateBlockMedianSize_spec.1

end Wrkz
