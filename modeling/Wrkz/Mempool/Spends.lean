import Wrkz.Mempool.Blocks

/-!
The key images the pool stands for. An operation brings an image into the pool only with a
transaction that the chain it was given lets spend it, and a sweep leaves none of those it
was asked to remove.
-/

set_option autoImplicit false

namespace Wrkz

open Library

variable {chain : ChainAccess} {tx : Transaction} {ctx : TxContext} {cx : Crypto}

theorem checkRings_unspent {inputs : List Input} {i : Nat}
    (h : ChainReads.checkRings id id cx tx chain.reads ctx inputs i = .ok ⟨⟩) :
    ∀ k ∈ inputs.filterMap Input.keyImage?, chain.keyImageSpent k ctx.blockHeight = false := by
  induction inputs generalizing i with
  | nil => simp
  | cons input inputs ih =>
    unfold ChainReads.checkRings at h
    obtain ⟨⟨image,ring,signatures⟩,hring,h⟩ := bind_ok_iff.1 h
    obtain ⟨_,_,hrest⟩ := bind_ok_iff.1 h
    have hlater := ih hrest
    intro k hk
    cases input with
    | base index => cases hring
    | key amount offsets own =>
      have hspent := (gatherRing_ok_iff.1 hring).1
      simp only [List.filterMap_cons, Input.keyImage?, List.mem_cons] at hk
      rcases hk with rfl | hk
      · exact hspent
      · exact hlater k hk

theorem validateTransactionEarlyExit_unspent {blob : Bytes} {state : ValidatorState}
    {passed : TxValidation × ValidatorState}
    (h : validateTransactionEarlyExit cx tx blob state chain ctx = .ok passed)
    (hzone : ctx.checkpoints.isInCheckpointZone (ctx.blockHeight+1) = false) :
    ∀ k ∈ tx.body.keyImages, chain.keyImageSpent k ctx.blockHeight = false := by
  unfold validateTransactionEarlyExit ChainReads.validateTransactionEarlyExit at h
  obtain ⟨_,_,h⟩ := bind_ok_iff.1 h
  rw [if_neg (by simp [hzone])] at h
  obtain ⟨_,hrings,_⟩ := bind_ok_iff.1 h
  exact checkRings_unspent hrings

namespace TransactionPool

variable {cx : Crypto} {pool : TransactionPool cx} {h k : Hash} {cfg : PoolConfig}

def spends (pool : TransactionPool cx) (k : Hash) : Bool := (pool.keyImages.lookup k).isSome

variable {rows : List (Row cx)} {chain : PoolChain}

theorem Describes.spends_iff (hd : Describes pool rows) :
    pool.spends k = true ↔ ∃ r ∈ rows, k ∈ r.2.images := by
  rw [spends, Option.isSome_iff_exists]
  simp only [hd.keyImages]
  constructor
  · rintro ⟨h,r,hr,hk,_⟩
    exact ⟨r,hr,hk⟩
  · rintro ⟨r,hr,hk⟩
    exact ⟨_,r,hr,hk,rfl⟩

theorem spends_remove (hk : (pool.remove h).spends k = true) : pool.spends k = true := by
  unfold TransactionPool.remove at hk
  cases hseq : pool.byHash.lookup h with
  | none =>
    rw [hseq] at hk
    exact hk
  | some seq =>
    rw [hseq] at hk
    dsimp only at hk
    cases hentry : pool.entries.lookup seq with
    | none =>
      rw [hentry] at hk
      exact hk
    | some e =>
      rw [hentry] at hk
      simp only [spends, lookup_releaseImages] at hk ⊢
      split at hk
      · cases hk
      · exact hk

theorem spends_insert {e : PoolEntry cx} {images : List Hash}
    (hk : (pool.insert e images).spends k = true) : k ∈ images ∨ pool.spends k = true := by
  simp only [spends, TransactionPool.insert, lookup_foldl_insert] at hk ⊢
  split at hk
  · next hmem => exact .inl hmem
  · exact .inr hk

theorem entering_spends (chain : PoolChain)
    (hzone : chain.checkpointTable.isInCheckpointZone (chain.topIndex+1) = false) (k : Hash) :
    Entering chain (fun pool : TransactionPool cx => pool.spends k = true)
      (chain.keyImageSpent k chain.topIndex = false) where
  remove h := spends_remove h
  congr _ himages h := by
    rw [spends] at h ⊢
    rwa [← himages]
  insert _ hvalid h := by
    rcases spends_insert h with hmem | hheld
    · right
      rw [(validateTransactionEarlyExit_images hvalid).1, List.mem_reverse] at hmem
      exact validateTransactionEarlyExit_unspent hvalid hzone k hmem
    · exact .inl hheld

theorem Describes.spends_removeAll (hd : Describes pool rows)
    {hashes : List Hash} (hk : (pool.removeAll hashes).spends k = true) :
    ∃ r ∈ rows, k ∈ r.2.images ∧ r.2.hash ∉ hashes := by
  induction hashes generalizing pool rows with
  | nil =>
    obtain ⟨r,hr,hkr⟩ := hd.spends_iff.1 hk
    exact ⟨r,hr,hkr,List.not_mem_nil⟩
  | cons hash hashes ih =>
    obtain ⟨r,hr,hkr,hkept⟩ := ih (hd.remove hash) hk
    obtain ⟨hmem,hne⟩ := List.mem_filter.1 hr
    refine ⟨r,hmem,hkr,?_⟩
    rw [List.mem_cons, not_or]
    exact ⟨by simpa using hne,hkept⟩

theorem Describes.onBlockAdded_spends (hd : Describes pool rows) {hashes spent : List Hash}
    (hk : (pool.onBlockAdded chain hashes spent).2.spends k = true) :
    pool.spends k = true ∧ k ∉ spent := by
  obtain ⟨r,hr,hkr,hkept⟩ := hd.spends_removeAll hk
  refine ⟨hd.spends_iff.2 ⟨r,hr,hkr⟩,fun hspent => hkept ?_⟩
  refine List.mem_filter.2 ⟨hd.mem_hashes.2 (hd.contains_iff.2 ⟨r,hr,rfl⟩),?_⟩
  rw [hd.get_iff.2 ⟨r,hr,rfl,rfl⟩, Option.any_some, displacedBy, decide_eq_true_eq]
  exact .inr (.inr (.inr (.inr ⟨k,hkr,hspent⟩)))

theorem Describes.removeSpentInChain_spends (hd : Describes pool rows)
    (hk : (pool.removeSpentInChain chain).2.spends k = true) :
    pool.spends k = true ∧ chain.keyImageSpent k chain.topIndex = false := by
  have hd' : Describes { pool with rejected := pool.rejected.forgetRingDependent } rows :=
    hd.congr rfl rfl rfl rfl rfl rfl rfl rfl
  obtain ⟨r,hr,hkr,hkept⟩ := hd'.spends_removeAll hk
  refine ⟨hd.spends_iff.2 ⟨r,hr,hkr⟩,?_⟩
  by_contra hspent
  refine hkept (List.mem_map.2 ⟨r.2,List.mem_filter.2 ⟨?_,?_⟩,rfl⟩)
  · rw [hd'.byPriority_eq]
    exact List.mem_mergeSort.2 (List.mem_map_of_mem hr)
  · exact List.any_eq_true.2 ⟨k,hkr,Bool.eq_true_of_not_eq_false hspent⟩

variable (hc : pool.Consistent cfg) (hpercent : cfg.evictToPercent ≤ 100)
include hc hpercent

theorem Consistent.sweep (chain : PoolChain) (block : BlockTemplate) (raw : RawBlock)
    (report : AddReport) : (pool.sweep chain block raw report).2.Consistent cfg := by
  unfold TransactionPool.sweep
  by_cases hswitch : report.outcome.status = .alternativeAndSwitched
  · simp only [if_pos hswitch]
    exact (((hc.rejected _).removeAll _).copyTransactionsToPool hpercent chain _).removeAll _
  · simp only [if_neg hswitch]
    exact hc.removeAll _

/-- What a mined block leaves: after a switch no image the new chain has spent, and
otherwise no image of the block. -/
theorem Consistent.sweep_spends (chain : PoolChain)
    (hzone : chain.checkpointTable.isInCheckpointZone (chain.topIndex+1) = false)
    {block : BlockTemplate} {raw : RawBlock} {report : AddReport}
    (hk : (pool.sweep chain block raw report).2.spends k = true) :
    (report.outcome.status = .alternativeAndSwitched ∧
        chain.keyImageSpent k chain.topIndex = false) ∨
      (report.outcome.status ≠ .alternativeAndSwitched ∧ pool.spends k = true ∧
        k ∉ spentKeyImages raw.transactions) := by
  obtain ⟨rows,hd⟩ := hc.described
  unfold TransactionPool.sweep at hk
  by_cases hswitch : report.outcome.status = .alternativeAndSwitched
  · simp only [if_pos hswitch] at hk
    obtain ⟨rows',hd'⟩ := (((hc.rejected _).removeAll _).copyTransactionsToPool hpercent chain
      _).described
    refine .inl ⟨hswitch,?_⟩
    rcases (entering_spends chain hzone k).copyTransactionsToPool (hd'.onBlockAdded_spends hk).1
      with hheld | hfresh
    · exact (hd.removeSpentInChain_spends hheld).2
    · exact hfresh
  · simp only [if_neg hswitch] at hk
    exact .inr ⟨hswitch,hd.onBlockAdded_spends hk⟩

end TransactionPool

end Wrkz
