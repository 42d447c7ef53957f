import Wrkz.Mempool.Consistent
import Wrkz.Chain.Indexed

/-!
The pool and the blocks: `add_block_with_pool`, and what is left in the pool when the
main chain has moved. A transaction the chain holds is swept out by the block and cannot
come back while the chain holds it.
-/

set_option autoImplicit false

namespace Wrkz

open Library TransactionPool

def blobHash (cx : Crypto) (blob : Bytes) : Option Hash :=
  (ParsedTx.ofBytes cx blob).map (·.hash)

def minedHashes (cx : Crypto) (blobs : List Bytes) : List Hash := blobs.filterMap (blobHash cx)

def spentKeyImages (blobs : List Bytes) : List Hash :=
  blobs.flatMap fun b => match Transaction.fromBytes b with
    | .ok tx => tx.body.keyImages
    | .error _ => []

structure ChainUpdate where
  outcome : AddOutcome
  removed : List Hash
  restored : List Hash
  lowestUnwound : Option Nat
  deriving DecidableEq, Repr

namespace TransactionPool

variable {cx : Crypto}

/-- The pool half of `add_block_with_pool` for a block that moved the main chain: what
was removed, what came back, and the pool. -/
def sweep (pool : TransactionPool cx) (chain : PoolChain) (block : BlockTemplate) (raw : RawBlock)
    (report : AddReport) : (List Hash × List Hash) × TransactionPool cx :=
  let ((spent,restored),pool) :=
    if report.outcome.status = .alternativeAndSwitched then
      let (spent,pool) := pool.removeSpentInChain chain
      let (restored,pool) :=
        pool.copyTransactionsToPool chain (report.unwound.flatMap UnwoundBlock.transactions)
      ((spent,restored),pool)
    else (([],[]),pool)
  let (swept,pool) :=
    pool.onBlockAdded chain block.transactionHashes (spentKeyImages raw.transactions)
  ((spent ++ swept,restored),pool)

end TransactionPool

def addBlockWithPool (cx : Crypto) (raw : RawBlock) (pool : TransactionPool cx)
    (chain : ChainState) : Except ChainError ChainUpdate × TransactionPool cx × ChainState :=
  match BlockTemplate.fromBytes raw.block with
  | .error _ => (.error (.rule (.deserializationFailed "block blob")),pool,chain)
  | .ok block =>
    match ChainState.addBlockDetailed cx raw chain with
    | .error e chain => (.error e,pool,chain)
    | .ok report chain =>
      let lowest := report.unwound.getLast?.map UnwoundBlock.index
      if report.outcome.status = .alternative then (.ok ⟨report.outcome,[],[],lowest⟩,pool,chain)
      else
        let ((removed,restored),pool) := pool.sweep chain.poolChain block raw report
        (.ok ⟨report.outcome,removed,restored,lowest⟩,pool,chain)

namespace TransactionPool

variable {cx : Crypto} {pool : TransactionPool cx} {h x : Hash}

theorem contains_remove (hx : (pool.remove h).contains x = true) :
    pool.contains x = true ∧ x ≠ h := by
  have herase : ((pool.byHash.erase h).lookup x).isSome = true → pool.contains x = true ∧ x ≠ h := by
    intro hsome
    by_cases heq : x = h
    · subst heq
      simp at hsome
    · rw [AList.lookup_erase_ne heq] at hsome
      exact ⟨hsome,heq⟩
  unfold remove at hx
  cases hseq : pool.byHash.lookup h with
  | none =>
    rw [hseq] at hx
    refine ⟨hx,?_⟩
    rintro rfl
    rw [contains, hseq] at hx
    cases hx
  | some seq =>
    rw [hseq] at hx
    dsimp only at hx
    cases hentry : pool.entries.lookup seq with
    | none =>
      rw [hentry] at hx
      exact herase hx
    | some e =>
      rw [hentry] at hx
      exact herase hx

theorem contains_removeAll {hashes : List Hash} (hx : (pool.removeAll hashes).contains x = true) :
    pool.contains x = true ∧ x ∉ hashes := by
  induction hashes generalizing pool with
  | nil => exact ⟨hx,List.not_mem_nil⟩
  | cons h hashes ih =>
    obtain ⟨hremoved,hrest⟩ := ih hx
    obtain ⟨hheld,hne⟩ := contains_remove hremoved
    exact ⟨hheld,fun hmem => (List.mem_cons.1 hmem).elim hne hrest⟩

theorem contains_insert {e : PoolEntry cx} {images : List Hash}
    (hx : (pool.insert e images).contains x = true) : x = e.hash ∨ pool.contains x = true := by
  by_cases heq : x = e.hash
  · exact .inl heq
  · refine .inr ?_
    rw [contains, insert] at hx
    rwa [AList.lookup_insert_ne heq] at hx

/-- A feature of the pool that only a transaction the chain lets in can bring, and then
only if `fresh`. -/
structure Entering (chain : PoolChain) (φ : TransactionPool cx → Prop) (fresh : Prop) : Prop where
  remove : ∀ {pool : TransactionPool cx} {h : Hash}, φ (pool.remove h) → φ pool
  congr : ∀ {pool t : TransactionPool cx}, t.byHash = pool.byHash → t.keyImages = pool.keyImages →
    φ t → φ pool
  insert : ∀ {pool : TransactionPool cx} {p : ParsedTx cx} {source : PoolSource}
    {v : TxValidation} {state : ValidatorState}, chain.transactionInChain p.hash = false →
    validateTransactionEarlyExit cx p.transaction p.blob .new chain.toChainAccess
      (txContext chain) = .ok (v,state) →
    φ (pool.insert (PoolEntry.validated p source pool.clock v) state.spentKeyImages) →
    φ pool ∨ fresh

namespace Entering

variable {chain : PoolChain} {φ : TransactionPool cx → Prop} {fresh : Prop}

theorem evictLoop (hφ : Entering chain φ fresh) {target fuel : Nat}
    (h : φ (evictLoop target fuel pool)) : φ pool := by
  induction fuel generalizing pool with
  | zero => exact h
  | succ fuel ih =>
    unfold evictLoop at h
    split at h
    · split at h
      · exact h
      · exact hφ.remove (hφ.congr (by rfl) (by rfl) (ih h))
    · exact h

theorem evictToFit (hφ : Entering chain φ fresh) (h : φ pool.evictToFit) : φ pool := by
  unfold TransactionPool.evictToFit at h
  split at h
  · exact h
  · exact hφ.evictLoop h

variable {source : PoolSource} {blobs : List Bytes} {p : ParsedTx cx} {height : Nat} {hash : Hash}

variable (hφ : Entering chain φ fresh)
include hφ

theorem rememberRejection {n : Nat} {rule : TxRule}
    {context : ContextKey} (h : φ (pool.rememberRejection hash n rule context)) : φ pool := by
  refine hφ.congr ?_ ?_ h
  all_goals
    unfold TransactionPool.rememberRejection
    cases RejectionCategory.ofRule rule <;> rfl

theorem admission (h : φ (pool.admission p chain source).2) : φ pool ∨ fresh := by
  by_cases hchain : chain.transactionInChain p.hash = true
  · left
    unfold TransactionPool.admission at h
    rwa [if_pos hchain] at h
  rcases admission_cases pool p chain source with ⟨_,hsame⟩ | ⟨rule,_,hrefused⟩ | ⟨v,state,hvalid,_,hin⟩
  · rw [hsame] at h
    exact .inl h
  · rw [hrefused] at h
    exact .inl (hφ.rememberRejection h)
  · rw [hin] at h
    exact hφ.insert (Bool.eq_false_iff.2 hchain) hvalid (hφ.evictToFit h)

theorem addParsed (h : φ (pool.addParsed p chain source).2) : φ pool ∨ fresh := by
  unfold TransactionPool.addParsed at h
  split at h
  · exact .inl h
  · dsimp only at h
    split at h
    · exact .inl (hφ.congr (by rfl) (by rfl) h)
    · exact (hφ.admission h).imp_left fun h => hφ.congr (by rfl) (by rfl) h

theorem add {blob : Bytes} (h : φ (pool.add blob chain source).2) : φ pool ∨ fresh := by
  unfold TransactionPool.add at h
  split at h
  · exact .inl h
  · exact hφ.addParsed h

theorem restore {restored : List Hash}
    (h : φ (blobs.foldl (restoreOne chain) (pool,restored)).1) : φ pool ∨ fresh := by
  induction blobs generalizing pool restored with
  | nil => exact .inl h
  | cons blob blobs ih =>
    refine (ih h).elim (fun hone => ?_) .inr
    split at hone
    · exact .inl hone
    · exact (hφ.addParsed hone).imp_left fun h => hφ.congr (by rfl) (by rfl) h

theorem copyTransactionsToPool (h : φ (pool.copyTransactionsToPool chain blobs).2) : φ pool ∨ fresh :=
  (hφ.restore h).imp_left fun h => hφ.congr (by rfl) (by rfl) h

theorem cleanOne
    {state : TransactionPool cx × List Hash} (h : φ (cleanOne height state hash).1) : φ state.1 := by
  unfold TransactionPool.cleanOne at h
  split at h
  · exact h
  · split at h
    · exact hφ.congr (by rfl) (by rfl) (hφ.remove h)
    · exact h

theorem clean (h : φ (pool.clean height).2) : φ pool := by
  have hloop : ∀ (hashes : List Hash) (state : TransactionPool cx × List Hash),
      φ (hashes.foldl (TransactionPool.cleanOne height) state).1 → φ state.1 := by
    intro hashes
    induction hashes with
    | nil => exact fun _ h => h
    | cons hash hashes ih => exact fun state h => hφ.cleanOne (ih _ h)
  exact hloop pool.hashes (pool,[]) (hφ.congr (by rfl) (by rfl) h)

end Entering

theorem entering_contains (chain : PoolChain) (x : Hash) :
    Entering chain (fun pool : TransactionPool cx => pool.contains x = true)
      (chain.transactionInChain x = false) where
  remove h := (contains_remove h).1
  congr hhash _ h := by
    rw [contains] at h ⊢
    rwa [← hhash]
  insert hchain _ h := by
    rcases contains_insert h with rfl | hheld
    · exact .inr hchain
    · exact .inl hheld

variable {chain : PoolChain} {rows : List (Row cx)}

theorem Describes.mem_hashes (hd : Describes pool rows) :
    h ∈ pool.hashes ↔ pool.contains h = true := by
  rw [hd.contains_iff, hashes, hd.byPriority_eq, List.mem_map]
  constructor
  · rintro ⟨e,he,hh⟩
    obtain ⟨r,hr,rfl⟩ := List.mem_map.1 (List.mem_mergeSort.1 he)
    exact ⟨r,hr,hh⟩
  · rintro ⟨r,hr,hh⟩
    exact ⟨r.2,List.mem_mergeSort.2 (List.mem_map_of_mem hr),hh⟩

def ClearOf (pool : TransactionPool cx) (chain : PoolChain) : Prop :=
  ∀ h, pool.contains h = true → chain.transactionInChain h = false

theorem Describes.onBlockAdded_clear (hd : Describes pool rows) (chain : PoolChain)
    (hashes spent : List Hash) : (pool.onBlockAdded chain hashes spent).2.ClearOf chain := by
  intro h hh
  obtain ⟨hheld,hkept⟩ := contains_removeAll hh
  by_contra hchain
  refine hkept (List.mem_filter.2 ⟨hd.mem_hashes.2 hheld,?_⟩)
  obtain ⟨r,hr,hhash⟩ := hd.contains_iff.1 hheld
  rw [hd.get_iff.2 ⟨r,hr,rfl,hhash⟩, Option.any_some]
  subst hhash
  simp [displacedBy, Bool.eq_true_of_not_eq_false hchain]

theorem ClearOf.copyTransactionsToPool (h : pool.ClearOf chain)
    (blobs : List Bytes) : (pool.copyTransactionsToPool chain blobs).2.ClearOf chain :=
  fun x hx => ((entering_contains chain x).copyTransactionsToPool hx).elim (h x) id

theorem ClearOf.removeSpentInChain (h : pool.ClearOf chain) :
    (pool.removeSpentInChain chain).2.ClearOf chain :=
  fun x hx => h x (contains_removeAll hx).1

theorem ClearOf.clean (h : pool.ClearOf chain) (height : Nat) :
    (pool.clean height).2.ClearOf chain :=
  fun x hx => h x ((entering_contains chain x).clean hx)

theorem Consistent.sweep_clear {cfg : PoolConfig} (hc : pool.Consistent cfg)
    (hpercent : cfg.evictToPercent ≤ 100) (chain : PoolChain) (block : BlockTemplate)
    (raw : RawBlock) (report : AddReport) :
    (pool.sweep chain block raw report).2.ClearOf chain := by
  unfold sweep
  by_cases hswitch : report.outcome.status = .alternativeAndSwitched
  · simp only [if_pos hswitch]
    have hspent : (pool.removeSpentInChain chain).2.Consistent cfg := (hc.rejected _).removeAll _
    obtain ⟨rows,hd⟩ := (hspent.copyTransactionsToPool hpercent chain
      (report.unwound.flatMap UnwoundBlock.transactions)).described
    exact hd.onBlockAdded_clear chain _ _
  · simp only [if_neg hswitch]
    obtain ⟨rows,hd⟩ := hc.described
    exact hd.onBlockAdded_clear chain _ _

end TransactionPool

def PoolOp.chain? : PoolOp → Option PoolChain
  | .add _ chain _ | .onBlockAdded chain _ _ | .removeSpentInChain chain
  | .copyTransactionsToPool chain _ => some chain
  | .remove _ | .flush | .clean _ | .forgetDeleted _ | .forgetRejection _ | .takeEvicted
  | .setClock _ => none

variable {cx : Crypto} {pool : TransactionPool cx} {x : Hash}

theorem PoolOp.contains_run {op : PoolOp} (hx : (op.run pool).contains x = true) :
    pool.contains x = true ∨ ∃ chain, op.chain? = some chain ∧ chain.transactionInChain x = false := by
  cases op with
  | add blob chain source =>
    exact ((entering_contains chain x).add hx).imp_right fun h => ⟨chain,rfl,h⟩
  | remove hash => exact .inl (contains_remove hx).1
  | flush => exact .inl (contains_removeAll hx).1
  | clean height =>
    exact .inl ((entering_contains samplePoolChain x).clean hx)
  | onBlockAdded chain hashes spent => exact .inl (contains_removeAll hx).1
  | removeSpentInChain chain => exact .inl (contains_removeAll hx).1
  | copyTransactionsToPool chain blobs =>
    exact ((entering_contains chain x).copyTransactionsToPool hx).imp_right
      fun h => ⟨chain,rfl,h⟩
  | forgetDeleted hash | forgetRejection hash | takeEvicted | setClock now => exact .inl hx

theorem contains_runPool {ops : List PoolOp}
    (hops : ∀ op ∈ ops, ∀ chain, op.chain? = some chain → chain.transactionInChain x = true)
    (hx : (runPool ops pool).contains x = true) : pool.contains x = true := by
  induction ops generalizing pool with
  | nil => exact hx
  | cons op ops ih =>
    rcases PoolOp.contains_run (ih (fun o ho => hops o (List.mem_cons_of_mem _ ho)) hx) with
      hheld | ⟨chain,hchain,hout⟩
    · exact hheld
    · rw [hops op List.mem_cons_self chain hchain] at hout
      cases hout

end Wrkz
