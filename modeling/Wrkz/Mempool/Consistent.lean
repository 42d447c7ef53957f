import Wrkz.Chain.Sample
import Wrkz.Library.StableSort
import Wrkz.Mempool.Pool

/-!
The pool's indexes describe one list of transactions, held in the order in which they
came. Entering a transaction appends to the list and removing one takes it out; every
operation of the pool is made of these two and of changes that no index sees.
-/

set_option autoImplicit false

namespace Wrkz

open Library TransactionPool List

namespace TransactionPool

variable {cx : Crypto}

abbrev Row (cx : Crypto) := Sigma fun _ : Nat => PoolEntry cx

def Row.key (r : Row cx) : PriorityKey := keyOf r.1 r.2

/-- The list under an index key, which is dropped when it is empty. -/
def unlessEmpty (l : List Hash) : Option (List Hash) := if l = [] then none else some l

/-- The indexes of the pool describe `rows`. -/
structure Describes (pool : TransactionPool cx) (rows : List (Row cx)) : Prop where
  entries : pool.entries.entries = rows.reverse
  increasing : rows.Pairwise fun a b => a.1 < b.1
  numbered : ∀ r ∈ rows, r.1 < pool.nextSeq
  distinct : rows.Pairwise fun a b => a.2.hash ≠ b.2.hash
  byHash : ∀ h seq, pool.byHash.lookup h = some seq ↔ ∃ r ∈ rows, r.1 = seq ∧ r.2.hash = h
  priority : pool.priority.Perm (rows.map Row.key)
  sorted : pool.priority.Pairwise PriorityKey.le
  byPaymentId : ∀ pid, pool.byPaymentId.lookup pid =
    unlessEmpty ((rows.filter fun r => r.2.paymentId = some pid).map fun r => r.2.hash)
  keyImages : ∀ k h, pool.keyImages.lookup k = some h ↔ ∃ r ∈ rows, k ∈ r.2.images ∧ r.2.hash = h
  separate : (rows.flatMap fun r => r.2.images).Nodup
  feeLess : pool.feeLess = rows.countP fun r => r.2.fee = 0
  sizeBytes : pool.sizeBytes = (rows.map fun r => r.2.size).sum

theorem describes_new (cfg : PoolConfig) : Describes (new cx cfg) [] where
  entries := rfl
  increasing := .nil
  numbered := by simp
  distinct := .nil
  byHash := by simp [new]
  priority := .nil
  sorted := .nil
  byPaymentId := by simp [new, unlessEmpty]
  keyImages := by simp [new]
  separate := nodup_nil
  feeLess := rfl
  sizeBytes := rfl

section

variable {pool t : TransactionPool cx} {rows : List (Row cx)} {h : Hash} {e : PoolEntry cx}

section

variable (hd : Describes pool rows)
include hd

theorem Describes.congr (hentries : t.entries = pool.entries)
    (hpriority : t.priority = pool.priority) (hhash : t.byHash = pool.byHash)
    (hpid : t.byPaymentId = pool.byPaymentId) (himages : t.keyImages = pool.keyImages)
    (hsize : t.sizeBytes = pool.sizeBytes) (hfee : t.feeLess = pool.feeLess)
    (hseq : t.nextSeq = pool.nextSeq) : Describes t rows where
  entries := by rw [hentries]; exact hd.entries
  increasing := hd.increasing
  numbered := by rw [hseq]; exact hd.numbered
  distinct := hd.distinct
  byHash := by rw [hhash]; exact hd.byHash
  priority := by rw [hpriority]; exact hd.priority
  sorted := by rw [hpriority]; exact hd.sorted
  byPaymentId := by rw [hpid]; exact hd.byPaymentId
  keyImages := by rw [himages]; exact hd.keyImages
  separate := hd.separate
  feeLess := by rw [hfee]; exact hd.feeLess
  sizeBytes := by rw [hsize]; exact hd.sizeBytes

theorem Describes.lookup_iff {seq : Nat} : pool.entries.lookup seq = some e ↔ ⟨seq,e⟩ ∈ rows := by
  have hmem : e ∈ pool.entries.lookup seq ↔ _ := AList.mem_lookup_iff
  rw [hd.entries, mem_reverse] at hmem
  exact hmem

theorem Describes.contains_iff : pool.contains h = true ↔ ∃ r ∈ rows, r.2.hash = h := by
  rw [contains, Option.isSome_iff_exists]
  simp only [hd.byHash]
  constructor
  · rintro ⟨seq,r,hr,_,hh⟩
    exact ⟨r,hr,hh⟩
  · rintro ⟨r,hr,hh⟩
    exact ⟨r.1,r,hr,rfl,hh⟩

theorem Describes.get_iff : pool.get h = some e ↔ ∃ r ∈ rows, r.2 = e ∧ e.hash = h := by
  rw [get, Option.bind_eq_some_iff]
  simp only [hd.byHash]
  constructor
  · rintro ⟨seq,⟨r,hr,rfl,hh⟩,hlookup⟩
    have hsame : r.2 = e := Option.some.inj ((hd.lookup_iff.2 hr).symm.trans hlookup)
    exact ⟨r,hr,hsame,hsame ▸ hh⟩
  · rintro ⟨r,hr,rfl,hh⟩
    exact ⟨r.1,⟨r,hr,rfl,hh⟩,hd.lookup_iff.2 hr⟩

end

theorem lookup_foldl_insert (images : List Hash) (map : AList (fun _ : Hash => Hash)) (k : Hash) :
    (images.foldl (fun map image => map.insert image h) map).lookup k =
      if k ∈ images then some h else map.lookup k := by
  induction images generalizing map with
  | nil => simp
  | cons image images ih =>
    rw [foldl_cons, ih]
    by_cases hk : k ∈ images
    · simp [hk]
    · by_cases heq : k = image
      · subst heq
        simp [hk]
      · simp [hk, heq, AList.lookup_insert_ne]

theorem exists_mem_concat_iff {α : Type} {P : α → Prop} {r : α} {l : List α}
    (hl : ∀ x ∈ l, ¬ P x) : (∃ x ∈ l ++ [r], P x) ↔ P r := by
  simp only [mem_append, mem_singleton]
  grind

theorem Describes.insert (hd : Describes pool rows) (hnew : pool.contains e.hash = false)
    (hfree : ∀ k ∈ e.images, pool.keyImages.lookup k = none) (hnodup : e.images.Nodup)
    {images : List Hash} (himages : ∀ k, k ∈ images ↔ k ∈ e.images) :
    Describes (pool.insert e images) (rows ++ [⟨pool.nextSeq,e⟩]) := by
  have hfresh : pool.nextSeq ∉ pool.entries := by
    rw [← AList.lookup_eq_none, Option.eq_none_iff_forall_ne_some]
    intro e' he'
    exact Nat.lt_irrefl _ (hd.numbered _ (hd.lookup_iff.1 he'))
  have hother : ∀ r ∈ rows, r.2.hash ≠ e.hash := by
    intro r hr heq
    have := hd.contains_iff.2 ⟨r,hr,heq⟩
    rw [hnew] at this
    cases this
  have hapart : ∀ r ∈ rows, ∀ k ∈ r.2.images, k ∉ e.images := by
    intro r hr k hk hk'
    have := (hd.keyImages k r.2.hash).2 ⟨r,hr,hk,rfl⟩
    rw [hfree k hk'] at this
    cases this
  refine ⟨?_,?_,?_,?_,?_,?_,?_,?_,?_,?_,?_,?_⟩
  · change (pool.entries.insert pool.nextSeq e).entries = _
    rw [AList.entries_insert_of_notMem hfresh, hd.entries]
    simp
  · rw [pairwise_append]
    exact ⟨hd.increasing,by simp,by simpa using hd.numbered⟩
  · intro r hr
    change r.1 < pool.nextSeq + 1
    rcases mem_append.1 hr with hr | hr
    · exact Nat.lt_succ_of_lt (hd.numbered r hr)
    · cases mem_singleton.1 hr
      exact Nat.lt_succ_self _
  · rw [pairwise_append]
    exact ⟨hd.distinct,by simp,by simpa using hother⟩
  · intro h seq
    change (pool.byHash.insert e.hash pool.nextSeq).lookup h = some seq ↔ _
    by_cases heq : h = e.hash
    · subst heq
      rw [AList.lookup_insert, exists_mem_concat_iff fun r hr hh => hother r hr hh.2]
      simp
    · rw [AList.lookup_insert_ne heq, hd.byHash]
      simp [Ne.symm heq]
  · refine (perm_orderedInsert PriorityKey.le _ _).trans ?_
    rw [map_append]
    exact (List.Perm.cons _ hd.priority).trans (perm_append_singleton _ _).symm
  · exact List.Pairwise.orderedInsert _ _ hd.sorted
  · intro pid
    rw [filter_append, map_append, TransactionPool.insert]
    cases hpid : e.paymentId with
    | none => simp [hpid, hd.byPaymentId]
    | some pid' =>
      by_cases heq : pid = pid'
      · subst heq
        simp only [AList.lookup_insert, hd.byPaymentId, unlessEmpty]
        split <;> simp_all
      · simp [AList.lookup_insert_ne heq, hpid, Ne.symm heq, hd.byPaymentId]
  · intro k h
    change (images.foldl (fun map image => map.insert image e.hash) pool.keyImages).lookup k =
      some h ↔ _
    rw [lookup_foldl_insert]
    by_cases hk : k ∈ e.images
    · rw [if_pos ((himages k).2 hk),
        exists_mem_concat_iff fun r hr hh => hapart r hr k hh.1 hk]
      simp [hk]
    · rw [if_neg fun h => hk ((himages k).1 h), hd.keyImages]
      simp [hk]
  · rw [flatMap_append, nodup_append']
    refine ⟨hd.separate,by simpa using hnodup,?_⟩
    intro k hk hk'
    obtain ⟨r,hr,hkr⟩ := mem_flatMap.1 hk
    exact hapart r hr k hkr (by simpa using hk')
  · change (if e.fee = 0 then pool.feeLess+1 else pool.feeLess) = _
    rw [countP_append, ← hd.feeLess]
    by_cases hfee : e.fee = 0 <;> simp [hfee]
  · change pool.sizeBytes + e.size = _
    rw [hd.sizeBytes]
    simp

theorem lookup_releaseImages (images : List Hash) (map : AList (fun _ : Hash => Hash))
    (k : Hash) : (images.foldl (releaseImage h) map).lookup k =
      if k ∈ images ∧ map.lookup k = some h then none else map.lookup k := by
  induction images generalizing map with
  | nil => simp
  | cons image images ih =>
    rw [foldl_cons, ih]
    have hstep : (releaseImage h map image).lookup k =
        if k = image ∧ map.lookup k = some h then none else map.lookup k := by
      unfold releaseImage
      by_cases heq : k = image
      · subst heq
        by_cases hown : map.lookup k = some h <;> simp [hown]
      · by_cases hown : map.lookup image = some h
        · simp [heq, hown, AList.lookup_erase_ne heq]
        · simp [heq, hown]
    rw [hstep]
    by_cases hown : map.lookup k = some h
    · by_cases heq : k = image <;> simp [heq, hown]
    · simp [hown]

theorem lookup_releasePaymentId {hash pid : Hash} {map : AList (fun _ : Hash => List Hash)}
    {list : List Hash} (hlist : map.lookup pid = some list) (pid' : Hash) :
    (releasePaymentId hash pid map).lookup pid' =
      if pid' = pid then unlessEmpty (list.filter (· ≠ hash)) else map.lookup pid' := by
  unfold releasePaymentId unlessEmpty
  rw [hlist]
  by_cases heq : pid' = pid
  · subst heq
    by_cases hnil : list.filter (· ≠ hash) = []
    · simp only [hnil, if_true, AList.lookup_erase]
    · simp only [hnil, if_false, if_true, AList.lookup_insert]
  · by_cases hnil : list.filter (· ≠ hash) = []
    · simp only [hnil, if_true, heq, if_false, AList.lookup_erase_ne heq]
    · simp only [hnil, if_false, heq, AList.lookup_insert_ne heq]

variable {r : Row cx} {l : List (Row cx)}

theorem Describes.split (hd : Describes pool rows) (hr : r ∈ rows) :
    ∃ a b, rows = a ++ r :: b ∧ rows.filter (fun x => x.2.hash ≠ r.2.hash) = a ++ b ∧
      (∀ x ∈ a ++ b, x.2.hash ≠ r.2.hash) ∧ ∀ x ∈ a ++ b, x.1 ≠ r.1 := by
  obtain ⟨a,b,rfl⟩ := append_of_mem hr
  have hhash := pairwise_middle (fun h => h.symm) |>.1 hd.distinct
  have hnum : (a ++ r :: b).Pairwise fun x y => x.1 ≠ y.1 := hd.increasing.imp Nat.ne_of_lt
  have hnum' := pairwise_middle (fun h => h.symm) |>.1 hnum
  have hother : ∀ x ∈ a ++ b, x.2.hash ≠ r.2.hash := fun x hx heq =>
    (pairwise_cons.1 hhash).1 x hx heq.symm
  refine ⟨a,b,rfl,?_,hother,fun x hx heq => (pairwise_cons.1 hnum').1 x hx heq.symm⟩
  have ha : a.filter (fun x => x.2.hash ≠ r.2.hash) = a :=
    filter_eq_self.2 fun x hx => by simpa using hother x (mem_append_left _ hx)
  have hb : b.filter (fun x => x.2.hash ≠ r.2.hash) = b :=
    filter_eq_self.2 fun x hx => by simpa using hother x (mem_append_right _ hx)
  rw [filter_append, filter_cons_of_neg (by simp), ha, hb]

theorem Row.key_cmp_eq_iff {a b : Row cx} (h : a.1 = b.1 → a = b) :
    a.key.cmp b.key = .eq ↔ a = b := by
  rw [PriorityKey.cmp_eq_eq_iff]
  constructor
  · intro hrank
    exact h (PriorityKey.seq_eq_of_rank_eq hrank)
  · rintro rfl
    rfl

theorem filter_keys_of_ne (hl : ∀ x ∈ l, x.1 ≠ r.1) :
    (l.map Row.key).filter (fun key => key.cmp r.key ≠ .eq) = l.map Row.key := by
  refine filter_eq_self.2 fun key hkey => ?_
  obtain ⟨x,hx,rfl⟩ := mem_map.1 hkey
  have hne : x.key.cmp r.key ≠ .eq := fun heq =>
    hl x hx (congrArg Sigma.fst ((Row.key_cmp_eq_iff fun h => absurd h (hl x hx)).1 heq))
  simpa using hne

theorem filter_hashes_of_ne (hl : ∀ x ∈ l, x.2.hash ≠ h) :
    (l.map fun x => x.2.hash).filter (· ≠ h) = l.map fun x => x.2.hash := by
  refine filter_eq_self.2 fun hash hhash => ?_
  obtain ⟨x,hx,rfl⟩ := mem_map.1 hhash
  simpa using hl x hx

theorem exists_mem_append_cons_iff {α : Type} {P : α → Prop} {r : α} {a b : List α} (hr : ¬ P r) :
    (∃ x ∈ a ++ r :: b, P x) ↔ ∃ x ∈ a ++ b, P x := by
  simp [or_and_right, exists_or, hr]

theorem Describes.remove_row (hd : Describes pool rows) (hr : r ∈ rows) :
    Describes (pool.remove r.2.hash) (rows.filter fun x => x.2.hash ≠ r.2.hash) := by
  have hseq : pool.byHash.lookup r.2.hash = some r.1 := (hd.byHash _ _).2 ⟨r,hr,rfl,rfl⟩
  have hentry : pool.entries.lookup r.1 = some r.2 := hd.lookup_iff.2 hr
  obtain ⟨a,b,hrows,hfilter,hother,hnum⟩ := hd.split hr
  rw [hfilter]
  have hsub : (a ++ b).Sublist rows := by
    rw [hrows]
    exact (sublist_cons_self r b).append_left a
  have hremove : pool.remove r.2.hash = { pool with
      byHash := pool.byHash.erase r.2.hash
      entries := pool.entries.erase r.1
      priority := pool.priority.filter fun key => key.cmp r.key ≠ .eq
      feeLess := if r.2.fee = 0 then pool.feeLess-1 else pool.feeLess
      keyImages := r.2.images.foldl (releaseImage r.2.hash) pool.keyImages
      byPaymentId := r.2.paymentId.elim pool.byPaymentId fun pid =>
        releasePaymentId r.2.hash pid pool.byPaymentId
      sizeBytes := pool.sizeBytes - r.2.size } := by
    simp only [remove, hseq, hentry]
    cases r.2.paymentId <;> rfl
  rw [hremove]
  refine ⟨?_,hd.increasing.sublist hsub,fun x hx => hd.numbered x (hsub.subset hx),
    hd.distinct.sublist hsub,?_,?_,hd.sorted.filter _,?_,?_,?_,?_,?_⟩
  · change (pool.entries.entries).kerase r.1 = _
    rw [hd.entries, hrows, reverse_append, reverse_cons, append_assoc,
      reverse_append, kerase_append_right, singleton_append, kerase_cons_eq rfl]
    intro hmem
    obtain ⟨x,hx,hkey⟩ := mem_map.1 hmem
    exact hnum x (mem_append_right _ (mem_reverse.1 hx)) hkey
  · intro h seq
    change (pool.byHash.erase r.2.hash).lookup h = some seq ↔ _
    by_cases heq : h = r.2.hash
    · subst heq
      rw [AList.lookup_erase]
      refine ⟨fun h => (by cases h),?_⟩
      rintro ⟨x,hx,_,hh⟩
      exact absurd hh (hother x hx)
    · rw [AList.lookup_erase_ne heq, hd.byHash, hrows]
      exact exists_mem_append_cons_iff fun hh => heq hh.2.symm
  · have hself : r.key.cmp r.key = .eq := (Row.key_cmp_eq_iff fun _ => rfl).2 rfl
    have hkeys : (rows.map Row.key).filter (fun key => key.cmp r.key ≠ .eq) =
        (a ++ b).map Row.key := by
      rw [hrows, map_append, map_cons, filter_append,
        filter_cons_of_neg (by simp [hself]),
        filter_keys_of_ne fun x hx => hnum x (mem_append_left _ hx),
        filter_keys_of_ne fun x hx => hnum x (mem_append_right _ hx), map_append]
    rw [← hkeys]
    exact hd.priority.filter _
  · intro pid'
    have hmatch : ∀ pid, r.2.paymentId ≠ some pid →
        rows.filter (fun x => x.2.paymentId = some pid) =
          (a ++ b).filter fun x => x.2.paymentId = some pid := by
      intro pid hpid
      rw [hrows, filter_append, filter_cons_of_neg (by simpa using hpid),
        filter_append]
    cases hpid : r.2.paymentId with
    | none =>
      change pool.byPaymentId.lookup pid' = _
      rw [hd.byPaymentId, hmatch pid' (by simp [hpid])]
    | some pid =>
      have hlist : pool.byPaymentId.lookup pid =
          some ((rows.filter fun x => x.2.paymentId = some pid).map fun x => x.2.hash) := by
        rw [hd.byPaymentId, unlessEmpty, if_neg]
        simp only [map_eq_nil_iff, filter_eq_nil_iff]
        intro hall
        exact hall r hr (by simp [hpid])
      change (releasePaymentId r.2.hash pid pool.byPaymentId).lookup pid' = _
      rw [lookup_releasePaymentId hlist]
      by_cases heq : pid' = pid
      · subst heq
        rw [if_pos rfl]
        congr 1
        rw [hrows, filter_append, filter_cons_of_pos (by simp [hpid]), map_append,
          map_cons, filter_append, filter_cons_of_neg (by simp), filter_append, map_append]
        rw [filter_hashes_of_ne fun x hx => hother x (mem_append_left _ (mem_of_mem_filter hx)),
          filter_hashes_of_ne fun x hx => hother x (mem_append_right _ (mem_of_mem_filter hx))]
      · rw [if_neg heq, hd.byPaymentId, hmatch pid' (by simp [hpid, Ne.symm heq])]
  · intro k h
    change (r.2.images.foldl (releaseImage r.2.hash) pool.keyImages).lookup k = some h ↔ _
    rw [lookup_releaseImages]
    have hown : ∀ k ∈ r.2.images, pool.keyImages.lookup k = some r.2.hash := fun k hk =>
      (hd.keyImages _ _).2 ⟨r,hr,hk,rfl⟩
    have hapart : ∀ x ∈ a ++ b, ∀ k ∈ x.2.images, k ∉ r.2.images := by
      intro x hx k hkx hk
      have hx' := (hd.keyImages _ _).2 ⟨x,hsub.subset hx,hkx,rfl⟩
      rw [hown k hk] at hx'
      exact hother x hx (Option.some.inj hx').symm
    by_cases hk : k ∈ r.2.images
    · rw [if_pos ⟨hk,hown k hk⟩]
      refine ⟨fun h => (by cases h),?_⟩
      rintro ⟨x,hx,hkx,_⟩
      exact absurd hk (hapart x hx k hkx)
    · rw [if_neg fun h => hk h.1, hd.keyImages, hrows]
      exact exists_mem_append_cons_iff fun hh => hk hh.1
  · exact hd.separate.sublist (hsub.flatMap _)
  · change (if r.2.fee = 0 then pool.feeLess-1 else pool.feeLess) = _
    rw [hd.feeLess, hrows, countP_append, countP_append, countP_cons]
    by_cases hfee : r.2.fee = 0
    · simp only [hfee, if_true, decide_true]
      omega
    · simp [hfee]
  · change pool.sizeBytes - r.2.size = _
    rw [hd.sizeBytes, hrows]
    simp only [map_append, map_cons, sum_append, sum_cons]
    omega

theorem Describes.remove (hd : Describes pool rows) (h : Hash) :
    Describes (pool.remove h) (rows.filter fun x => x.2.hash ≠ h) := by
  by_cases hheld : ∃ r ∈ rows, r.2.hash = h
  · obtain ⟨r,hr,rfl⟩ := hheld
    exact hd.remove_row hr
  · have hnone : pool.byHash.lookup h = none := by
      rw [Option.eq_none_iff_forall_ne_some]
      intro seq hseq
      obtain ⟨r,hr,_,hh⟩ := (hd.byHash _ _).1 hseq
      exact hheld ⟨r,hr,hh⟩
    have hkeep : rows.filter (fun x => x.2.hash ≠ h) = rows :=
      filter_eq_self.2 fun x hx => by simpa using fun heq => hheld ⟨x,hx,heq⟩
    rw [hkeep]
    unfold TransactionPool.remove
    rw [hnone]
    exact hd

@[simp] theorem remove_cfg (pool : TransactionPool cx) (h : Hash) :
    (pool.remove h).cfg = pool.cfg := by
  unfold remove
  split
  · rfl
  · split <;> rfl

theorem remove_sizeBytes_le (pool : TransactionPool cx) (h : Hash) :
    (pool.remove h).sizeBytes ≤ pool.sizeBytes := by
  unfold remove
  split
  · exact Nat.le_refl _
  · split
    · exact Nat.le_refl _
    · exact Nat.sub_le _ _

theorem Describes.worst (hd : Describes pool rows) (hne : rows ≠ []) :
    ∃ r ∈ rows, (pool.priority.getLast?.bind fun worst => pool.entries.lookup worst.seq) =
      some r.2 := by
  have hpriority : pool.priority ≠ [] := by
    intro hnil
    have := hd.priority.length_eq
    rw [hnil, length_nil, length_map] at this
    exact hne (length_eq_zero_iff.1 this.symm)
  have hmem := hd.priority.subset (getLast_mem hpriority)
  obtain ⟨r,hr,hkey⟩ := mem_map.1 hmem
  refine ⟨r,hr,?_⟩
  rw [getLast?_eq_some_getLast hpriority, Option.bind_some, ← hkey]
  exact hd.lookup_iff.2 hr

/-- The pool ends at the target: when nothing is left, nothing is over it. -/
theorem Describes.evictLoop (target : Nat) (fuel : Nat) (hd : Describes pool rows)
    (hfuel : rows.length ≤ fuel) :
    ∃ rows', Describes (evictLoop target fuel pool) rows' ∧
      (evictLoop target fuel pool).cfg = pool.cfg ∧
      (evictLoop target fuel pool).sizeBytes ≤ target := by
  induction fuel generalizing pool rows with
  | zero =>
    have hnil : rows = [] := length_eq_zero_iff.1 (Nat.le_zero.1 hfuel)
    refine ⟨rows,hd,rfl,?_⟩
    change pool.sizeBytes ≤ target
    rw [hd.sizeBytes, hnil]
    exact Nat.zero_le _
  | succ fuel ih =>
    unfold evictLoop
    by_cases hover : target < pool.sizeBytes
    · rw [if_pos hover]
      have hne : rows ≠ [] := by
        rintro rfl
        rw [hd.sizeBytes] at hover
        exact Nat.not_lt_zero _ hover
      obtain ⟨r,hr,hworst⟩ := hd.worst hne
      rw [hworst]
      have hd' := hd.remove_row hr
      have hlen : (rows.filter fun x => x.2.hash ≠ r.2.hash).length ≤ fuel := by
        obtain ⟨a,b,hrows,hfilter,_⟩ := hd.split hr
        rw [hfilter]
        rw [hrows] at hfuel
        simp only [length_append, length_cons] at hfuel ⊢
        omega
      have hnext : Describes { pool.remove r.2.hash with
          evicted := (pool.remove r.2.hash).evicted ++ [r.2.hash] } _ :=
        hd'.congr rfl rfl rfl rfl rfl rfl rfl rfl
      obtain ⟨rows',hrows',hcfg,hle⟩ := ih hnext hlen
      exact ⟨rows',hrows',hcfg.trans (remove_cfg pool _),hle⟩
    · rw [if_neg hover]
      exact ⟨rows,hd,rfl,Nat.le_of_not_lt hover⟩

/-- What a run keeps: the configuration, one list behind all indexes, and the budget. -/
structure Consistent (c : PoolConfig) (pool : TransactionPool cx) : Prop where
  cfg : pool.cfg = c
  described : ∃ rows, Describes pool rows
  fits : pool.sizeBytes ≤ c.maxSizeBytes

variable {cfg : PoolConfig}

theorem Describes.evictToFit (hd : Describes pool rows) (hcfg : pool.cfg = cfg)
    (hpercent : cfg.evictToPercent ≤ 100) : Consistent cfg pool.evictToFit := by
  unfold TransactionPool.evictToFit
  by_cases hfits : pool.sizeBytes ≤ pool.cfg.maxSizeBytes
  · rw [if_pos hfits]
    exact ⟨hcfg,⟨rows,hd⟩,hcfg ▸ hfits⟩
  · rw [if_neg hfits]
    have hlen : rows.length ≤ pool.priority.length := by
      rw [hd.priority.length_eq, length_map]
    obtain ⟨rows',hd',hcfg',hle⟩ := hd.evictLoop
      (pool.cfg.maxSizeBytes / 100 * pool.cfg.evictToPercent) _ hlen
    refine ⟨hcfg'.trans hcfg,⟨rows',hd'⟩,hle.trans ?_⟩
    rw [hcfg]
    calc cfg.maxSizeBytes / 100 * cfg.evictToPercent ≤ cfg.maxSizeBytes / 100 * 100 :=
          Nat.mul_le_mul_left _ hpercent
      _ ≤ cfg.maxSizeBytes := Nat.div_mul_le_self _ _

/-- An offer is turned down with the pool as it was, refused by the validator, or
entered. -/
theorem admission_cases (pool : TransactionPool cx) (p : ParsedTx cx) (chain : PoolChain)
    (source : PoolSource) :
    ((pool.admission p chain source).1.accepted = false ∧ (pool.admission p chain source).2 = pool) ∨
    (∃ rule, validateTransactionEarlyExit cx p.transaction p.blob .new chain.toChainAccess
        (txContext chain) = .error rule ∧ pool.admission p chain source =
        (.rejected rule,pool.rememberRejection p.hash p.blob.length rule (ContextKey.of chain))) ∨
    ∃ v state, validateTransactionEarlyExit cx p.transaction p.blob .new chain.toChainAccess
        (txContext chain) = .ok (v,state) ∧
      (∀ k ∈ p.transaction.body.keyImages, pool.keyImages.lookup k = none) ∧
      (pool.admission p chain source).2 =
        (pool.insert (PoolEntry.validated p source pool.clock v) state.spentKeyImages).evictToFit := by
  unfold admission
  by_cases hchain : chain.transactionInChain p.hash = true
  · rw [if_pos hchain]
    exact .inl ⟨rfl,rfl⟩
  rw [if_neg hchain]
  by_cases hdeleted : (pool.recentlyDeleted.lookup p.hash).isSome = true
  · rw [if_pos hdeleted]
    exact .inl ⟨rfl,rfl⟩
  rw [if_neg hdeleted]
  by_cases hfusion : (PoolEntry.of p source pool.clock).fee = 0 ∧
      pool.cfg.fusionMaxPoolCount ≤ pool.feeLess
  · simp only [if_pos hfusion]
    exact .inl ⟨rfl,trivial⟩
  simp only [if_neg hfusion]
  cases hconflict : pool.conflict (PoolEntry.of p source pool.clock).images with
  | some held => exact .inl ⟨rfl,rfl⟩
  | none =>
    dsimp only
    by_cases hfull : pool.cfg.maxSizeBytes <
        pool.sizeBytes + (PoolEntry.of p source pool.clock).size ∧
        pool.isLeastProfitable (PoolEntry.of p source pool.clock) = true
    · rw [if_pos hfull]
      exact .inl ⟨rfl,rfl⟩
    rw [if_neg hfull]
    cases hvalid : validateTransactionEarlyExit cx p.transaction p.blob .new chain.toChainAccess
        (txContext chain) with
    | error rule => exact .inr (.inl ⟨rule,rfl,rfl⟩)
    | ok passed =>
      refine .inr (.inr ⟨passed.1,passed.2,rfl,?_,rfl⟩)
      intro k hk
      simpa using findSome?_eq_none_iff.1 hconflict k hk

namespace Consistent

section

variable (hc : Consistent cfg pool)
include hc

theorem congr (hcfg : t.cfg = pool.cfg)
    (hentries : t.entries = pool.entries) (hpriority : t.priority = pool.priority)
    (hhash : t.byHash = pool.byHash) (hpid : t.byPaymentId = pool.byPaymentId)
    (himages : t.keyImages = pool.keyImages) (hsize : t.sizeBytes = pool.sizeBytes)
    (hfee : t.feeLess = pool.feeLess) (hseq : t.nextSeq = pool.nextSeq) : Consistent cfg t := by
  obtain ⟨rows,hd⟩ := hc.described
  exact ⟨hcfg.trans hc.cfg,
    ⟨rows,hd.congr hentries hpriority hhash hpid himages hsize hfee hseq⟩,hsize ▸ hc.fits⟩

theorem remove (h : Hash) : Consistent cfg (pool.remove h) := by
  obtain ⟨rows,hd⟩ := hc.described
  exact ⟨(remove_cfg pool h).trans hc.cfg,⟨_,hd.remove h⟩,
    (remove_sizeBytes_le pool h).trans hc.fits⟩

theorem removeAll (hashes : List Hash) : Consistent cfg (pool.removeAll hashes) := by
  induction hashes generalizing pool with
  | nil => exact hc
  | cons h hashes ih => exact ih (hc.remove h)

theorem rejected (cache : RejectionCache) :
    Consistent cfg { pool with rejected := cache } := hc.congr rfl rfl rfl rfl rfl rfl rfl rfl rfl

theorem rememberRejection (hash : Hash) (n : Nat) (rule : TxRule)
    (context : ContextKey) : Consistent cfg (pool.rememberRejection hash n rule context) := by
  unfold TransactionPool.rememberRejection
  cases RejectionCategory.ofRule rule with
  | invalid | invalidSignature | invalidAtHeight => exact hc.rejected _
  | chainState | policy | malformed => exact hc

variable (hpercent : cfg.evictToPercent ≤ 100)
include hpercent

theorem admission {p : ParsedTx cx} (hnew : pool.contains p.hash = false) (chain : PoolChain)
    (source : PoolSource) : Consistent cfg (pool.admission p chain source).2 := by
  rcases admission_cases pool p chain source with
    ⟨_,hsame⟩ | ⟨rule,_,hrefused⟩ | ⟨v,state,hvalid,hfree,hin⟩
  · rw [hsame]
    exact hc
  · rw [hrefused]
    exact hc.rememberRejection _ _ _ _
  · obtain ⟨rows,hd⟩ := hc.described
    obtain ⟨himages,hnodup⟩ := validateTransactionEarlyExit_images hvalid
    rw [hin]
    have himages' : ∀ k, k ∈ state.spentKeyImages ↔ k ∈ p.transaction.body.keyImages := by
      intro k
      rw [himages, mem_reverse]
    have hfree' : ∀ k ∈ (PoolEntry.validated p source pool.clock v).images,
        pool.keyImages.lookup k = none := hfree
    exact (hd.insert hnew hfree' hnodup himages').evictToFit hc.cfg hpercent

theorem addParsed (p : ParsedTx cx) (chain : PoolChain)
    (source : PoolSource) : Consistent cfg (pool.addParsed p chain source).2 := by
  unfold TransactionPool.addParsed
  by_cases hheld : pool.contains p.hash = true
  · rw [if_pos hheld]
    exact hc
  · rw [if_neg hheld]
    have hnew : pool.contains p.hash = false := Bool.eq_false_iff.2 hheld
    cases hrule : (pool.rejected.lookup p.hash p.blob.length pool.clock
        pool.cfg.rejectionCacheTtl (ContextKey.of chain)).1 with
    | some rule =>
      simp only [hrule]
      exact hc.rejected _
    | none =>
      simp only [hrule]
      have hc' := hc.rejected (pool.rejected.lookup p.hash p.blob.length pool.clock
        pool.cfg.rejectionCacheTtl (ContextKey.of chain)).2
      exact hc'.admission hpercent hnew chain source

theorem add (blob : Bytes)
    (chain : PoolChain) (source : PoolSource) : Consistent cfg (pool.add blob chain source).2 := by
  unfold TransactionPool.add
  split
  · exact hc
  · exact hc.addParsed hpercent _ chain source

end

variable {state : TransactionPool cx × List Hash}

theorem cleanOne (height : Nat) (hc : Consistent cfg state.1) (h : Hash) :
    Consistent cfg (TransactionPool.cleanOne height state h).1 := by
  unfold TransactionPool.cleanOne
  split
  · exact hc
  · split
    · have hdeleted : Consistent cfg { state.1 with
          recentlyDeleted := state.1.recentlyDeleted.insert h state.1.clock } :=
        hc.congr rfl rfl rfl rfl rfl rfl rfl rfl rfl
      exact hdeleted.remove h
    · exact hc

theorem clean (hc : Consistent cfg pool) (height : Nat) : Consistent cfg (pool.clean height).2 := by
  have hloop : ∀ (hashes : List Hash) (state : TransactionPool cx × List Hash),
      Consistent cfg state.1 →
      Consistent cfg (hashes.foldl (TransactionPool.cleanOne height) state).1 := by
    intro hashes
    induction hashes with
    | nil => exact fun _ h => h
    | cons hash hashes ih => exact fun state h => ih _ (h.cleanOne height hash)
  exact (hloop pool.hashes (pool,[]) hc).congr rfl rfl rfl rfl rfl rfl rfl rfl rfl

theorem restoreOne (hpercent : cfg.evictToPercent ≤ 100) (chain : PoolChain)
    (hc : Consistent cfg state.1) (blob : Bytes) :
    Consistent cfg (TransactionPool.restoreOne chain state blob).1 := by
  unfold TransactionPool.restoreOne
  split
  · exact hc
  · next p _ =>
    have hforget : Consistent cfg (state.1.forgetDeleted p.hash) :=
      hc.congr rfl rfl rfl rfl rfl rfl rfl rfl rfl
    exact hforget.addParsed hpercent p chain .alternativeBlock

theorem copyTransactionsToPool (hc : Consistent cfg pool) (hpercent : cfg.evictToPercent ≤ 100)
    (chain : PoolChain) (blobs : List Bytes) :
    Consistent cfg (pool.copyTransactionsToPool chain blobs).2 := by
  have hloop : ∀ (blobs : List Bytes) (state : TransactionPool cx × List Hash),
      Consistent cfg state.1 →
      Consistent cfg (blobs.foldl (TransactionPool.restoreOne chain) state).1 := by
    intro blobs
    induction blobs with
    | nil => exact fun _ h => h
    | cons blob blobs ih => exact fun state h => ih _ (h.restoreOne hpercent chain blob)
  exact hloop blobs _ (hc.rejected _)

end Consistent

/-- `b` does not come before `a`. -/
def notAfter (a b : PoolEntry cx) : Bool := !b.priority.prefers a.priority

theorem notAfter_iff {a b : PoolEntry cx} :
    notAfter a b = true ↔ a.priority.rank ≤ b.priority.rank := by
  rw [notAfter, Bool.not_eq_true', TxPriority.not_prefers_iff]

/-- Read off the index, the pool is the stable sort of the transactions as they came. -/
theorem Describes.byPriority_eq (hd : Describes pool rows) :
    pool.byPriority = (rows.map Sigma.snd).mergeSort notAfter := by
  have hread : ∀ key ∈ pool.priority, ∃ r ∈ rows, r.key = key ∧
      pool.entries.lookup key.seq = some r.2 := by
    intro key hkey
    obtain ⟨r,hr,hrk⟩ := mem_map.1 (hd.priority.subset hkey)
    subst hrk
    exact ⟨r,hr,rfl,hd.lookup_iff.2 hr⟩
  let row (key : PriorityKey) : Option (Row cx) :=
    (pool.entries.lookup key.seq).map fun e => ⟨key.seq,e⟩
  have hrow : ∀ r ∈ rows, row r.key = some r := by
    intro r hr
    have hlookup : pool.entries.lookup r.key.seq = some r.2 := hd.lookup_iff.2 hr
    simp only [row, hlookup]
    rfl
  have hbyPriority : pool.byPriority = (pool.priority.filterMap row).map Sigma.snd := by
    rw [map_filterMap]
    refine filterMap_congr fun key _ => ?_
    simp only [row]
    cases pool.entries.lookup key.seq <;> rfl
  have hperm : (pool.priority.filterMap row).Perm rows := by
    refine (hd.priority.filterMap row).trans (List.Perm.of_eq ?_)
    rw [filterMap_map]
    refine (filterMap_congr fun r hr => hrow r hr).trans ?_
    exact filterMap_some
  have hnumbers : pool.priority.Pairwise fun a b => a.seq ≠ b.seq := by
    refine (hd.priority.pairwise_iff fun h => h.symm).2 (pairwise_map.2 ?_)
    exact hd.increasing.imp Nat.ne_of_lt
  have hsorted : (pool.priority.filterMap row).Pairwise
      (StablyBefore (fun a b => notAfter a.2 b.2) Sigma.fst) := by
    refine pairwise_filterMap.2 ((hd.sorted.and hnumbers).imp_of_mem ?_)
    rintro ka kb hka hkb ⟨hle,hne⟩ a ha b hb
    obtain ⟨ra,hra,rfl,_⟩ := hread ka hka
    obtain ⟨rb,hrb,rfl,_⟩ := hread kb hkb
    cases (hrow ra hra).symm.trans ha
    cases (hrow rb hrb).symm.trans hb
    have hrank := PriorityKey.le_iff.1 hle
    rcases Prod.Lex.toLex_le_toLex.1 hrank with hlt | ⟨heq,hseq⟩
    · refine ⟨notAfter_iff.2 hlt.le,fun hback => ?_⟩
      exact absurd (notAfter_iff.1 hback) (not_le_of_gt hlt)
    · exact ⟨notAfter_iff.2 heq.le,fun _ => lt_of_le_of_ne hseq hne⟩
  have htrans : ∀ a b c : Row cx, notAfter a.2 b.2 = true → notAfter b.2 c.2 = true →
      notAfter a.2 c.2 = true := by
    intro a b c hab hbc
    exact notAfter_iff.2 ((notAfter_iff.1 hab).trans (notAfter_iff.1 hbc))
  have htotal : ∀ a b : Row cx, (notAfter a.2 b.2 || notAfter b.2 a.2) = true := by
    intro a b
    rw [Bool.or_eq_true, notAfter_iff, notAfter_iff]
    exact le_total _ _
  rw [hbyPriority, eq_mergeSort_of_stablyBefore htrans htotal hd.increasing hperm hsorted]
  exact map_mergeSort fun a _ b _ => rfl

end

end TransactionPool

/-- An operation on the pool, each with the chain it is given. -/
inductive PoolOp where
  | add (blob : Bytes) (chain : PoolChain) (source : PoolSource)
  | remove (hash : Hash)
  | flush
  | clean (height : Nat)
  | onBlockAdded (chain : PoolChain) (blockTransactionHashes spentKeyImages : List Hash)
  | removeSpentInChain (chain : PoolChain)
  | copyTransactionsToPool (chain : PoolChain) (blobs : List Bytes)
  | forgetDeleted (hash : Hash)
  | forgetRejection (hash : Hash)
  | takeEvicted
  | setClock (now : Nat)

namespace PoolOp

variable {cx : Crypto}

def run (pool : TransactionPool cx) : PoolOp → TransactionPool cx
  | .add blob chain source => (pool.add blob chain source).2
  | .remove hash => pool.remove hash
  | .flush => pool.flush
  | .clean height => (pool.clean height).2
  | .onBlockAdded chain hashes spent => (pool.onBlockAdded chain hashes spent).2
  | .removeSpentInChain chain => (pool.removeSpentInChain chain).2
  | .copyTransactionsToPool chain blobs => (pool.copyTransactionsToPool chain blobs).2
  | .forgetDeleted hash => pool.forgetDeleted hash
  | .forgetRejection hash => pool.forgetRejection hash
  | .takeEvicted => pool.takeEvicted.2
  | .setClock now => { pool with clock := now }

theorem run_consistent {cfg : PoolConfig} (hpercent : cfg.evictToPercent ≤ 100)
    {pool : TransactionPool cx} (hc : pool.Consistent cfg) (op : PoolOp) :
    (op.run pool).Consistent cfg := by
  cases op with
  | add blob chain source => exact hc.add hpercent blob chain source
  | remove hash => exact hc.remove hash
  | flush => exact hc.removeAll _
  | clean height => exact hc.clean height
  | onBlockAdded chain hashes spent => exact hc.removeAll _
  | removeSpentInChain chain => exact (hc.rejected _).removeAll _
  | copyTransactionsToPool chain blobs => exact hc.copyTransactionsToPool hpercent chain blobs
  | forgetDeleted hash => exact hc.congr rfl rfl rfl rfl rfl rfl rfl rfl rfl
  | forgetRejection hash => exact hc.congr rfl rfl rfl rfl rfl rfl rfl rfl rfl
  | takeEvicted => exact hc.congr rfl rfl rfl rfl rfl rfl rfl rfl rfl
  | setClock now => exact hc.congr rfl rfl rfl rfl rfl rfl rfl rfl rfl

end PoolOp

def runPool {cx : Crypto} (ops : List PoolOp) (pool : TransactionPool cx) : TransactionPool cx :=
  ops.foldl PoolOp.run pool

theorem runPool_consistent {cx : Crypto} {cfg : PoolConfig} (hpercent : cfg.evictToPercent ≤ 100)
    (ops : List PoolOp) {pool : TransactionPool cx} (hc : pool.Consistent cfg) :
    (runPool ops pool).Consistent cfg := by
  induction ops generalizing pool with
  | nil => exact hc
  | cons op ops ih => exact ih (op.run_consistent hpercent hc)

/-- After any operations on an empty pool all indexes describe one list of transactions,
the priority index is its stable sort, no two transactions share a key image, and the
bytes held are counted and within the budget. -/
theorem pool_indexes_agree (cx : Crypto) (cfg : PoolConfig) (hpercent : cfg.evictToPercent ≤ 100)
    (ops : List PoolOp) :
    ∃ rows, (runPool ops (new cx cfg)).Describes rows ∧
      (runPool ops (new cx cfg)).byPriority =
        (rows.map Sigma.snd).mergeSort notAfter ∧
      (runPool ops (new cx cfg)).sizeBytes ≤ cfg.maxSizeBytes := by
  have hnew : (new cx cfg).Consistent cfg :=
    ⟨rfl,⟨[],describes_new cfg⟩,Nat.zero_le _⟩
  have hrun := runPool_consistent hpercent ops hnew
  obtain ⟨rows,hd⟩ := hrun.described
  exact ⟨rows,hd,hd.byPriority_eq,hrun.fits⟩

/-- One input with the given image and no outputs, so that its amount is the fee. -/
def samplePayingBlob (amount : Nat) (image : Hash) : Bytes :=
  [1,0,1,2] ++ Writer.varint amount ++ [1,0] ++ image.bytes ++ [0,0] ++ List.replicate 64 0

def samplePoolBlob (image : Hash) : Bytes := samplePayingBlob 1000000 image

def samplePoolZone : Checkpoints := ⟨[(5,ByteVec.zero 32)],2^64 - 1⟩

def samplePoolChain : PoolChain := (sampleNode defaultConfig samplePoolZone 1000).poolChain

def samplePoolOps : List PoolOp :=
  [.add (samplePoolBlob (ByteVec.zero 32)) samplePoolChain .network,.clean 0]

/-- A budget of two transactions, and three of them with different fees. -/
def sampleFullOps : List PoolOp :=
  [(1100000,3),(1000000,4),(1200000,5)].map fun (amount,byte) =>
    .add (samplePayingBlob amount (mixHash [byte])) samplePoolChain .network

def sampleBudget : PoolConfig := { maxSizeBytes := 300 }

/-- The transaction of the lowest fee is put out, and of the two that stay the one that
pays more comes first. -/
theorem pool_indexes_agree_sample :
    let pool := runPool sampleFullOps (new sampleCrypto sampleBudget)
    (pool.byPriority.map PoolEntry.fee = [1200000,1100000] ∧ pool.sizeBytes = 214) ∧
      ∃ rows, pool.Describes rows ∧
        pool.byPriority = (rows.map Sigma.snd).mergeSort notAfter ∧
        pool.sizeBytes ≤ sampleBudget.maxSizeBytes :=
  ⟨by decide +kernel,pool_indexes_agree sampleCrypto sampleBudget (by decide) sampleFullOps⟩

end Wrkz
