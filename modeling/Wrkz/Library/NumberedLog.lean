import Mathlib

/-!
Logs numbered per label. Each label has its own list of records, numbered from
zero in the order they were appended; a table keeps the numbered records and a
counter for every label that has one. Appending numbers the new records from
the counters on, and taking the same records off again restores the table.
-/

set_option autoImplicit false

namespace Library

universe u v

variable {L : Type u} {R : Type v} [DecidableEq L]

def recordsOf (l : L) (os : List (L × R)) : List R :=
  os.filterMap (fun o => if o.1 = l then some o.2 else none)

@[simp] theorem recordsOf_nil (l : L) : recordsOf l ([] : List (L × R)) = [] := rfl

theorem recordsOf_cons (l : L) (o : L × R) (os : List (L × R)) :
    recordsOf l (o :: os) = if o.1 = l then o.2 :: recordsOf l os else recordsOf l os := by
  unfold recordsOf
  by_cases h : o.1 = l <;> simp [h]

@[simp] theorem recordsOf_append (l : L) (os os' : List (L × R)) :
    recordsOf l (os ++ os') = recordsOf l os ++ recordsOf l os' := by
  simp [recordsOf]

theorem recordsOf_sublist (l : L) (os : List (L × R)) :
    (recordsOf l os).Sublist (os.map Prod.snd) := by
  induction os with
  | nil => exact .slnil
  | cons o os ih =>
    rw [recordsOf_cons, List.map_cons]
    split
    · exact ih.cons_cons _
    · exact ih.cons _

variable {os : List (L × R)} {base : L → Nat} {l : L} {n : Nat} {r : R}

theorem mem_recordsOf : r ∈ recordsOf l os ↔ (l,r) ∈ os := by
  induction os with
  | nil => simp
  | cons o os ih =>
    obtain ⟨l',r'⟩ := o
    by_cases h : l' = l
    · subst h; simp [recordsOf_cons, ih]
    · have h' : l ≠ l' := fun e => h e.symm
      simp [recordsOf_cons, h, h', ih]

/-- Number the records from `base` on, each label by itself. -/
def number (base : L → Nat) : List (L × R) → List ((L × Nat) × R)
  | [] => []
  | o :: os => ((o.1, base o.1), o.2) :: number (Function.update base o.1 (base o.1 + 1)) os

@[simp] theorem number_nil (base : L → Nat) : number base ([] : List (L × R)) = [] := rfl

/-- The numbered record of `l` at `n` is the one `n - base l` places into the
new records of `l`. -/
theorem mem_number :
    ((l,n),r) ∈ number base os ↔ ∃ i, n = base l + i ∧ (recordsOf l os)[i]? = some r := by
  induction os generalizing base with
  | nil => simp
  | cons o os ih =>
    obtain ⟨l',r'⟩ := o
    simp only [number, List.mem_cons, Prod.mk.injEq, ih, recordsOf_cons]
    by_cases hl : l' = l
    · subst hl
      simp only [true_and, Function.update_self, if_true]
      constructor
      · rintro (⟨rfl,rfl⟩ | ⟨i,rfl,hi⟩)
        · exact ⟨0, by simp⟩
        · exact ⟨i+1, by omega, by simpa using hi⟩
      · rintro ⟨i,rfl,hi⟩
        cases i with
        | zero => left; simpa [eq_comm] using hi
        | succ i => right; exact ⟨i, by omega, by simpa using hi⟩
    · have hl' : l ≠ l' := fun e => hl e.symm
      simp [hl, hl']

theorem number_append (base : L → Nat) (os os' : List (L × R)) :
    number base (os ++ os') =
      number base os ++ number (fun l => base l + (recordsOf l os).length) os' := by
  induction os generalizing base with
  | nil => simp
  | cons o os ih =>
    obtain ⟨l',r'⟩ := o
    simp only [List.cons_append, number, ih]
    congr 3
    funext l
    by_cases hl : l' = l
    · subst hl; simp [recordsOf_cons]; omega
    · have hl' : l ≠ l' := fun e => hl e.symm
      simp [recordsOf_cons, hl, Function.update_of_ne hl']

theorem number_unique {p : L × Nat} {r r' : R}
    (h : (p,r) ∈ number base os) (h' : (p,r') ∈ number base os) : r = r' := by
  obtain ⟨l,n⟩ := p
  obtain ⟨i,rfl,hi⟩ := mem_number.1 h
  obtain ⟨j,hj,hj'⟩ := mem_number.1 h'
  have hij : i = j := by omega
  subst hij
  exact Option.some.inj (hi.symm.trans hj')

theorem mem_number_keys :
    (l,n) ∈ (number base os).map Prod.fst ↔
      base l ≤ n ∧ n < base l + (recordsOf l os).length := by
  simp only [List.mem_map, Prod.exists, exists_and_right, exists_eq_right]
  constructor
  · rintro ⟨r,hr⟩
    obtain ⟨i,rfl,hi⟩ := mem_number.1 hr
    have := (List.getElem?_eq_some_iff.1 hi).1
    omega
  · rintro ⟨h₁,h₂⟩
    have hlt : n - base l < (recordsOf l os).length := by omega
    exact ⟨_, mem_number.2 ⟨n - base l, by omega, List.getElem?_eq_getElem hlt⟩⟩

/-- The next number of a label while a batch is numbered: the running counter,
or the stored count when the label has not been met. -/
def nextIndex (stored : L → Nat) (counts : AList (fun _ : L => Nat)) (l : L) : Nat :=
  (counts.lookup l).getD (stored l)

def assign (stored : L → Nat) (counts : AList (fun _ : L => Nat)) :
    List (L × R) → List ((L × Nat) × R) × AList (fun _ : L => Nat)
  | [] => ([], counts)
  | o :: os =>
    let n := nextIndex stored counts o.1
    let rest := assign stored (counts.insert o.1 (n+1)) os
    (((o.1, n), o.2) :: rest.1, rest.2)

theorem nextIndex_insert (stored : L → Nat) (counts : AList (fun _ : L => Nat)) (l : L) (n : Nat) :
    nextIndex stored (counts.insert l n) = Function.update (nextIndex stored counts) l n := by
  funext l'
  by_cases h : l' = l
  · subst h; simp [nextIndex]
  · simp [nextIndex, AList.lookup_insert_ne h, Function.update_of_ne h]

@[simp] theorem nextIndex_empty (stored : L → Nat) : nextIndex stored ∅ = stored := by
  funext l
  simp [nextIndex]

theorem assign_fst (stored : L → Nat) (counts : AList (fun _ : L => Nat)) (os : List (L × R)) :
    (assign stored counts os).1 = number (nextIndex stored counts) os := by
  induction os generalizing counts with
  | nil => rfl
  | cons o os ih => simp [assign, number, ih, nextIndex_insert]

theorem assign_snd_lookup (stored : L → Nat) (counts : AList (fun _ : L => Nat))
    (os : List (L × R)) (l : L) :
    (assign stored counts os).2.lookup l =
      if recordsOf l os = [] then counts.lookup l
      else some (nextIndex stored counts l + (recordsOf l os).length) := by
  induction os generalizing counts with
  | nil => simp [assign]
  | cons o os ih =>
    obtain ⟨l',r'⟩ := o
    simp only [assign, ih, nextIndex_insert, recordsOf_cons]
    by_cases h : l' = l
    · subst h
      by_cases hos : recordsOf l' os = []
      · simp [hos]
      · simp [hos]; omega
    · have h' : l ≠ l' := fun e => h e.symm
      simp [h, AList.lookup_insert_ne h', Function.update_of_ne h']

/-- The table holds the log of every label: its records under their numbers,
and the counter of every label that has a record. -/
structure HoldsLog (entry : L → Nat → Option R) (count : L → Option Nat)
    (log : L → List R) : Prop where
  entry_eq : ∀ l n, entry l n = (log l)[n]?
  count_eq : ∀ l, count l = if log l = [] then none else some (log l).length

namespace HoldsLog

variable {entry entry' : L → Nat → Option R} {count count' : L → Option Nat}
  {log : L → List R} {os : List (L × R)}

omit [DecidableEq L] in
theorem count_getD (h : HoldsLog entry count log) (l : L) : (count l).getD 0 = (log l).length := by
  rw [h.count_eq l]
  by_cases hl : log l = [] <;> simp [hl]

theorem append (h : HoldsLog entry count log)
    (hnew : ∀ l n r, ((l,n),r) ∈ number (fun l => (log l).length) os → entry' l n = some r)
    (hold : ∀ l n, (l,n) ∉ (number (fun l => (log l).length) os).map Prod.fst →
      entry' l n = entry l n)
    (hcount : ∀ l, count' l = if recordsOf l os = [] then count l
      else some ((log l).length + (recordsOf l os).length)) :
    HoldsLog entry' count' (fun l => log l ++ recordsOf l os) := by
  constructor
  · intro l n
    by_cases hn : (l,n) ∈ (number (fun l => (log l).length) os).map Prod.fst
    · obtain ⟨⟨p,r⟩,hmem,hp⟩ := List.mem_map.1 hn
      have hp' : p = (l,n) := hp
      subst hp'
      rw [hnew l n r hmem]
      obtain ⟨i,rfl,hi⟩ := mem_number.1 hmem
      rw [List.getElem?_append_right (by omega)]
      simpa using hi.symm
    · rw [hold l n hn, h.entry_eq]
      rw [mem_number_keys] at hn
      by_cases hlt : n < (log l).length
      · rw [List.getElem?_append_left hlt]
      · rw [List.getElem?_eq_none (by omega), List.getElem?_eq_none (by simp; omega)]
  · intro l
    rw [hcount l, h.count_eq l]
    by_cases hr : recordsOf l os = []
    · simp [hr]
    · simp [hr]

theorem remove (h : HoldsLog entry count (fun l => log l ++ recordsOf l os))
    (hentry : ∀ l n, entry' l n =
      if (l,n) ∈ (number (fun l => (log l).length) os).map Prod.fst then none else entry l n)
    (hcount : ∀ l, count' l = if recordsOf l os = [] then count l
      else if log l = [] then none else some (log l).length) : HoldsLog entry' count' log := by
  constructor
  · intro l n
    simp only [hentry l n, h.entry_eq, mem_number_keys]
    split
    · rename_i hn
      rw [List.getElem?_eq_none hn.1]
    · rename_i hn
      by_cases hlt : n < (log l).length
      · rw [List.getElem?_append_left hlt]
      · rw [List.getElem?_eq_none (by simp; omega), List.getElem?_eq_none (by omega)]
  · intro l
    rw [hcount l]
    by_cases hr : recordsOf l os = []
    · simp [hr, h.count_eq l]
    · simp [hr]

end HoldsLog

/-- Counters for taking records off the end: a label met among those taken off
stands at the number of its records that are left. -/
def CutAt (counts : AList (fun _ : L => Nat)) (before after : List (L × R)) : Prop :=
  ∀ l, counts.lookup l =
    if recordsOf l after = [] then none else some (recordsOf l before).length

def lower (counts : AList (fun _ : L => Nat)) (ref : L × Nat) : AList (fun _ : L => Nat) :=
  counts.insert ref.1 (min ((counts.lookup ref.1).getD ref.2) ref.2)

theorem lower_foldl_lookup (base : L → Nat) (counts : AList (fun _ : L => Nat))
    (os : List (L × R)) (l : L) :
    (((number base os).map Prod.fst).foldl lower counts).lookup l =
      if recordsOf l os = [] then counts.lookup l
      else some (min ((counts.lookup l).getD (base l)) (base l)) := by
  induction os generalizing base counts with
  | nil => simp
  | cons o os ih =>
    obtain ⟨l',r'⟩ := o
    simp only [number, List.map_cons, List.foldl_cons, ih, recordsOf_cons]
    by_cases h : l' = l
    · subst h
      by_cases hos : recordsOf l' os = []
      · simp [hos, lower]
      · simp [hos, lower]
    · have h' : l ≠ l' := fun e => h e.symm
      simp [h, lower, AList.lookup_insert_ne h', Function.update_of_ne h']

namespace CutAt

variable {counts : AList (fun _ : L => Nat)} {before after os : List (L × R)}

theorem empty (before : List (L × R)) : CutAt ∅ before [] := by
  intro l
  simp

theorem nextIndex_eq (h : CutAt counts before after) {stored : L → Nat}
    (hstored : ∀ l, stored l = (recordsOf l (before ++ after)).length) (l : L) :
    nextIndex stored counts l = (recordsOf l before).length := by
  unfold nextIndex
  rw [h l, hstored l]
  by_cases hl : recordsOf l after = []
  · simp [hl]
  · simp [hl]

theorem step {o : L × R} (h : CutAt counts (before ++ [o]) after) :
    CutAt (counts.insert o.1 (recordsOf o.1 before).length) before (o :: after) := by
  intro l
  by_cases hl : o.1 = l
  · subst hl
    simp [recordsOf_cons]
  · have hl' : l ≠ o.1 := fun e => hl e.symm
    rw [AList.lookup_insert_ne hl', h l]
    simp [recordsOf_cons, hl]

theorem lower_batch (h : CutAt counts (before ++ os) after) :
    CutAt (((number (fun l => (recordsOf l before).length) os).map Prod.fst).foldl lower counts)
      before (os ++ after) := by
  intro l
  rw [lower_foldl_lookup, h l]
  by_cases hos : recordsOf l os = []
  · simp [hos]
  · by_cases ha : recordsOf l after = []
    · simp [hos, ha]
    · simp [hos, ha]

end CutAt

theorem HoldsLog.cut {entry entry' : L → Nat → Option R} {count count' : L → Option Nat}
    {counts : AList (fun _ : L => Nat)} {before after : List (L × R)}
    (h : HoldsLog entry count (fun l => recordsOf l (before ++ after)))
    (hcut : CutAt counts before after)
    (hentry : ∀ l n, entry' l n =
      if (l,n) ∈ (number (fun l => (recordsOf l before).length) after).map Prod.fst then none
      else entry l n)
    (hcount : ∀ l, count' l = match counts.lookup l with
      | none => count l
      | some n => if n = 0 then none else some n) :
    HoldsLog entry' count' (fun l => recordsOf l before) := by
  have h' : HoldsLog entry count (fun l => recordsOf l before ++ recordsOf l after) := by
    simpa only [recordsOf_append] using h
  refine h'.remove hentry ?_
  intro l
  rw [hcount l, hcut l]
  by_cases ha : recordsOf l after = []
  · simp [ha]
  · simp [ha]

end Library
