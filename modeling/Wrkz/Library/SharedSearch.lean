import Mathlib

/-!
A search by several workers for the first index that fails. Work is claimed in ascending
pieces through one shared counter; the least failing index found so far is shared too, and
a worker gives up what lies above it. What a worker reads of that index may be out of date:
any value it had before will do. Whatever the interleaving, the search ends, and what is
left is the first failing index.
-/

set_option autoImplicit false

namespace Library

open List

namespace SharedSearch

inductive Worker where
  | idle
  /-- It has taken the piece that begins at `start`. -/
  | claimed (start : Nat)
  /-- It is about to look whether index `i` is still of interest. -/
  | scan (i stop : Nat)
  /-- It is about to run the check of index `i`. -/
  | verify (i stop : Nat)
  | done
  deriving DecidableEq, Repr

structure Pool where
  next : Nat
  lowest : Option Nat
  workers : List Worker
  deriving Repr

def Pool.start (workers : Nat) : Pool := ⟨0,none,List.replicate workers .idle⟩

def Pool.Finished (p : Pool) : Prop := ∀ w ∈ p.workers, w = .done

section

variable (count piece : Nat) (fails : Nat → Bool)

/-- A reading of the shared index: nothing yet, or an index that failed and is not below
the present one. -/
def Reads (lowest seen : Option Nat) : Prop :=
  ∀ m, seen = some m → fails m = true ∧ ∃ l, lowest = some l ∧ l ≤ m

/-- The index seen is below `i`. -/
def Below (seen : Option Nat) (i : Nat) : Prop := ∃ m, seen = some m ∧ m < i

inductive Act : Nat → Option Nat → Worker → Nat → Option Nat → Worker → Prop where
  | claim {next lowest} : Act next lowest .idle (next+piece) lowest (.claimed next)
  | exhausted {next lowest start} (h : count ≤ start) : Act next lowest (.claimed start) next lowest .done
  | beaten {next lowest start seen} (hread : Reads fails lowest seen) (h : Below seen start) :
      Act next lowest (.claimed start) next lowest .done
  | enter {next lowest start} (h : start < count) :
      Act next lowest (.claimed start) next lowest (.scan start (min (start+piece) count))
  | ended {next lowest i stop} (h : stop ≤ i) : Act next lowest (.scan i stop) next lowest .idle
  | quit {next lowest i stop seen} (hin : i < stop) (hread : Reads fails lowest seen)
      (h : Below seen i) : Act next lowest (.scan i stop) next lowest .done
  | look {next lowest i stop} (h : i < stop) : Act next lowest (.scan i stop) next lowest (.verify i stop)
  | pass {next lowest i stop} (h : fails i = false) :
      Act next lowest (.verify i stop) next lowest (.scan (i+1) stop)
  | found {next lowest i stop} (h : fails i = true) :
      Act next lowest (.verify i stop) next (some ((lowest.getD i) ⊓ i)) .idle

inductive Step : Pool → Pool → Prop where
  | act {p : Pool} {j : Nat} {w w' : Worker} {next' : Nat} {lowest' : Option Nat}
      (hw : p.workers[j]? = some w) (h : Act count piece fails p.next p.lowest w next' lowest' w') :
      Step p ⟨next',lowest',p.workers.set j w'⟩

abbrev Runs : Pool → Pool → Prop := Relation.ReflTransGen (Step count piece fails)

end

section

variable {count piece : Nat} {fails : Nat → Bool}

/-- The worker has index `f` before it. -/
def Worker.Holds (piece : Nat) (f : Nat) : Worker → Prop
  | .claimed start => start ≤ f ∧ f < start + piece
  | .scan i stop => i ≤ f ∧ f < stop
  | .verify i stop => i ≤ f ∧ f < stop
  | _ => False

def Worker.Fits (count piece next : Nat) : Worker → Prop
  | .claimed start => start + piece ≤ next
  | .scan i stop => i ≤ stop ∧ stop ≤ next ∧ stop ≤ count
  | .verify i stop => i < stop ∧ stop ≤ next ∧ stop ≤ count
  | _ => True

/-- Index `f` is the first to fail. -/
def FirstFailing (count : Nat) (fails : Nat → Bool) (f : Nat) : Prop :=
  f < count ∧ fails f = true ∧ ∀ i < f, fails i = false

/-- What holds between steps: the shared index failed, and the first failing index is not
claimed yet, or before some worker, or found. -/
structure Inv (count piece : Nat) (fails : Nat → Bool) (p : Pool) : Prop where
  fits : ∀ w ∈ p.workers, w.Fits count piece p.next
  failed : ∀ l, p.lowest = some l → l < count ∧ fails l = true
  held : ∀ f, FirstFailing count fails f → f < p.next →
    p.lowest = some f ∨ ∃ w ∈ p.workers, w.Holds piece f
  passed : ∀ f, FirstFailing count fails f → Worker.done ∈ p.workers → f < p.next

theorem Inv.start (workers : Nat) : Inv count piece fails (.start workers) where
  fits w hw := by
    rw [eq_of_mem_replicate hw]
    trivial
  failed l hl := by cases hl
  held f _ hf := absurd hf (Nat.not_lt_zero f)
  passed f _ hdone := by cases eq_of_mem_replicate hdone

/-- What one action keeps: its own bounds, what failed, and the first failing index. -/
structure ActKeeps (count piece : Nat) (fails : Nat → Bool) (next : Nat) (lowest : Option Nat)
    (w : Worker) (next' : Nat) (lowest' : Option Nat) (w' : Worker) : Prop where
  next_le : next ≤ next'
  fits : w'.Fits count piece next'
  failed : ∀ l, lowest' = some l → l < count ∧ fails l = true
  found : ∀ f, FirstFailing count fails f → lowest = some f → lowest' = some f
  held : ∀ f, FirstFailing count fails f → w.Holds piece f → lowest' = some f ∨ w'.Holds piece f
  claimed : ∀ f, FirstFailing count fails f → ¬ f < next → f < next' → w'.Holds piece f
  passed : ∀ f, FirstFailing count fails f → w' = .done → f < next'

variable {p q : Pool} {lowest lowest' : Option Nat} {log : List Nat} {w w' : Worker}
  {next next' : Nat} {j : Nat} {i : Nat}

/-- The indexes whose check runs when the worker acts. -/
def Worker.evaluates : Worker → List Nat
  | .verify i _ => [i]
  | _ => []

/-- Nothing below index `i` fails. -/
def Wanted (count : Nat) (fails : Nat → Bool) (i : Nat) : Prop :=
  i < count ∧ ∀ m < i, fails m = false

theorem Wanted.le {i m : Nat} (h : Wanted count fails i) (hm : fails m = true) : i ≤ m := by
  by_contra hlt
  rw [h.2 m (by omega)] at hm
  cases hm

theorem Wanted.not_below {i j : Nat} {lowest seen : Option Nat} (h : Wanted count fails i)
    (hread : Reads fails lowest seen) (hbelow : Below seen j) : i < j := by
  obtain ⟨m,hm,hlt⟩ := hbelow
  exact lt_of_le_of_lt (h.le (hread m hm).1) hlt

/-- What an action does with the indexes before the worker: it evaluates one, it takes
new ones from the counter, and it gives up none that is wanted. -/
structure ActMoves (count piece : Nat) (fails : Nat → Bool) (next : Nat) (w : Worker)
    (next' : Nat) (w' : Worker) : Prop where
  next_le : next ≤ next'
  evaluated : ∀ i ∈ w.evaluates, w.Holds piece i ∧ ¬ w'.Holds piece i
  held : ∀ i, w'.Holds piece i → w.Holds piece i ∨ next ≤ i
  wanted : ∀ i, Wanted count fails i → w.Holds piece i → i ∈ w.evaluates ∨ w'.Holds piece i
  claimed : ∀ i, next ≤ i → i < next' → w'.Holds piece i
  passed : ∀ i, Wanted count fails i → w' = .done → i < next'

theorem Act.moves (h : Act count piece fails next lowest w next' lowest' w')
    (hfits : w.Fits count piece next) : ActMoves count piece fails next w next' w' := by
  cases h with
  | claim =>
    refine ⟨by omega,by simp [Worker.evaluates],?_,fun i _ hh => hh.elim,?_,?_⟩
    · exact fun i hh => .inr hh.1
    · exact fun i hge hlt => ⟨hge,hlt⟩
    · exact fun i _ hd => by cases hd
  | @exhausted start hcount =>
    have hin : start + piece ≤ next := hfits
    refine ⟨le_refl _,by simp [Worker.evaluates],fun i hh => hh.elim,?_,by omega,?_⟩
    · exact fun i hi hh => absurd hi.1 (by have := hh.1; omega)
    · exact fun i hi _ => by have := hi.1; omega
  | @beaten start seen hread hbelow =>
    have hin : start + piece ≤ next := hfits
    refine ⟨le_refl _,by simp [Worker.evaluates],fun i hh => hh.elim,?_,by omega,?_⟩
    · exact fun i hi hh => absurd hh.1 (by have := hi.not_below hread hbelow; omega)
    · exact fun i hi _ => by have := hi.not_below hread hbelow; omega
  | @enter start hstart =>
    refine ⟨le_refl _,by simp [Worker.evaluates],?_,?_,by omega,?_⟩
    · exact fun i hh => .inl ⟨hh.1,by have := hh.2; omega⟩
    · exact fun i hi hh => .inr ⟨hh.1,by have := hh.2; have := hi.1; omega⟩
    · exact fun i _ hd => by cases hd
  | @ended i stop hover =>
    refine ⟨le_refl _,by simp [Worker.evaluates],fun k hh => hh.elim,?_,by omega,?_⟩
    · exact fun k _ hh => absurd hh.2 (by have := hh.1; omega)
    · exact fun k _ hd => by cases hd
  | @quit i stop seen hin hread hbelow =>
    have hbound : i ≤ stop ∧ stop ≤ next ∧ stop ≤ count := hfits
    refine ⟨le_refl _,by simp [Worker.evaluates],fun k hh => hh.elim,?_,by omega,?_⟩
    · exact fun k hk hh => absurd hh.1 (by have := hk.not_below hread hbelow; omega)
    · exact fun k hk _ => by have := hk.not_below hread hbelow; omega
  | @look i stop hin =>
    refine ⟨le_refl _,by simp [Worker.evaluates],fun k hh => .inl hh,fun k _ hh => .inr hh,?_,?_⟩
    · omega
    · exact fun k _ hd => by cases hd
  | @pass i stop hok =>
    have hbound : i < stop ∧ stop ≤ next ∧ stop ≤ count := hfits
    refine ⟨le_refl _,?_,?_,?_,by omega,?_⟩
    · intro k hk
      rw [mem_singleton.1 hk]
      exact ⟨⟨le_refl _,hbound.1⟩,fun hh => absurd hh.1 (by omega)⟩
    · exact fun k hh => .inl ⟨by have := hh.1; omega,hh.2⟩
    · intro k _ hh
      rcases Nat.lt_or_ge i k with hlt | hge
      · exact .inr ⟨hlt,hh.2⟩
      · exact .inl (mem_singleton.2 (le_antisymm hge hh.1))
    · exact fun k _ hd => by cases hd
  | @found i stop hbad =>
    have hbound : i < stop ∧ stop ≤ next ∧ stop ≤ count := hfits
    refine ⟨le_refl _,?_,fun k hh => hh.elim,?_,by omega,?_⟩
    · intro k hk
      rw [mem_singleton.1 hk]
      exact ⟨⟨le_refl _,hbound.1⟩,id⟩
    · exact fun k hk hh => .inl (mem_singleton.2 (le_antisymm (hk.le hbad) hh.1))
    · exact fun k _ hd => by cases hd

theorem FirstFailing.wanted {f : Nat} (h : FirstFailing count fails f) : Wanted count fails f :=
  ⟨h.1,h.2.2⟩

theorem Act.fits (h : Act count piece fails next lowest w next' lowest' w')
    (hfits : w.Fits count piece next) : w'.Fits count piece next' := by
  cases h <;> simp only [Worker.Fits] at hfits ⊢ <;> omega

section

variable (h : Act count piece fails next lowest w next' lowest' w')
  (hfailed : ∀ l, lowest = some l → l < count ∧ fails l = true)
include h hfailed

/-- The first failing index stays once it is shared, and is shared once it is evaluated. -/
theorem Act.lowest_eq {f : Nat} (hf : FirstFailing count fails f)
    (hor : lowest = some f ∨ f ∈ w.evaluates) : lowest' = some f := by
  cases h with
  | @found i stop hbad =>
    have hi := hf.wanted.le hbad
    refine congrArg some ?_
    cases hl : lowest with
    | none =>
      rw [hl] at hor
      rw [mem_singleton.1 (hor.resolve_left nofun)]
      simp
    | some l =>
      have hlf := hf.wanted.le (hfailed l hl).2
      rcases hor with hor | hor
      · rw [hl] at hor
        cases hor
        simpa using hi
      · rw [mem_singleton.1 hor] at hlf ⊢
        simpa using hlf
  | @pass i stop hok =>
    refine hor.resolve_right fun heval => ?_
    rw [← mem_singleton.1 heval, hf.2.1] at hok
    cases hok
  | _ => exact hor.resolve_right (by simp [Worker.evaluates])

theorem Act.keeps (hfits : w.Fits count piece next) :
    ActKeeps count piece fails next lowest w next' lowest' w' := by
  have hmoves := h.moves hfits
  refine ⟨hmoves.next_le,h.fits hfits,?_,fun f hf hl => h.lowest_eq hfailed hf (.inl hl),?_,?_,?_⟩
  · intro l hl
    cases h with
    | @found i stop hbad =>
      have hbound : i < stop ∧ stop ≤ next ∧ stop ≤ count := hfits
      cases hl
      cases hlow : lowest with
      | none => simpa using ⟨by omega,hbad⟩
      | some l =>
        rcases Nat.le_total l i with hle | hle
        · simpa [Nat.min_eq_left hle] using hfailed l hlow
        · simpa [Nat.min_eq_right hle] using ⟨by omega,hbad⟩
    | _ => exact hfailed l hl
  · exact fun f hf hh => (hmoves.wanted f hf.wanted hh).imp_left
      fun heval => h.lowest_eq hfailed hf (.inr heval)
  · exact fun f _ hge hlt => hmoves.claimed f (Nat.le_of_not_lt hge) hlt
  · exact fun f hf hd => hmoves.passed f hf.wanted hd

end

theorem Step.inv (h : Step count piece fails p q) (hp : Inv count piece fails p) :
    Inv count piece fails q := by
  obtain ⟨hw,hact⟩ := h
  rename_i j w w' next' lowest'
  have hmem := List.mem_of_getElem? hw
  have hlt := (List.getElem?_eq_some_iff.1 hw).1
  have hkeeps := hact.keeps hp.failed (hp.fits w hmem)
  have hself : w' ∈ p.workers.set j w' := List.mem_of_getElem? (by simp [hlt] :
    (p.workers.set j w')[j]? = some w')
  -- a worker is the one that acted, or the one it was
  have hother {v : Worker} (hv : v ∈ p.workers) : v = w ∨ v ∈ p.workers.set j w' := by
    obtain ⟨k,hk⟩ := getElem?_of_mem hv
    by_cases hkj : k = j
    · subst hkj
      rw [hw] at hk
      exact .inl (Option.some.inj hk).symm
    · exact .inr (mem_of_getElem? (by rw [getElem?_set_ne (Ne.symm hkj), hk]))
  refine ⟨?_,hkeeps.failed,?_,?_⟩
  · intro v hv
    rcases mem_or_eq_of_mem_set hv with hv | rfl
    · have hfits := hp.fits v hv
      have hle := hkeeps.next_le
      cases v with
      | claimed start => exact le_trans hfits hle
      | scan i stop => exact ⟨hfits.1,le_trans hfits.2.1 hle,hfits.2.2⟩
      | verify i stop => exact ⟨hfits.1,le_trans hfits.2.1 hle,hfits.2.2⟩
      | _ => trivial
    · exact hkeeps.fits
  · intro f hf hnext
    by_cases hold : f < p.next
    · rcases hp.held f hf hold with hfound | ⟨v,hv,hholds⟩
      · exact .inl (hkeeps.found f hf hfound)
      · rcases hother hv with rfl | hv
        · exact (hkeeps.held f hf hholds).imp id fun hw' => ⟨w',hself,hw'⟩
        · exact .inr ⟨v,hv,hholds⟩
    · exact .inr ⟨w',hself,hkeeps.claimed f hf hold hnext⟩
  · intro f hf hdone
    rcases mem_or_eq_of_mem_set hdone with hdone | hdone
    · exact lt_of_lt_of_le (hp.passed f hf hdone) hkeeps.next_le
    · exact hkeeps.passed f hf hdone.symm

theorem Runs.inv (h : Runs count piece fails p q) (hp : Inv count piece fails p) :
    Inv count piece fails q := by
  induction h with
  | refl => exact hp
  | tail _ hstep ih => exact hstep.inv ih

theorem Runs.length_eq (h : Runs count piece fails p q) : q.workers.length = p.workers.length := by
  induction h with
  | refl => rfl
  | tail _ hstep ih =>
    obtain ⟨_,_⟩ := hstep
    rw [← ih, length_set]

theorem firstFailing_iff {f : Nat} :
    (range count).find? fails = some f ↔ FirstFailing count fails f := by
  rw [find?_range_eq_some]
  simp only [mem_range, Bool.not_eq_true', FirstFailing]
  tauto

theorem Inv.lowest_eq {p : Pool} (hp : Inv count piece fails p) (hfin : p.Finished)
    (hne : p.workers ≠ []) : p.lowest = (range count).find? fails := by
  obtain ⟨w,hw⟩ := exists_mem_of_ne_nil _ hne
  have hdone : Worker.done ∈ p.workers := hfin w hw ▸ hw
  cases hfind : (range count).find? fails with
  | none =>
    refine Option.eq_none_iff_forall_ne_some.2 fun l hl => ?_
    obtain ⟨hlt,hbad⟩ := hp.failed l hl
    exact find?_eq_none.1 hfind l (mem_range.2 hlt) hbad
  | some f =>
    have hf := firstFailing_iff.1 hfind
    rcases hp.held f hf (hp.passed f hf hdone) with hfound | ⟨v,hv,hholds⟩
    · exact hfound
    · rw [hfin v hv] at hholds
      exact hholds.elim

def Worker.work (count piece : Nat) : Worker → Nat
  | .idle => 2
  | .claimed start => if start < count then 4*(min (start+piece) count - start) + 4 else 1
  | .scan i stop => 4*(stop-i) + 3
  | .verify i stop => 4*(stop-i) + 2
  | .done => 0

def Pool.work (count piece : Nat) (p : Pool) : Nat :=
  8*(count-p.next) + (p.workers.map (Worker.work count piece)).sum

theorem sum_map_set {α : Type} (f : α → Nat) {xs : List α} {x y : α}
    (h : xs[j]? = some x) : ((xs.set j y).map f).sum + f x = (xs.map f).sum + f y := by
  induction xs generalizing j with
  | nil => simp at h
  | cons z xs ih =>
    cases j with
    | zero =>
      rw [getElem?_cons_zero] at h
      cases h
      simp only [set_cons_zero, map_cons, sum_cons]
      omega
    | succ j =>
      rw [getElem?_cons_succ] at h
      have := ih h
      simp only [set_cons_succ, map_cons, sum_cons]
      omega

theorem Act.work_lt (hpiece : 0 < piece) (hfits : w.Fits count piece next)
    (h : Act count piece fails next lowest w next' lowest' w') :
    8*(count-next') + w'.work count piece < 8*(count-next) + w.work count piece := by
  cases h with
  | claim =>
    simp only [Worker.work]
    split <;> omega
  | exhausted hcount => simp only [Worker.work]; split <;> omega
  | beaten _ _ => simp only [Worker.work]; split <;> omega
  | enter hstart => simp only [Worker.work, if_pos hstart]; omega
  | ended hover => simp only [Worker.work]; omega
  | quit hin _ _ => simp only [Worker.work]; omega
  | look hin => simp only [Worker.work]; omega
  | pass _ =>
    have hlt := hfits.1
    simp only [Worker.work]
    omega
  | found _ =>
    have hlt := hfits.1
    simp only [Worker.work]
    omega

theorem Step.work_lt (hpiece : 0 < piece) (hp : Inv count piece fails p)
    (h : Step count piece fails p q) : q.work count piece < p.work count piece := by
  obtain ⟨hw,hact⟩ := h
  rename_i w' _ _
  have hlt := hact.work_lt hpiece (hp.fits _ (mem_of_getElem? hw))
  have hsum := sum_map_set (Worker.work count piece) (y := w') hw
  unfold Pool.work
  dsimp only
  omega

theorem Act.exists_of_ne_done (next : Nat) (lowest : Option Nat) {w : Worker} (h : w ≠ .done) :
    ∃ next' lowest' w', Act count piece fails next lowest w next' lowest' w' := by
  cases w with
  | idle => exact ⟨_,_,_,.claim⟩
  | claimed start =>
    rcases Nat.lt_or_ge start count with hlt | hge
    · exact ⟨_,_,_,.enter hlt⟩
    · exact ⟨_,_,_,.exhausted hge⟩
  | scan i stop =>
    rcases Nat.lt_or_ge i stop with hlt | hge
    · exact ⟨_,_,_,.look hlt⟩
    · exact ⟨_,_,_,.ended hge⟩
  | verify i stop =>
    cases hi : fails i with
    | false => exact ⟨_,_,_,.pass hi⟩
    | true => exact ⟨_,_,_,.found hi⟩
  | done => exact absurd rfl h

theorem exists_step {p : Pool} (h : ¬ p.Finished) : ∃ q, Step count piece fails p q := by
  simp only [Pool.Finished, not_forall] at h
  obtain ⟨w,hw,hne⟩ := h
  obtain ⟨j,hj⟩ := getElem?_of_mem hw
  obtain ⟨next',lowest',w',hact⟩ := Act.exists_of_ne_done p.next p.lowest hne
  exact ⟨_,.act hj hact⟩

theorem exists_finished (hpiece : 0 < piece) {p : Pool} (hp : Inv count piece fails p) :
    ∃ q, Runs count piece fails p q ∧ q.Finished := by
  induction hn : p.work count piece using Nat.strong_induction_on generalizing p with
  | _ n ih =>
    by_cases hfin : p.Finished
    · exact ⟨p,.refl,hfin⟩
    · obtain ⟨q,hstep⟩ : ∃ q, Step count piece fails p q := exists_step hfin
      obtain ⟨r,hruns,hr⟩ := ih _ (hn ▸ hstep.work_lt hpiece hp) (hstep.inv hp) rfl
      exact ⟨r,.head hstep hruns,hr⟩

variable (count piece fails) in
inductive Evaluated (p : Pool) : List Nat → Pool → Prop where
  | refl : Evaluated p [] p
  | step {log : List Nat} {q : Pool} {j : Nat} {w w' : Worker} {next' : Nat}
      {lowest' : Option Nat} (hrun : Evaluated p log q) (hw : q.workers[j]? = some w)
      (h : Act count piece fails q.next q.lowest w next' lowest' w') :
      Evaluated p (log ++ w.evaluates) ⟨next',lowest',q.workers.set j w'⟩

theorem Evaluated.runs (h : Evaluated count piece fails p log q) : Runs count piece fails p q := by
  induction h with
  | refl => exact .refl
  | step _ hw hact ih => exact ih.tail (.act hw hact)

theorem Runs.evaluated (h : Runs count piece fails p q) :
    ∃ log, Evaluated count piece fails p log q := by
  induction h with
  | refl => exact ⟨[],.refl⟩
  | tail _ hstep ih =>
    obtain ⟨log,hlog⟩ := ih
    obtain ⟨hw,hact⟩ := hstep
    exact ⟨_,.step hlog hw hact⟩

theorem Worker.Fits.lt_of_holds {next : Nat} {w : Worker} (h : w.Fits count piece next)
    (hi : w.Holds piece i) : i < next := by
  cases w with
  | claimed start => exact lt_of_lt_of_le hi.2 h
  | scan j stop => exact lt_of_lt_of_le hi.2 h.2.1
  | verify j stop => exact lt_of_lt_of_le hi.2 h.2.1
  | _ => exact hi.elim

/-- What holds of the indexes evaluated so far: each was evaluated once, no worker has one
of them before it, no two workers have the same index, and a wanted index below the counter
was evaluated or is before some worker. -/
structure LogInv (count piece : Nat) (fails : Nat → Bool) (log : List Nat) (p : Pool) : Prop where
  nodup : log.Nodup
  below : ∀ i ∈ log, i < p.next
  fresh : ∀ w ∈ p.workers, ∀ i, w.Holds piece i → i ∉ log
  apart : ∀ (a b : Nat) (u v : Worker), p.workers[a]? = some u → p.workers[b]? = some v → a ≠ b →
    ∀ i, u.Holds piece i → ¬ v.Holds piece i
  covered : ∀ i, Wanted count fails i → i < p.next → i ∈ log ∨ ∃ w ∈ p.workers, w.Holds piece i
  passed : ∀ i, Wanted count fails i → Worker.done ∈ p.workers → i < p.next

theorem LogInv.start (workers : Nat) : LogInv count piece fails [] (.start workers) where
  nodup := nodup_nil
  below i hi := by cases hi
  fresh w _ i _ := not_mem_nil
  apart a b u v hu _ _ i hi := by
    rw [eq_of_mem_replicate (mem_of_getElem? hu)] at hi
    exact hi.elim
  covered i _ hi := absurd hi (Nat.not_lt_zero i)
  passed i _ hdone := by cases eq_of_mem_replicate hdone

theorem LogInv.act {p : Pool} {next' : Nat}
    {lowest' : Option Nat} (h : LogInv count piece fails log p)
    (hfits : ∀ v ∈ p.workers, v.Fits count piece p.next) (hw : p.workers[j]? = some w)
    (hact : Act count piece fails p.next p.lowest w next' lowest' w') :
    LogInv count piece fails (log ++ w.evaluates) ⟨next',lowest',p.workers.set j w'⟩ := by
  have hmem := List.mem_of_getElem? hw
  have hmoves := hact.moves (hfits w hmem)
  have hlt := (List.getElem?_eq_some_iff.1 hw).1
  have hself : (p.workers.set j w')[j]? = some w' := by simp [hlt]
  have hlog : ∀ i, i ∈ log → i < p.next := h.below
  -- a worker at another place is the one it was, and has nothing of what this one had
  have hat {k : Nat} {v : Worker} (hv : (p.workers.set j w')[k]? = some v) :
      (k = j ∧ v = w') ∨ (k ≠ j ∧ p.workers[k]? = some v) := by
    by_cases hk : k = j
    · subst hk
      exact .inl ⟨rfl,Option.some.inj (hv.symm.trans hself)⟩
    · rw [getElem?_set_ne (Ne.symm hk)] at hv
      exact .inr ⟨hk,hv⟩
  have hnew {k : Nat} {v : Worker} (hk : k ≠ j) (hv : p.workers[k]? = some v) {i : Nat}
      (hi : v.Holds piece i) : ¬ w.Holds piece i ∧ ¬ w'.Holds piece i := by
    have hold := h.apart k j v w hv hw hk i hi
    refine ⟨hold,fun hw' => ?_⟩
    rcases hmoves.held i hw' with hw' | hge
    · exact hold hw'
    · have := (hfits v (mem_of_getElem? hv)).lt_of_holds hi
      omega
  have hfresh : ∀ (k : Nat) (v : Worker), (p.workers.set j w')[k]? = some v → ∀ i, v.Holds piece i →
      i ∉ log ++ w.evaluates := by
    intro k v hv i hi hin
    rcases hat hv with ⟨rfl,rfl⟩ | ⟨hk,hold⟩
    · rcases mem_append.1 hin with hin | hin
      · rcases hmoves.held i hi with hheld | hge
        · exact h.fresh w hmem i hheld hin
        · have := hlog i hin
          omega
      · exact (hmoves.evaluated i hin).2 hi
    · rcases mem_append.1 hin with hin | hin
      · exact h.fresh v (mem_of_getElem? hold) i hi hin
      · exact (hnew hk hold hi).1 (hmoves.evaluated i hin).1
  refine ⟨?_,?_,?_,?_,?_,?_⟩
  · refine nodup_append'.2 ⟨h.nodup,?_,?_⟩
    · cases w <;> simp [Worker.evaluates]
    · intro i hi heval
      exact h.fresh w hmem i (hmoves.evaluated i heval).1 hi
  · intro i hi
    rcases mem_append.1 hi with hi | hi
    · exact lt_of_lt_of_le (hlog i hi) hmoves.next_le
    · exact lt_of_lt_of_le ((hfits w hmem).lt_of_holds (hmoves.evaluated i hi).1) hmoves.next_le
  · intro v hv i hi
    obtain ⟨k,hk⟩ := getElem?_of_mem hv
    exact hfresh k v hk i hi
  · intro a b u v hu hv hab i hi hi'
    rcases hat hu with ⟨rfl,rfl⟩ | ⟨ha,hu'⟩
    · obtain ⟨hb,hv'⟩ := (hat hv).resolve_left fun heq => hab heq.1.symm
      exact (hnew hb hv' hi').2 hi
    · rcases hat hv with ⟨rfl,rfl⟩ | ⟨_,hv'⟩
      · exact (hnew ha hu' hi).2 hi'
      · exact h.apart a b u v hu' hv' hab i hi hi'
  · intro i hi hnext
    rcases Nat.lt_or_ge i p.next with hin | hge
    · rcases h.covered i hi hin with hdone | ⟨v,hv,hholds⟩
      · exact .inl (mem_append_left _ hdone)
      · obtain ⟨k,hk⟩ := getElem?_of_mem hv
        by_cases hkj : k = j
        · subst hkj
          rw [hw] at hk
          cases hk
          rcases hmoves.wanted i hi hholds with heval | hkeep
          · exact .inl (mem_append_right _ heval)
          · exact .inr ⟨w',mem_of_getElem? hself,hkeep⟩
        · have hk' : (p.workers.set j w')[k]? = some v := by rwa [getElem?_set_ne (Ne.symm hkj)]
          exact .inr ⟨v,mem_of_getElem? hk',hholds⟩
    · exact .inr ⟨w',mem_of_getElem? hself,hmoves.claimed i hge hnext⟩
  · intro i hi hdone
    rcases mem_or_eq_of_mem_set hdone with hdone | hdone
    · exact lt_of_lt_of_le (h.passed i hi hdone) hmoves.next_le
    · exact hmoves.passed i hi hdone.symm

theorem Evaluated.inv {workers : Nat} {q : Pool}
    (h : Evaluated count piece fails (.start workers) log q) : LogInv count piece fails log q := by
  induction h with
  | refl => exact .start workers
  | step hrun hw hact ih =>
    have hinv := hrun.runs.inv (Inv.start workers)
    exact ih.act hinv.fits hw hact

theorem LogInv.mem_of_wanted {p : Pool} (h : LogInv count piece fails log p)
    (hfin : p.Finished) (hne : p.workers ≠ []) (hi : Wanted count fails i) : i ∈ log := by
  obtain ⟨w,hw⟩ := exists_mem_of_ne_nil _ hne
  rcases h.covered i hi (h.passed i hi (hfin w hw ▸ hw)) with hin | ⟨v,hv,hholds⟩
  · exact hin
  · rw [hfin v hv] at hholds
    exact hholds.elim

/-- No run goes on for ever. -/
theorem Inv.acc (hpiece : 0 < piece) {p : Pool} (hp : Inv count piece fails p) :
    Acc (fun q p => Step count piece fails p q) p := by
  induction hn : p.work count piece using Nat.strong_induction_on generalizing p with
  | _ n ih => exact ⟨p,fun q hstep => ih _ (hn ▸ hstep.work_lt hpiece hp) (hstep.inv hp) rfl⟩

end

end SharedSearch

end Library
