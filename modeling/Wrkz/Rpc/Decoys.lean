import Wrkz.Library.Fallible
import Wrkz.Library.LazyShuffle

/-!
The uniform pick of decoys: a lazy Fisher-Yates over the outputs of an amount, and the
loop that keeps the usable ones until it has enough or has passed over too many.
-/

set_option autoImplicit false

namespace Wrkz

open Library List

structure ShuffleGenerator where
  n : Nat
  remaining : Nat
  swapped : SparseArray
  rng : UInt64

namespace ShuffleGenerator

def new (n : Nat) (seed : UInt64) : ShuffleGenerator := ⟨n,n,∅,seed ||| 1⟩

def nextU64 (rng : UInt64) : UInt64 × UInt64 :=
  let rng := rng + 0x9e3779b97f4a7c15
  let z := (rng ^^^ (rng >>> 30)) * 0xbf58476d1ce4e5b9
  let z := (z ^^^ (z >>> 27)) * 0x94d049bb133111eb
  (z ^^^ (z >>> 31),rng)

def next (g : ShuffleGenerator) : Option (Nat × ShuffleGenerator) :=
  if g.remaining = 0 then none
  else
    let (z,rng) := nextU64 g.rng
    let i := z.toNat % g.remaining
    let last := g.remaining - 1
    some (g.swapped.at' i,{ g with remaining := last, swapped := g.swapped.moveLast i last, rng })

def left (g : ShuffleGenerator) : List Nat := g.swapped.toList g.remaining

theorem left_new (n : Nat) (seed : UInt64) : (new n seed).left = range n :=
  SparseArray.toList_empty n

theorem left_length (g : ShuffleGenerator) : g.left.length = g.remaining :=
  SparseArray.length_toList _ _

variable {g : ShuffleGenerator}

theorem next_eq_none : g.next = none ↔ g.left = [] := by
  rw [← length_eq_zero_iff, left_length]
  unfold next
  split <;> simp_all

theorem next_perm {g g' : ShuffleGenerator} {value : Nat} (h : g.next = some (value,g')) :
    (value :: g'.left).Perm g.left := by
  unfold next at h
  split at h
  · cases h
  · rename_i hpos
    cases h
    have hle : (nextU64 g.rng).1.toNat % g.remaining ≤ g.remaining - 1 := by
      have := Nat.mod_lt (nextU64 g.rng).1.toNat (Nat.pos_of_ne_zero hpos)
      omega
    have hperm := SparseArray.moveLast_perm (m := g.swapped) hle
    rwa [show g.remaining - 1 + 1 = g.remaining by omega] at hperm

/-- What the first `k` calls of `next` return. -/
def results : Nat → ShuffleGenerator → List (Option Nat)
  | 0, _ => []
  | k+1, g =>
    match g.next with
    | none => none :: results k g
    | some (value,g) => some value :: results k g

theorem results_of_left_nil (h : g.left = []) (k : Nat) : results k g = replicate k none := by
  induction k with
  | zero => rfl
  | succ k ih => rw [results, next_eq_none.2 h, ih, replicate_succ]

theorem results_perm {m : Nat} (h : g.left.length = m) :
    ∃ draws : List Nat, draws.Perm g.left ∧
      ∀ k, results (m+k) g = draws.map some ++ replicate k none := by
  induction m generalizing g with
  | zero =>
    have hnil := length_eq_zero_iff.1 h
    refine ⟨[],by rw [hnil],fun k => ?_⟩
    rw [Nat.zero_add, results_of_left_nil hnil, map_nil, nil_append]
  | succ m ih =>
    cases hnext : g.next with
    | none => simp [next_eq_none.1 hnext] at h
    | some x =>
      obtain ⟨value,g'⟩ := x
      have hperm := next_perm hnext
      have hlen : g'.left.length = m := by
        have := hperm.length_eq
        simp only [length_cons] at this
        omega
      obtain ⟨draws,hdraws,hresults⟩ := ih hlen
      refine ⟨value :: draws,(hdraws.cons value).trans hperm,fun k => ?_⟩
      rw [show m + 1 + k = (m+k) + 1 by omega, results, hnext]
      simp only [hresults, map_cons, cons_append]

end ShuffleGenerator

def uniformMissFloor : Nat := 256
def uniformMissesPerWanted : Nat := 100

/-- `saturating_add` and `saturating_mul` of `u32`. -/
def saturate32 (n : Nat) : Nat := min n (2^32 - 1)

/-- What a pick returns, and beside it the unusable candidates it read. -/
structure Picked where
  picks : List Nat
  missed : List Nat
  deriving DecidableEq, Repr

section

variable {ε : Type} (wanted : Nat) (taken : List Nat) (usable : Nat → Except ε Bool)

/-- The loop of `uniform_picks`. Every round draws a value, so the values left are fuel
enough. -/
def uniformLoop : Nat → ShuffleGenerator → Nat → Picked → Except ε Picked
  | 0, _, _, p => .ok p
  | fuel+1, g, missesLeft, p =>
    if p.picks.length < wanted then
      match g.next with
      | none => .ok p
      | some (gi,g) =>
        if gi ∈ taken then uniformLoop fuel g missesLeft p
        else do
          let fits ← usable gi
          if fits then uniformLoop fuel g missesLeft { p with picks := p.picks ++ [gi] }
          else if missesLeft = 0 then .ok { p with missed := p.missed ++ [gi] }
          else uniformLoop fuel g (missesLeft-1) { p with missed := p.missed ++ [gi] }
    else .ok p

def missBudget : Nat := saturate32 (uniformMissFloor + saturate32 (wanted*uniformMissesPerWanted))

def uniformRun (total : Nat) (seed : UInt64) : Except ε Picked :=
  uniformLoop wanted taken usable (total+1) (.new total seed) (missBudget wanted) ⟨[],[]⟩

def uniformPicks (total : Nat) (seed : UInt64) : Except ε (List Nat) :=
  (uniformRun wanted taken usable total seed).map Picked.picks

end

/-- Where the values of `0..total` are: picked, read and unusable, passed over as taken,
or still to be drawn. -/
structure Sorting {ε : Type} (total wanted : Nat) (taken : List Nat) (usable : Nat → Except ε Bool)
    (p : Picked) (undrawn : List Nat) : Prop where
  parts : ∃ skipped : List Nat, (∀ i ∈ skipped, i ∈ taken) ∧
    (p.picks ++ (p.missed ++ (skipped ++ undrawn))).Perm (List.range total)
  picks : ∀ i ∈ p.picks, i ∉ taken ∧ usable i = .ok true
  missed : ∀ i ∈ p.missed, usable i = .ok false
  enough : p.picks.length ≤ wanted

section

variable {ε : Type} {total wanted : Nat} {taken : List Nat} {usable : Nat → Except ε Bool}
  {p : Picked} {undrawn rest : List Nat} {gi : Nat}

section

variable (h : Sorting total wanted taken usable p undrawn) (hdraw : (gi :: rest).Perm undrawn)
include h hdraw

theorem Sorting.skip (htaken : gi ∈ taken) : Sorting total wanted taken usable p rest := by
  obtain ⟨skipped,hskipped,hperm⟩ := h.parts
  refine ⟨⟨gi :: skipped,?_,?_⟩,h.picks,h.missed,h.enough⟩
  · intro i hi
    rcases mem_cons.1 hi with rfl | hi
    · exact htaken
    · exact hskipped i hi
  · refine List.Perm.trans ?_ hperm
    rw [perm_iff_count] at hdraw ⊢
    intro q
    have hq := hdraw q
    simp only [count_append, count_cons] at hq ⊢
    omega

theorem Sorting.pick (htaken : gi ∉ taken) (husable : usable gi = .ok true)
    (hmore : p.picks.length < wanted) :
    Sorting total wanted taken usable { p with picks := p.picks ++ [gi] } rest := by
  obtain ⟨skipped,hskipped,hperm⟩ := h.parts
  refine ⟨⟨skipped,hskipped,?_⟩,?_,h.missed,by simp; omega⟩
  · refine List.Perm.trans ?_ hperm
    rw [perm_iff_count] at hdraw ⊢
    intro q
    have hq := hdraw q
    simp only [count_append, count_cons, count_nil] at hq ⊢
    omega
  · intro i hi
    rcases mem_append.1 hi with hi | hi
    · exact h.picks i hi
    · rw [mem_singleton.1 hi]
      exact ⟨htaken,husable⟩

theorem Sorting.miss (husable : usable gi = .ok false) :
    Sorting total wanted taken usable { p with missed := p.missed ++ [gi] } rest := by
  obtain ⟨skipped,hskipped,hperm⟩ := h.parts
  refine ⟨⟨skipped,hskipped,?_⟩,h.picks,?_,h.enough⟩
  · refine List.Perm.trans ?_ hperm
    rw [perm_iff_count] at hdraw ⊢
    intro q
    have hq := hdraw q
    simp only [count_append, count_cons, count_nil] at hq ⊢
    omega
  · intro i hi
    rcases mem_append.1 hi with hi | hi
    · exact h.missed i hi
    · rw [mem_singleton.1 hi]
      exact husable

end

/-- A loop that returns has sorted what it drew, and stops short of what is wanted only
when nothing is left to draw or one candidate more than the budget was unusable. -/
theorem uniformLoop_sorting {fuel missesLeft budget : Nat} {g : ShuffleGenerator} {q : Picked}
    (hfuel : g.left.length < fuel) (hbudget : p.missed.length + missesLeft = budget)
    (h : Sorting total wanted taken usable p g.left)
    (hrun : uniformLoop wanted taken usable fuel g missesLeft p = .ok q) :
    ∃ undrawn, Sorting total wanted taken usable q undrawn ∧ q.missed.length ≤ budget + 1 ∧
      (q.picks.length < wanted → undrawn = [] ∨ q.missed.length = budget + 1) := by
  induction fuel generalizing g missesLeft p with
  | zero => omega
  | succ fuel ih =>
    unfold uniformLoop at hrun
    split at hrun
    case isFalse hmany =>
      cases hrun
      exact ⟨_,h,by omega,fun hshort => absurd hshort hmany⟩
    case isTrue hmore =>
      split at hrun
      case h_1 hnext =>
        cases hrun
        exact ⟨_,h,by omega,fun _ => .inl (ShuffleGenerator.next_eq_none.1 hnext)⟩
      case h_2 gi g' hnext =>
        have hdraw := ShuffleGenerator.next_perm hnext
        have hless : g'.left.length < fuel := by
          have hlen := hdraw.length_eq
          rw [length_cons] at hlen
          omega
        by_cases htaken : gi ∈ taken
        · rw [if_pos htaken] at hrun
          exact ih hless hbudget (h.skip hdraw htaken) hrun
        · rw [if_neg htaken, bind_ok_iff] at hrun
          obtain ⟨fits,hfits,hrun⟩ := hrun
          cases fits with
          | true =>
            exact ih (p := { p with picks := p.picks ++ [gi] }) hless hbudget
              (h.pick hdraw htaken hfits hmore) hrun
          | false =>
            rw [if_neg (by simp)] at hrun
            split at hrun
            · cases hrun
              exact ⟨_,h.miss hdraw hfits,by simp; omega,fun _ => .inr (by simp; omega)⟩
            · refine ih hless ?_ (h.miss hdraw hfits) hrun
              simp only [length_append, length_singleton]
              omega

theorem uniformLoop_ok {fuel missesLeft : Nat} {g : ShuffleGenerator}
    (h : ∀ i, ∃ b, usable i = .ok b) :
    ∃ q, uniformLoop wanted taken usable fuel g missesLeft p = .ok q := by
  induction fuel generalizing g missesLeft p with
  | zero => exact ⟨p,rfl⟩
  | succ fuel ih =>
    unfold uniformLoop
    split
    case isFalse => exact ⟨p,rfl⟩
    case isTrue =>
      split
      case h_1 => exact ⟨p,rfl⟩
      case h_2 gi g' _ =>
        by_cases htaken : gi ∈ taken
        · rw [if_pos htaken]
          exact ih
        · obtain ⟨b,hb⟩ := h gi
          rw [if_neg htaken, hb]
          cases b with
          | true => exact ih
          | false =>
            by_cases hlast : missesLeft = 0
            · exact ⟨_,by simp [bind, Except.bind, hlast]; rfl⟩
            · simpa [bind, Except.bind, hlast] using ih

end

theorem missBudget_eq {wanted : Nat} (h : wanted < 2 ^ 25) :
    missBudget wanted + 1 = 257 + 100*wanted := by
  unfold missBudget saturate32 uniformMissFloor uniformMissesPerWanted
  omega

/-- The generator yields each index once and then nothing. The picks are wanted, distinct,
usable indexes that were not taken; few unusable ones are read for them; and there are
fewer than wanted only when all the usable ones are picked or that many were read. -/
theorem decoys_drawn_without_replacement :
    (∀ (n : Nat) (seed : UInt64), ∃ draws : List Nat, draws.Perm (List.range n) ∧
      ∀ k, (ShuffleGenerator.new n seed).results (n+k) = draws.map some ++ List.replicate k none) ∧
    (∀ wanted < 2 ^ 25, missBudget wanted + 1 = 257 + 100*wanted) ∧
    ∀ {ε : Type} (total wanted : Nat) (taken : List Nat) (seed : UInt64)
      (usable : Nat → Except ε Bool),
      ((∀ i, ∃ b, usable i = .ok b) → ∃ q, uniformRun wanted taken usable total seed = .ok q) ∧
      ∀ q, uniformRun wanted taken usable total seed = .ok q →
        uniformPicks wanted taken usable total seed = .ok q.picks ∧
        q.picks.length ≤ wanted ∧ q.picks.Nodup ∧
        (∀ i ∈ q.picks, i < total ∧ usable i = .ok true ∧ i ∉ taken) ∧
        (∀ i ∈ q.missed, usable i = .ok false) ∧ q.missed.length ≤ missBudget wanted + 1 ∧
        (q.picks.length < wanted →
          (∀ i < total, usable i = .ok true → i ∉ taken → i ∈ q.picks) ∨
            q.missed.length = missBudget wanted + 1) := by
  refine ⟨fun n seed => ?_,fun _ => missBudget_eq,fun total wanted taken seed usable =>
    ⟨fun hread => uniformLoop_ok hread,fun q hrun => ?_⟩⟩
  · have hdraws := ShuffleGenerator.results_perm
      (g := .new n seed) (m := n) (by rw [ShuffleGenerator.left_new, List.length_range])
    rwa [ShuffleGenerator.left_new] at hdraws
  · have hstart : Sorting total wanted taken usable ⟨[],[]⟩ (ShuffleGenerator.new total seed).left :=
      ⟨⟨[],by simp,by simp [ShuffleGenerator.left_new]⟩,by simp,by simp,by simp⟩
    obtain ⟨undrawn,hsorted,hmissed,hshort⟩ := uniformLoop_sorting
      (by rw [ShuffleGenerator.left_new, List.length_range]; omega) (Nat.zero_add _) hstart hrun
    obtain ⟨skipped,hskipped,hperm⟩ := hsorted.parts
    have hnodup := (hperm.nodup_iff.2 List.nodup_range).of_append_left
    refine ⟨by rw [uniformPicks, hrun]; rfl,hsorted.enough,hnodup,fun i hi => ?_,hsorted.missed,
      hmissed,fun hfew => (hshort hfew).imp_left fun hnone i hi husable htaken => ?_⟩
    · have hmem : i ∈ List.range total := hperm.subset (List.mem_append_left _ hi)
      exact ⟨List.mem_range.1 hmem,(hsorted.picks i hi).2,(hsorted.picks i hi).1⟩
    · have hmem := hperm.symm.subset (List.mem_range.2 hi)
      simp only [hnone, List.append_nil, List.mem_append] at hmem
      rcases hmem with hpick | hmiss | hskip
      · exact hpick
      · rw [hsorted.missed i hmiss] at husable
        cases husable
      · exact absurd (hskipped i hskip) htaken

def sampleUsable (i : Nat) : Except Unit Bool := .ok (i % 2 = 1)

theorem decoys_drawn_sample :
    (uniformRun 4 [1,3,5] sampleUsable 10 7).map (·.picks.length) = .ok 2 ∧
      ∀ q, uniformRun 4 [1,3,5] sampleUsable 10 7 = .ok q → q.picks.length < 4 →
        (∀ i < 10, sampleUsable i = .ok true → i ∉ [1,3,5] → i ∈ q.picks) ∨
          q.missed.length = missBudget 4 + 1 := by
  refine ⟨by decide +kernel,fun q hrun => ?_⟩
  obtain ⟨_,_,hruns⟩ := decoys_drawn_without_replacement
  exact ((hruns 10 4 [1,3,5] 7 sampleUsable).2 q hrun).2.2.2.2.2.2

end Wrkz
