import Wrkz.Library.Bisect
import Wrkz.Primitives.Constants

/-!
The timestamp index of the RPC, answered by searching block timestamps that are only
nearly ordered: bisection to a crossing, then a scan of the window around it.
-/

set_option autoImplicit false

namespace Wrkz

open Library List

def oneDay : Nat := 86400
def timestampInversionWindow : Nat := 720

def midnight (timestamp : Nat) : Nat := timestamp / oneDay*oneDay

section

variable {ε : Type} (timestampAt : Nat → Except ε Nat)

def stampedFrom (t i : Nat) : Except ε Bool := do
  let x ← timestampAt i
  pure (decide (t ≤ x))

def stampedIn (day stop i : Nat) : Except ε Bool := do
  let x ← timestampAt i
  pure (decide (day ≤ x ∧ x < stop))

def firstAtOrAfter (tip t : Nat) : Except ε (Option Nat) := do
  let low ← bisect (stampedFrom timestampAt t) (tip+1) 0 (tip+1)
  let start := low - timestampInversionWindow
  let earlier ← scan (stampedFrom timestampAt t) (List.range' start (min low (tip+1) - start))
  pure (earlier.or (if low ≤ tip then some low else none))

/-- The end of the last day there is does not fit a `u64` and stops one second short. -/
def dayEnd (day : Nat) : Nat := saturate64 (day+oneDay)

def firstBlockOfDay (tip day : Nat) : Except ε (Option Nat) := do
  let found ← firstAtOrAfter timestampAt tip day
  match found with
  | none => pure none
  | some first =>
    let t ← timestampAt first
    let behind := List.range' (first+1) (min tip (first+timestampInversionWindow) - first)
    if t < dayEnd day then pure (some first)
    else scan (stampedIn timestampAt day (dayEnd day)) behind

def latestOf : List Nat → Nat → Except ε Nat
  | [], latest => .ok latest
  | i :: rest, latest => do
    let t ← timestampAt i
    latestOf rest (max latest t)

/-- The first block of the day of the latest timestamp in front of `stop`. -/
def firstOfDayBefore (tip stop : Nat) : Except ε Nat := do
  let start := stop - timestampInversionWindow
  let latest ← latestOf timestampAt (List.range' start (stop-start)) 0
  let first ← firstBlockOfDay timestampAt tip (midnight latest)
  pure (first.getD 0)

def timestampLowerBound (tip timestamp : Nat) : Except ε Nat := do
  let day := midnight timestamp
  if day = 0 then pure 0
  else
    let found ← firstBlockOfDay timestampAt tip day
    match found with
    | some first => pure first
    | none =>
      let after ← firstAtOrAfter timestampAt tip day
      let stop := after.getD (tip+1)
      if stop = 0 then pure 0 else firstOfDayBefore timestampAt tip stop

end

def NearlyOrdered (tip : Nat) (ts : Nat → Nat) : Prop :=
  ∀ i j, i < j → j ≤ tip → ts j < ts i → j - i < timestampInversionWindow

/-- The readings are those of a sequence of `u64` timestamps. -/
structure Reads {ε : Type} (timestampAt : Nat → Except ε Nat) (tip : Nat) (ts : Nat → Nat) : Prop where
  read : ∀ i ≤ tip, timestampAt i = .ok (ts i)
  range : ∀ i ≤ tip, ts i < 2 ^ 64

section

variable {ε : Type} {timestampAt : Nat → Except ε Nat} {tip : Nat} {ts : Nat → Nat}

variable {timestamp first : Nat} {i : Nat} {q : Nat → Bool} {day : Nat}

theorem Reads.stampedFrom_eq (h : Reads timestampAt tip ts) (t : Nat) (hi : i ≤ tip) :
    stampedFrom timestampAt t i = .ok (decide (t ≤ ts i)) := by
  rw [stampedFrom, h.read i hi]
  rfl

theorem Reads.stampedIn_eq (h : Reads timestampAt tip ts) (day stop : Nat) (hi : i ≤ tip) :
    stampedIn timestampAt day stop i = .ok (decide (day ≤ ts i ∧ ts i < stop)) := by
  rw [stampedIn, h.read i hi]
  rfl

/-- Whatever is stamped from `t` on before a crossing stands within the window in front
of it. -/
theorem NearlyOrdered.before_crossing (h : NearlyOrdered tip ts) {t c i : Nat}
    (hc : Crossing (fun i => decide (t ≤ ts i)) (tip+1) c) (hi : i < c - timestampInversionWindow) :
    ts i < t := by
  have hle := hc.le
  unfold timestampInversionWindow at hi
  have hlast : ts (c-1) < t := by
    have := hc.below (c-1) (by omega)
    simpa using this
  by_contra hge
  have hnear := h i (c-1) (by omega) (by omega) (by omega)
  unfold timestampInversionWindow at hnear
  omega

theorem firstAtOrAfter_eq (h : Reads timestampAt tip ts) (hnear : NearlyOrdered tip ts) (t : Nat) :
    firstAtOrAfter timestampAt tip t = .ok (lowest (fun i => decide (t ≤ ts i)) (tip+1)) := by
  have hread : ∀ i < tip+1, stampedFrom timestampAt t i = .ok (decide (t ≤ ts i)) :=
    fun i hi => h.stampedFrom_eq t (Nat.lt_succ_iff.1 hi)
  obtain ⟨c,hbisect,hc⟩ := bisect_crossing hread (le_refl (tip+1)) (Nat.zero_le _) (le_refl _)
    (fun i hi => by omega) (fun hlt => absurd hlt (lt_irrefl _))
  have hle := hc.le
  have hscan := scan_eq (p := stampedFrom timestampAt t) (q := fun i => decide (t ≤ ts i))
    (l := range' (c - timestampInversionWindow) (min c (tip+1) - (c - timestampInversionWindow)))
    fun i hi => h.stampedFrom_eq t (by rw [mem_range'_1] at hi; omega)
  simp only [firstAtOrAfter, hbisect, ok_bind, hscan]
  refine congrArg Except.ok (Eq.symm ?_)
  cases hfind : (range' (c - timestampInversionWindow)
      (min c (tip+1) - (c - timestampInversionWindow))).find? (fun i => decide (t ≤ ts i)) with
  | some i =>
    obtain ⟨hi,hmem,hbelow⟩ := find?_range'_eq_some.1 hfind
    rw [mem_range'_1] at hmem
    refine lowest_eq_some.2 ⟨by omega,hi,fun j hj => ?_⟩
    by_cases hwindow : j < c - timestampInversionWindow
    · have := hnear.before_crossing hc hwindow
      simpa using this
    · simpa using hbelow j (by omega) hj
  | none =>
    have hnone (j : Nat) (hj : j < c) : decide (t ≤ ts j) = false := by
      by_cases hwindow : j < c - timestampInversionWindow
      · have := hnear.before_crossing hc hwindow
        simpa using this
      · simpa using find?_range'_eq_none.1 hfind j (by omega) (by omega)
    rw [Option.none_or]
    by_cases htip : c ≤ tip
    · rw [if_pos htip]
      exact lowest_eq_some.2 ⟨by omega,hc.above (by omega),hnone⟩
    · rw [if_neg htip]
      exact lowest_eq_none.2 fun i hi => hnone i (by omega)

/-- Whether block `i` is stamped in the day that starts at `day`. -/
def inDay (ts : Nat → Nat) (day i : Nat) : Bool := decide (midnight (ts i) = day)

theorem inDay_iff {day i : Nat} (hday : midnight day = day) :
    inDay ts day i = true ↔ day ≤ ts i ∧ ts i < day + oneDay := by
  unfold inDay midnight at *
  unfold oneDay at *
  rw [decide_eq_true_eq]
  omega

/-- The first block of a day is not missed for being stamped the last second of a `u64`. -/
def DayEnds (tip : Nat) (ts : Nat → Nat) (day : Nat) : Prop :=
  ∀ i, lowest (inDay ts day) (tip+1) = some i → ts i < dayEnd day

theorem firstBlockOfDay_of_first {day first : Nat} (h : Reads timestampAt tip ts)
    (hnear : NearlyOrdered tip ts)
    (hfirst : lowest (fun i => decide (day ≤ ts i)) (tip+1) = some first) :
    firstBlockOfDay timestampAt tip day =
      if ts first < dayEnd day then .ok (some first)
      else .ok ((range' (first+1) (min tip (first+timestampInversionWindow) - first)).find?
        fun i => decide (day ≤ ts i ∧ ts i < dayEnd day)) := by
  have hle : first ≤ tip := Nat.lt_succ_iff.1 (lowest_eq_some.1 hfirst).1
  have hscan := scan_eq (p := stampedIn timestampAt day (dayEnd day))
    (q := fun i => decide (day ≤ ts i ∧ ts i < dayEnd day))
    (l := range' (first+1) (min tip (first+timestampInversionWindow) - first))
    fun i hi => h.stampedIn_eq day _ (by rw [mem_range'_1] at hi; omega)
  rw [firstBlockOfDay, firstAtOrAfter_eq h hnear, hfirst, ok_bind]
  simp only [h.read first hle, ok_bind, hscan]
  rfl

theorem firstBlockOfDay_of_none (h : Reads timestampAt tip ts) (hnear : NearlyOrdered tip ts)
    (hnone : lowest (fun i => decide (day ≤ ts i)) (tip+1) = none) :
    firstBlockOfDay timestampAt tip day = .ok none := by
  rw [firstBlockOfDay, firstAtOrAfter_eq h hnear, hnone, ok_bind]
  rfl

theorem NearlyOrdered.behind (h : NearlyOrdered tip ts) {day first i : Nat}
    (hfirst : dayEnd day ≤ ts first) (hi : first < i) (htip : i ≤ tip) (hin : ts i < dayEnd day) :
    i < first + 1 + (min tip (first+timestampInversionWindow) - first) := by
  have hclose := h first i hi htip (by omega)
  omega

theorem lowest_inDay_of_first {day first : Nat} (hday : midnight day = day)
    (hfirst : lowest (fun i => decide (day ≤ ts i)) (tip+1) = some first)
    (hin : ts first < day + oneDay) : lowest (inDay ts day) (tip+1) = some first := by
  obtain ⟨hlt,hge,hbelow⟩ := lowest_eq_some.1 hfirst
  refine lowest_eq_some.2 ⟨hlt,(inDay_iff hday).2 ⟨of_decide_eq_true hge,hin⟩,fun j hj => ?_⟩
  have hout := of_decide_eq_false (hbelow j hj)
  rw [← Bool.not_eq_true, inDay_iff hday]
  exact fun hboth => hout hboth.1

/-- What is found behind the first block past the day is the day's first block. -/
theorem lowest_inDay_of_behind {day first : Nat} (hnear : NearlyOrdered tip ts)
    (hday : midnight day = day) (hfits : dayEnd day = day + oneDay)
    (hfirst : lowest (fun i => decide (day ≤ ts i)) (tip+1) = some first)
    (hpast : dayEnd day ≤ ts first) :
    (range' (first+1) (min tip (first+timestampInversionWindow) - first)).find?
      (fun i => decide (day ≤ ts i ∧ ts i < dayEnd day)) = lowest (inDay ts day) (tip+1) := by
  obtain ⟨hlt,hge,hbelow⟩ := lowest_eq_some.1 hfirst
  have hiff (i : Nat) : inDay ts day i = true ↔ day ≤ ts i ∧ ts i < dayEnd day := by
    rw [hfits]
    exact inDay_iff hday
  have hout (j : Nat) (hj : j ≤ first) : inDay ts day j = false := by
    rw [← Bool.not_eq_true, hiff]
    rintro ⟨hlow,hhigh⟩
    rcases Nat.lt_or_eq_of_le hj with hj | rfl
    · exact of_decide_eq_false (hbelow j hj) hlow
    · omega
  symm
  cases hfind : (range' (first+1) (min tip (first+timestampInversionWindow) - first)).find?
      (fun i => decide (day ≤ ts i ∧ ts i < dayEnd day)) with
  | some i =>
    obtain ⟨hi,hmem,hskipped⟩ := find?_range'_eq_some.1 hfind
    rw [mem_range'_1] at hmem
    refine lowest_eq_some.2 ⟨by omega,(hiff i).2 (of_decide_eq_true hi),fun j hj => ?_⟩
    by_cases hjf : j ≤ first
    · exact hout j hjf
    · have := hskipped j (by omega) hj
      simp only [Bool.not_eq_true', decide_eq_false_iff_not] at this
      rw [← Bool.not_eq_true, hiff]
      exact this
  | none =>
    refine lowest_eq_none.2 fun j hj => ?_
    by_cases hjf : j ≤ first
    · exact hout j hjf
    · rw [← Bool.not_eq_true, hiff]
      intro hboth
      have hclose := hnear.behind hpast (by omega) (by omega) hboth.2
      have := find?_range'_eq_none.1 hfind j (by omega) hclose
      simp only [Bool.not_eq_true', decide_eq_false_iff_not] at this
      exact this hboth

/-- The first block of a day is found exactly when it is not stamped the last second. -/
theorem firstBlockOfDay_iff (h : Reads timestampAt tip ts)
    (hnear : NearlyOrdered tip ts) (hday : midnight day = day) :
    firstBlockOfDay timestampAt tip day = .ok (lowest (inDay ts day) (tip+1)) ↔
      DayEnds tip ts day := by
  cases hfirst : lowest (fun i => decide (day ≤ ts i)) (tip+1) with
  | none =>
    have hnone : lowest (inDay ts day) (tip+1) = none := by
      refine lowest_eq_none.2 fun i hi => ?_
      have hout := of_decide_eq_false (lowest_eq_none.1 hfirst i hi)
      rw [← Bool.not_eq_true, inDay_iff hday]
      exact fun hboth => hout hboth.1
    rw [firstBlockOfDay_of_none h hnear hfirst, DayEnds, hnone]
    simp
  | some first =>
    have hle : first ≤ tip := Nat.lt_succ_iff.1 (lowest_eq_some.1 hfirst).1
    rw [firstBlockOfDay_of_first h hnear hfirst]
    by_cases hin : ts first < dayEnd day
    · rw [if_pos hin, DayEnds, lowest_inDay_of_first hday hfirst
        (lt_of_lt_of_le hin (Nat.min_le_left _ _))]
      simpa using hin
    rw [if_neg hin]
    by_cases hfits : dayEnd day = day + oneDay
    · rw [lowest_inDay_of_behind hnear hday hfits hfirst (by omega)]
      refine iff_of_true rfl fun i hi => ?_
      rw [hfits]
      exact ((inDay_iff hday).1 (lowest_eq_some.1 hi).2.1).2
    · -- the day is cut short, and its first block falls into the second that is lost
      have hlast : ts first < day + oneDay := by
        have := h.range first hle
        unfold dayEnd saturate64 at hfits
        omega
      rw [lowest_inDay_of_first hday hfirst hlast, DayEnds, lowest_inDay_of_first hday hfirst hlast]
      refine iff_of_false (fun heq => ?_) fun hall => hin (hall first rfl)
      have hmem := mem_of_find?_eq_some (Except.ok.inj heq)
      rw [mem_range'_1] at hmem
      omega

theorem latestOf_eq (h : Reads timestampAt tip ts) {l : List Nat} (hl : ∀ i ∈ l, i ≤ tip)
    (start : Nat) : latestOf timestampAt l start = .ok (l.foldl (fun a i => max a (ts i)) start) := by
  induction l generalizing start with
  | nil => rfl
  | cons i rest ih =>
    rw [latestOf, h.read i (hl i (by simp)), ok_bind, ih (fun j hj => hl j (by simp [hj]))]
    rfl

theorem foldl_max_spec (ts : Nat → Nat) (l : List Nat) (start : Nat) :
    (∀ i ∈ l, ts i ≤ l.foldl (fun a i => max a (ts i)) start) ∧
      start ≤ l.foldl (fun a i => max a (ts i)) start ∧
      (l.foldl (fun a i => max a (ts i)) start = start ∨
        ∃ i ∈ l, ts i = l.foldl (fun a i => max a (ts i)) start) := by
  induction l generalizing start with
  | nil => simp
  | cons i rest ih =>
    obtain ⟨hall,hstart,hfrom⟩ := ih (max start (ts i))
    rw [foldl_cons]
    refine ⟨fun j hj => ?_,le_trans (le_max_left _ _) hstart,?_⟩
    · rcases mem_cons.1 hj with rfl | hj
      · exact le_trans (le_max_right _ _) hstart
      · exact hall j hj
    · rcases hfrom with heq | ⟨j,hj,hts⟩
      · rcases le_total start (ts i) with hle | hle
        · exact .inr ⟨i,by simp,by rw [heq, max_eq_right hle]⟩
        · exact .inl (by rw [heq, max_eq_left hle])
      · exact .inr ⟨j,by simp [hj],hts⟩

/-- The latest timestamp in front of `stop` stands in the window that is searched. -/
theorem latest_before {stop : Nat} (h : Reads timestampAt tip ts) (hnear : NearlyOrdered tip ts)
    (hpos : 0 < stop) (hstop : stop ≤ tip+1) :
    ∃ i < stop, latestOf timestampAt (range' (stop - timestampInversionWindow)
        (stop - (stop - timestampInversionWindow))) 0 = .ok (ts i) ∧ ∀ j < stop, ts j ≤ ts i := by
  rw [latestOf_eq h (fun i hi => by rw [mem_range'_1] at hi; omega)]
  obtain ⟨hall,_,hfrom⟩ := foldl_max_spec ts (range' (stop - timestampInversionWindow)
    (stop - (stop - timestampInversionWindow))) 0
  generalize (range' (stop - timestampInversionWindow)
    (stop - (stop - timestampInversionWindow))).foldl (fun a i => max a (ts i)) 0 = latest at *
  have hlast : ts (stop-1) ≤ latest :=
    hall (stop-1) (by rw [mem_range'_1]; unfold timestampInversionWindow; omega)
  have hfound : ∃ i < stop, ts i = latest := by
    rcases hfrom with hzero | ⟨i,hi,hts⟩
    · exact ⟨stop-1,by omega,by omega⟩
    · rw [mem_range'_1] at hi
      exact ⟨i,by omega,hts⟩
  obtain ⟨i,hi,rfl⟩ := hfound
  refine ⟨i,hi,rfl,fun j hj => ?_⟩
  by_cases hwindow : j < stop - timestampInversionWindow
  · unfold timestampInversionWindow at hwindow
    by_contra hgt
    have hclose := hnear j (stop-1) (by omega) (by omega) (by omega)
    unfold timestampInversionWindow at hclose
    omega
  · exact hall j (by rw [mem_range'_1]; omega)

theorem midnight_midnight (t : Nat) : midnight (midnight t) = midnight t := by
  unfold midnight oneDay
  omega

theorem midnight_le (t : Nat) : midnight t ≤ t := by
  unfold midnight oneDay
  omega

theorem midnight_mono {a b : Nat} (h : a ≤ b) : midnight a ≤ midnight b :=
  Nat.mul_le_mul_right _ (Nat.div_le_div_right h)

theorem exists_lowest_inDay (ts : Nat → Nat) (hi : i ≤ tip) :
    ∃ first ≤ i, lowest (inDay ts (midnight (ts i))) (tip+1) = some first := by
  have hown : inDay ts (midnight (ts i)) i = true := by simp [inDay]
  cases hlow : lowest (inDay ts (midnight (ts i))) (tip+1) with
  | some first =>
    refine ⟨first,?_,rfl⟩
    by_contra hgt
    rw [(lowest_eq_some.1 hlow).2.2 i (by omega)] at hown
    cases hown
  | none =>
    rw [lowest_eq_none.1 hlow i (by omega)] at hown
    cases hown

theorem dayEnd_of_lt {t day : Nat} (hday : midnight day = day) (hlt : t < day) (hrange : day < 2 ^ 64) :
    dayEnd (midnight t) = midnight t + oneDay := by
  unfold dayEnd saturate64
  unfold midnight oneDay at *
  omega

/-- In front of `stop` everything is stamped before `day`. The search finds the first
block of the latest of those days. -/
theorem firstOfDayBefore_eq {stop day : Nat} (h : Reads timestampAt tip ts)
    (hnear : NearlyOrdered tip ts) (hday : midnight day = day) (hrange : day < 2 ^ 64)
    (hpos : 0 < stop) (hstop : stop ≤ tip+1) (hbefore : ∀ i < stop, ts i < day) :
    ∃ i < stop, (∀ j < stop, ts j ≤ ts i) ∧ ∃ first ≤ i,
      lowest (inDay ts (midnight (ts i))) (tip+1) = some first ∧
      firstOfDayBefore timestampAt tip stop = .ok first := by
  obtain ⟨i,hi,hlatest,hmax⟩ := latest_before h hnear hpos hstop
  obtain ⟨first,hfirst_le,hfirst⟩ := exists_lowest_inDay ts (show i ≤ tip by omega)
  have hends : DayEnds tip ts (midnight (ts i)) := by
    intro k hk
    rw [dayEnd_of_lt hday (hbefore i hi) hrange]
    exact ((inDay_iff (midnight_midnight _)).1 (lowest_eq_some.1 hk).2.1).2
  refine ⟨i,hi,hmax,first,hfirst_le,hfirst,?_⟩
  rw [firstOfDayBefore, hlatest, ok_bind,
    (firstBlockOfDay_iff h hnear (midnight_midnight _)).2 hends, hfirst]
  rfl

/-- The latest day up to `day` that holds a block. -/
def latestDay (tip : Nat) (ts : Nat → Nat) (day : Nat) : Option Nat :=
  (((List.range (tip+1)).map fun i => midnight (ts i)).filter (· ≤ day)).max?

def lowerBoundOf (tip : Nat) (ts : Nat → Nat) (timestamp : Nat) : Nat :=
  match latestDay tip ts (midnight timestamp) with
  | none => 0
  | some day => (lowest (inDay ts day) (tip+1)).getD 0

theorem latestDay_eq_some {day d : Nat} : latestDay tip ts day = some d ↔
    (∃ i ≤ tip, midnight (ts i) = d) ∧ d ≤ day ∧
      ∀ i ≤ tip, midnight (ts i) ≤ day → midnight (ts i) ≤ d := by
  rw [latestDay, max?_eq_some_iff]
  simp only [mem_filter, mem_map, mem_range, decide_eq_true_eq, Nat.lt_succ_iff]
  constructor
  · rintro ⟨⟨⟨i,hi,rfl⟩,hle⟩,hmax⟩
    exact ⟨⟨i,hi,rfl⟩,hle,fun j hj hjle => hmax _ ⟨⟨j,hj,rfl⟩,hjle⟩⟩
  · rintro ⟨⟨i,hi,rfl⟩,hle,hmax⟩
    refine ⟨⟨⟨i,hi,rfl⟩,hle⟩,?_⟩
    rintro b ⟨⟨j,hj,rfl⟩,hjle⟩
    exact hmax j hj hjle

theorem latestDay_eq_none : latestDay tip ts day = none ↔
    ∀ i ≤ tip, day < midnight (ts i) := by
  rw [latestDay, max?_eq_none_iff]
  simp [filter_eq_nil_iff]

/-- When the bound is exact. With a block in the timestamp's day, the first one is not
stamped the second the day's end loses, or is block 0 with nothing else of the day. Without
one, the latest day before has a block in front of everything stamped behind the day. -/
def BoundReadable (tip : Nat) (ts : Nat → Nat) (timestamp : Nat) : Prop :=
  let day := midnight timestamp
  match lowest (inDay ts day) (tip+1) with
  | some first => ts first < dayEnd day ∨
      (first = 0 ∧ ∀ i ≤ tip, day ≤ ts i → dayEnd day ≤ ts i)
  | none => ∀ j ≤ tip, ts j < day → ∃ i ≤ tip, (∀ k ≤ i, ts k < day) ∧
      midnight (ts j) ≤ midnight (ts i)

theorem timestampLowerBound_of_none {timestamp : Nat} (hday : midnight timestamp ≠ 0)
    (h : Reads timestampAt tip ts) (hnear : NearlyOrdered tip ts)
    (hnone : firstBlockOfDay timestampAt tip (midnight timestamp) = .ok none) :
    timestampLowerBound timestampAt tip timestamp =
      if (lowest (fun i => decide (midnight timestamp ≤ ts i)) (tip+1)).getD (tip+1) = 0 then .ok 0
      else firstOfDayBefore timestampAt tip
        ((lowest (fun i => decide (midnight timestamp ≤ ts i)) (tip+1)).getD (tip+1)) := by
  simp only [timestampLowerBound, if_neg hday, hnone, ok_bind, firstAtOrAfter_eq h hnear]
  rfl

theorem timestampLowerBound_of_some (hday : midnight timestamp ≠ 0)
    (hsome : firstBlockOfDay timestampAt tip (midnight timestamp) = .ok (some first)) :
    timestampLowerBound timestampAt tip timestamp = .ok first := by
  simp only [timestampLowerBound, if_neg hday, hsome, ok_bind]
  rfl

theorem lowest_getD_le : (lowest q (tip+1)).getD (tip+1) ≤ tip+1 := by
  cases hlow : lowest q (tip+1) with
  | none => exact le_refl _
  | some i => exact le_of_lt (lowest_eq_some.1 hlow).1

theorem before_lowest_getD (h : i < (lowest q (tip+1)).getD (tip+1)) : q i = false := by
  cases hlow : lowest q (tip+1) with
  | none =>
    rw [hlow] at h
    exact lowest_eq_none.1 hlow i h
  | some first =>
    rw [hlow] at h
    exact (lowest_eq_some.1 hlow).2.2 i h

theorem lowest_getD_of_prefix (hi : i ≤ tip) (h : ∀ k ≤ i, q k = false) :
    i < (lowest q (tip+1)).getD (tip+1) := by
  cases hlow : lowest q (tip+1) with
  | none =>
    change i < tip+1
    omega
  | some first =>
    change i < first
    by_contra hge
    have htrue := (lowest_eq_some.1 hlow).2.1
    rw [h first (by omega)] at htrue
    cases htrue

theorem lowerBoundOf_of_held
    (hfirst : lowest (inDay ts (midnight timestamp)) (tip+1) = some first) :
    lowerBoundOf tip ts timestamp = first := by
  obtain ⟨hlt,hin,_⟩ := lowest_eq_some.1 hfirst
  have hlatest : latestDay tip ts (midnight timestamp) = some (midnight timestamp) :=
    latestDay_eq_some.2 ⟨⟨first,by omega,of_decide_eq_true hin⟩,le_refl _,fun _ _ hle => hle⟩
  rw [lowerBoundOf, hlatest]
  change (lowest (inDay ts (midnight timestamp)) (tip+1)).getD 0 = first
  rw [hfirst]
  rfl

theorem timestampLowerBound_held (hday : midnight timestamp ≠ 0)
    (hrange : timestamp < 2 ^ 64) (h : Reads timestampAt tip ts) (hnear : NearlyOrdered tip ts)
    (hfirst : lowest (inDay ts (midnight timestamp)) (tip+1) = some first) :
    timestampLowerBound timestampAt tip timestamp = .ok first ↔
      (ts first < dayEnd (midnight timestamp) ∨
        (first = 0 ∧ ∀ i ≤ tip, midnight timestamp ≤ ts i → dayEnd (midnight timestamp) ≤ ts i)) := by
  have hmid := midnight_midnight timestamp
  obtain ⟨hlt,hin,hbelow⟩ := lowest_eq_some.1 hfirst
  have hrangeDay : midnight timestamp < 2 ^ 64 := lt_of_le_of_lt (midnight_le _) hrange
  by_cases hends : ts first < dayEnd (midnight timestamp)
  · have hexact : DayEnds tip ts (midnight timestamp) := by
      intro i hi
      rw [hfirst] at hi
      cases hi
      exact hends
    have hsome := (firstBlockOfDay_iff h hnear hmid).2 hexact
    rw [hfirst] at hsome
    rw [timestampLowerBound_of_some hday hsome]
    exact iff_of_true rfl (.inl hends)
  -- the day's end is cut, so the first block of the day is the first one from it on
  have hday' := (inDay_iff hmid).1 hin
  have hcut : ∀ i ≤ tip, midnight timestamp ≤ ts i → inDay ts (midnight timestamp) i = true := by
    intro i hi hge
    have := h.range i hi
    refine (inDay_iff hmid).2 ⟨hge,?_⟩
    unfold dayEnd saturate64 at hends
    omega
  have hlow : lowest (fun i => decide (midnight timestamp ≤ ts i)) (tip+1) = some first := by
    refine lowest_eq_some.2 ⟨hlt,by simpa using hday'.1,fun j hj => ?_⟩
    rw [decide_eq_false_iff_not]
    intro hge
    have hout := hbelow j hj
    rw [hcut j (by omega) hge] at hout
    cases hout
  have hsearch := firstBlockOfDay_of_first h hnear hlow
  rw [if_neg hends] at hsearch
  cases hfind : (range' (first+1) (min tip (first+timestampInversionWindow) - first)).find?
      (fun i => decide (midnight timestamp ≤ ts i ∧ ts i < dayEnd (midnight timestamp))) with
  | some j =>
    obtain ⟨hj,hmem,_⟩ := find?_range'_eq_some.1 hfind
    rw [mem_range'_1] at hmem
    have hstamp := of_decide_eq_true hj
    rw [hfind] at hsearch
    rw [timestampLowerBound_of_some hday hsearch]
    refine iff_of_false (fun heq => ?_) ?_
    · have := Except.ok.inj heq
      omega
    · rintro (hfits | ⟨_,hall⟩)
      · exact hends hfits
      · have := hall j (by omega) hstamp.1
        omega
  | none =>
    rw [hfind] at hsearch
    rw [timestampLowerBound_of_none hday h hnear hsearch, hlow, Option.getD_some]
    by_cases hzero : first = 0
    · rw [if_pos hzero, hzero]
      refine iff_of_true rfl (.inr ⟨rfl,fun i hi hge => ?_⟩)
      by_contra hlt'
      have hne : i ≠ first := by
        rintro rfl
        exact hends (by omega)
      have hclose := hnear.behind (not_lt.1 hends) (by omega) hi (by omega)
      have hmiss := find?_range'_eq_none.1 hfind i (by omega) hclose
      simp only [Bool.not_eq_true', decide_eq_false_iff_not] at hmiss
      exact hmiss ⟨hge,by omega⟩
    · have hbefore : ∀ i < first, ts i < midnight timestamp := fun i hi => by
        simpa using (lowest_eq_some.1 hlow).2.2 i hi
      obtain ⟨i,hi,_,m,hm,_,hrun⟩ :=
        firstOfDayBefore_eq h hnear hmid hrangeDay (by omega) (by omega) hbefore
      rw [if_neg hzero, hrun]
      refine iff_of_false (fun heq => ?_) ?_
      · have := Except.ok.inj heq
        omega
      · rintro (hfits | ⟨hfirst0,_⟩)
        · exact hends hfits
        · exact hzero hfirst0

section

variable {timestamp : Nat} (hday : midnight timestamp ≠ 0) (hrange : timestamp < 2 ^ 64)
  (h : Reads timestampAt tip ts) (hnear : NearlyOrdered tip ts)
include hday hrange h hnear

theorem timestampLowerBound_empty (hempty : lowest (inDay ts (midnight timestamp)) (tip+1) = none) :
    timestampLowerBound timestampAt tip timestamp = .ok (lowerBoundOf tip ts timestamp) ↔
      ∀ j ≤ tip, ts j < midnight timestamp → ∃ i ≤ tip, (∀ k ≤ i, ts k < midnight timestamp) ∧
        midnight (ts j) ≤ midnight (ts i) := by
  have hmid := midnight_midnight timestamp
  have hrangeDay : midnight timestamp < 2 ^ 64 := lt_of_le_of_lt (midnight_le _) hrange
  have hnone : firstBlockOfDay timestampAt tip (midnight timestamp) = .ok none := by
    have hexact : DayEnds tip ts (midnight timestamp) := fun i hi => by
      rw [hempty] at hi
      cases hi
    rw [(firstBlockOfDay_iff h hnear hmid).2 hexact, hempty]
  rw [timestampLowerBound_of_none hday h hnear hnone]
  -- a day up to the empty one ends before it
  have hbefore_iff : ∀ i ≤ tip, midnight (ts i) ≤ midnight timestamp ↔ ts i < midnight timestamp := by
    intro i hi
    have hout := lowest_eq_none.1 hempty i (by omega)
    rw [inDay, decide_eq_false_iff_not] at hout
    unfold midnight oneDay at *
    omega
  generalize hstop : (lowest (fun i => decide (midnight timestamp ≤ ts i)) (tip+1)).getD (tip+1) =
    stop
  have hle : stop ≤ tip+1 := hstop ▸ lowest_getD_le
  have hbefore : ∀ i < stop, ts i < midnight timestamp := fun i hi => by
    have hfalse := before_lowest_getD (hstop.symm ▸ hi)
    simpa using hfalse
  have hfirsts : ∀ i ≤ tip, (∀ k ≤ i, ts k < midnight timestamp) → i < stop := fun i hi hall => by
    rw [← hstop]
    exact lowest_getD_of_prefix hi fun k hk => by simpa using hall k hk
  by_cases hzero : stop = 0
  · rw [if_pos hzero]
    cases hlatest : latestDay tip ts (midnight timestamp) with
    | none =>
      refine iff_of_true (by rw [lowerBoundOf, hlatest]) fun j hj hlt => ?_
      have := latestDay_eq_none.1 hlatest j hj
      have := (hbefore_iff j hj).2 hlt
      omega
    | some d =>
      obtain ⟨⟨i,hi,rfl⟩,hd,_⟩ := latestDay_eq_some.1 hlatest
      obtain ⟨m,_,hm⟩ := exists_lowest_inDay ts hi
      have hspec : lowerBoundOf tip ts timestamp = m := by
        rw [lowerBoundOf, hlatest]
        change (lowest (inDay ts (midnight (ts i))) (tip+1)).getD 0 = m
        rw [hm]
        rfl
      refine iff_of_false (fun heq => ?_) fun hall => ?_
      · have hm0 : m = 0 := by rw [← hspec]; exact (Except.ok.inj heq).symm
        have hin := of_decide_eq_true (lowest_eq_some.1 hm).2.1
        have hlt := (hbefore_iff 0 (by omega)).1 (by rw [← hm0, hin]; exact hd)
        have := hfirsts 0 (by omega) fun k hk => by
          rw [Nat.le_zero.1 hk]
          exact hlt
        omega
      · obtain ⟨i',hi',hfront,_⟩ := hall i hi ((hbefore_iff i hi).1 hd)
        have := hfirsts i' hi' hfront
        omega
  · rw [if_neg hzero]
    obtain ⟨i,hi,hmax,first,_,hfirst,hrun⟩ :=
      firstOfDayBefore_eq h hnear hmid hrangeDay (by omega) hle hbefore
    have hfirstDay := of_decide_eq_true (lowest_eq_some.1 hfirst).2.1
    have hold := (hbefore_iff i (by omega)).2 (hbefore i hi)
    rw [hrun]
    cases hlatest : latestDay tip ts (midnight timestamp) with
    | none =>
      have := latestDay_eq_none.1 hlatest i (by omega)
      omega
    | some d =>
      obtain ⟨⟨j,hj,rfl⟩,hd,hdmax⟩ := latestDay_eq_some.1 hlatest
      obtain ⟨m,_,hm⟩ := exists_lowest_inDay ts hj
      have hmDay := of_decide_eq_true (lowest_eq_some.1 hm).2.1
      have hspec : lowerBoundOf tip ts timestamp = m := by
        rw [lowerBoundOf, hlatest]
        change (lowest (inDay ts (midnight (ts j))) (tip+1)).getD 0 = m
        rw [hm]
        rfl
      rw [hspec]
      constructor
      · intro heq k hk hlt
        have hsame : first = m := Except.ok.inj heq
        refine ⟨i,by omega,fun x hx => hbefore x (by omega),?_⟩
        rw [← hfirstDay, hsame, hmDay]
        exact hdmax k hk ((hbefore_iff k hk).2 hlt)
      · intro hall
        obtain ⟨i',hi',hfront,hle'⟩ := hall j hj ((hbefore_iff j hj).1 hd)
        have hmono := midnight_mono (hmax i' (hfirsts i' hi' hfront))
        have hback := hdmax i (by omega) hold
        have hsame : midnight (ts i) = midnight (ts j) := by omega
        rw [hsame, hm] at hfirst
        rw [Option.some.inj hfirst]

theorem timestampLowerBound_iff :
    timestampLowerBound timestampAt tip timestamp = .ok (lowerBoundOf tip ts timestamp) ↔
      BoundReadable tip ts timestamp := by
  unfold BoundReadable
  dsimp only
  cases hfirst : lowest (inDay ts (midnight timestamp)) (tip+1) with
  | some first =>
    rw [lowerBoundOf_of_held hfirst]
    exact timestampLowerBound_held hday hrange h hnear hfirst
  | none => exact timestampLowerBound_empty hday hrange h hnear hfirst

end

/-- On nearly ordered timestamps the first block at or after a time is always found. The
first block of a day is found exactly when it is not stamped the last second of a `u64`,
and the lower bound is exact exactly when no block behind the first one past the day has a
later day than all those in front of it. -/
theorem timestamp_search_exact_iff (h : Reads timestampAt tip ts) (hnear : NearlyOrdered tip ts) :
    (∀ t, firstAtOrAfter timestampAt tip t =
      .ok (lowest (fun i => decide (t ≤ ts i)) (tip+1))) ∧
    (∀ day, midnight day = day →
      (firstBlockOfDay timestampAt tip day = .ok (lowest (inDay ts day) (tip+1)) ↔
        DayEnds tip ts day)) ∧
    ∀ timestamp < 2 ^ 64, midnight timestamp ≠ 0 →
      (timestampLowerBound timestampAt tip timestamp = .ok (lowerBoundOf tip ts timestamp) ↔
        BoundReadable tip ts timestamp) :=
  ⟨firstAtOrAfter_eq h hnear,fun _ hday => firstBlockOfDay_iff h hnear hday,
    fun _ hrange hday => timestampLowerBound_iff hday hrange h hnear⟩

end

def sampleStamps : Nat → Nat
  | 0 => 0
  | 1 => 3*86400
  | _ => 86400

def sampleStampAt (i : Nat) : Except Unit Nat := .ok (sampleStamps i)

theorem sampleStamps_near : NearlyOrdered 2 sampleStamps := by
  intro i j _ hj _
  unfold timestampInversionWindow
  omega

theorem sampleStamps_reads : Reads sampleStampAt 2 sampleStamps :=
  ⟨fun _ _ => rfl,by decide⟩

theorem timestamp_search_sample :
    firstAtOrAfter sampleStampAt 2 86400 = .ok (some 1) ∧
      firstBlockOfDay sampleStampAt 2 86400 = .ok (some 2) ∧
      timestampLowerBound sampleStampAt 2 86400 = .ok 2 ∧
      ¬ BoundReadable 2 sampleStamps (2*86400) := by
  obtain ⟨hfirst,hday,hbound⟩ := timestamp_search_exact_iff sampleStamps_reads sampleStamps_near
  have hends : DayEnds 2 sampleStamps 86400 := fun i hi => by
    cases hi
    decide
  have hread : BoundReadable 2 sampleStamps 86400 := .inl (by decide)
  refine ⟨by rw [hfirst]; decide,(hday 86400 (by decide)).2 hends,
    (hbound 86400 (by decide) (by decide)).2 hread,fun h => ?_⟩
  exact absurd ((hbound (2*86400) (by decide) (by decide)).2 h) (by decide +kernel)

/-- The day before an empty one is held by a block behind the first block past it. -/
theorem timestamp_lower_bound_misses : NearlyOrdered 2 sampleStamps ∧
    timestampLowerBound sampleStampAt 2 (2*86400) = .ok 0 ∧
    lowerBoundOf 2 sampleStamps (2*86400) = 2 :=
  ⟨sampleStamps_near,by decide +kernel,by decide +kernel⟩

end Wrkz
