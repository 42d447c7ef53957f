import Wrkz.Chain.Batch

/-!
The checks of a batch, and the rings of the curve library, are searched by several threads
for the first that does not verify. In every interleaving the search comes back with what
the plain loop comes back with, and runs no check twice.
-/

set_option autoImplicit false

namespace Wrkz

open Library List

/-- The arguments of `check_ring_signature`. -/
structure RingCheck where
  prefixHash : Hash
  image : Hash
  pubs : List Hash
  sigs : List Signature
  deriving DecidableEq, Repr

def RingCheck.verify (cx : Crypto) (c : RingCheck) : Bool :=
  cx.checkRingSignature c.prefixHash c.image c.pubs c.sigs

/-- How a search is shared out: the number of workers and the length of a piece. -/
structure Shares where
  workers : Nat
  batch : Nat
  deriving DecidableEq, Repr

def Shares.of (workers count : Nat) : Shares :=
  ⟨workers,max ((count + (workers*4 - 1)) / (workers*4)) 1⟩

/-- How `first_invalid_check` shares its checks out; `none` for the plain loop. -/
def checkShares (threads : Nat) (checks : List PureCheck) : Option Shares :=
  let work := (checks.map PureCheck.weight).sum
  let workers := min (min threads (work / workPerWorker)) (checks.length / 2)
  if checks.length < parallelThreshold ∨ workers < 2 ∨ work < parallelWorkThreshold then none
  else some (.of workers checks.length)

/-- How `first_invalid_ring` shares its rings out. -/
def ringShares (threads : Nat) (checks : List RingCheck) : Option Shares :=
  let workers := min threads (checks.length / 2)
  if checks.length < parallelThreshold ∨ workers < 2 then none
  else some (.of workers checks.length)

section Search

variable {α : Type} (verify : α → Bool)

/-- `position`, with the indexes it evaluates. -/
def positionFrom : Nat → List α → Option Nat × List Nat
  | _, [] => (none,[])
  | i, c :: cs =>
    if verify c = false then (some i,[i])
    else
      let (found,log) := positionFrom (i+1) cs
      (found,i :: log)

/-- Index `i` is a check that does not verify. -/
def invalidAt (checks : List α) (i : Nat) : Bool := (checks[i]?).any fun c => verify c = false

def SearchedBy (shares : Option Shares) (checks : List α) (found : Option Nat) (log : List Nat) :
    Prop :=
  match shares with
  | none => (found,log) = positionFrom verify 0 checks
  | some s => ∃ p, SharedSearch.Evaluated checks.length s.batch (invalidAt verify checks)
      (.start s.workers) log p ∧ p.Finished ∧ p.lowest = found

def SearchEnds (shares : Option Shares) (checks : List α) : Prop :=
  ∀ s, shares = some s → ∀ p, SharedSearch.Runs checks.length s.batch (invalidAt verify checks)
      (.start s.workers) p →
    Acc (fun q p => SharedSearch.Step checks.length s.batch (invalidAt verify checks) p q) p ∧
    (p.Finished ∨ ∃ q, SharedSearch.Step checks.length s.batch (invalidAt verify checks) p q)

/-- The search is the plain one: its result is the first index that does not verify, every
index below it was evaluated once, and none was evaluated twice. -/
structure SearchedInOrder (checks : List α) (found : Option Nat) (log : List Nat) : Prop where
  first : found = checks.findIdx? fun c => verify c = false
  once : ∀ i < found.getD checks.length, log.count i = 1
  nodup : log.Nodup

variable {verify}

theorem positionFrom_eq (i : Nat) (checks : List α) :
    positionFrom verify i checks =
      ((checks.findIdx? fun c => verify c = false).map (· + i),
        range' i (((checks.findIdx? fun c => verify c = false).map (· + 1)).getD
          checks.length)) := by
  induction checks generalizing i with
  | nil => rfl
  | cons c cs ih =>
    by_cases hc : verify c = false
    · simp [positionFrom, findIdx?_cons, hc]
    · cases hfind : cs.findIdx? fun c => verify c = false with
      | none =>
        simp only [positionFrom, findIdx?_cons, hc, ih, hfind, Bool.true_eq_false, decide_false,
          if_false, Bool.false_eq_true, Option.map_none, Option.getD_none, length_cons, range'_succ]
      | some k =>
        have hk : k + (i+1) = k + 1 + i := by omega
        simp only [positionFrom, findIdx?_cons, hc, ih, hfind, Bool.true_eq_false, decide_false,
          if_false, Bool.false_eq_true, Option.map_some, Option.getD_some, range'_succ, hk]

/-- The plain loop evaluates the indexes up to the first that does not verify. -/
theorem searchedInOrder_position (checks : List α) :
    SearchedInOrder verify checks (positionFrom verify 0 checks).1
      (positionFrom verify 0 checks).2 := by
  rw [positionFrom_eq]
  refine ⟨by simp,fun i hi => ?_,nodup_range'⟩
  refine count_eq_one_of_mem nodup_range' (mem_range'_1.2 ⟨Nat.zero_le i,?_⟩)
  cases hfind : checks.findIdx? fun c => verify c = false with
  | none =>
    simp only [hfind, Option.map_none, Option.getD_none] at hi ⊢
    omega
  | some k =>
    simp only [hfind, Option.map_some, Option.getD_some] at hi ⊢
    omega

variable {shares : Option Shares} {checks : List α}

theorem wanted_of_lt {i : Nat}
    (hi : i < (checks.findIdx? fun c => verify c = false).getD checks.length) :
    SharedSearch.Wanted checks.length (invalidAt verify checks) i := by
  rw [← find?_range_any] at hi
  cases hfind : (range checks.length).find? (invalidAt verify checks) with
  | none =>
    rw [show (range checks.length).find? (fun i => (checks[i]?).any fun c => verify c = false) =
      none from hfind] at hi
    refine ⟨hi,fun m hm => ?_⟩
    have := find?_eq_none.1 hfind m (mem_range.2 (lt_trans hm hi))
    simpa using this
  | some f =>
    rw [show (range checks.length).find? (fun i => (checks[i]?).any fun c => verify c = false) =
      some f from hfind] at hi
    have hfirst := SharedSearch.firstFailing_iff.1 hfind
    exact ⟨lt_trans hi hfirst.1,fun m hm => hfirst.2.2 m (lt_trans hm hi)⟩

theorem SearchedBy.inOrder {found : Option Nat}
    {log : List Nat} (hworkers : ∀ s, shares = some s → 0 < s.workers)
    (h : SearchedBy verify shares checks found log) : SearchedInOrder verify checks found log := by
  cases shares with
  | none =>
    have heq : (found,log) = positionFrom verify 0 checks := h
    have hplain : SearchedInOrder verify checks _ _ := searchedInOrder_position checks
    rw [← heq] at hplain
    exact hplain
  | some s =>
    obtain ⟨p,hrun,hfin,rfl⟩ := h
    have hlen := hrun.runs.length_eq
    rw [SharedSearch.Pool.start, length_replicate] at hlen
    have hne : p.workers ≠ [] := length_pos_iff.1 (hlen ▸ hworkers s rfl)
    have hlowest := (hrun.runs.inv (.start _)).lowest_eq hfin hne
    have hfirst : p.lowest = checks.findIdx? fun c => verify c = false :=
      hlowest.trans (find?_range_any _ checks)
    have hlog := hrun.inv
    refine ⟨hfirst,fun i hi => ?_,hlog.nodup⟩
    rw [hfirst] at hi
    exact count_eq_one_of_mem hlog.nodup (hlog.mem_of_wanted hfin hne (wanted_of_lt hi))

theorem searchEnds_of_pos
    (hbatch : ∀ s, shares = some s → 0 < s.batch) : SearchEnds verify shares checks := by
  intro s hs p hruns
  have hinv := hruns.inv (SharedSearch.Inv.start s.workers)
  refine ⟨hinv.acc (hbatch s hs),?_⟩
  by_cases hfin : p.Finished
  · exact .inl hfin
  · exact .inr (SharedSearch.exists_step hfin)

theorem SearchedBy.exists (checks : List α) (hbatch : ∀ s, shares = some s → 0 < s.batch) :
    ∃ found log, SearchedBy verify shares checks found log := by
  cases shares with
  | none => exact ⟨_,_,rfl⟩
  | some s =>
    have hstart : SharedSearch.Inv checks.length s.batch (invalidAt verify checks)
        (.start s.workers) := .start s.workers
    obtain ⟨p,hruns,hfin⟩ := SharedSearch.exists_finished (hbatch s rfl) hstart
    obtain ⟨log,hlog⟩ := hruns.evaluated
    exact ⟨p.lowest,log,p,hlog,hfin,rfl⟩

end Search

theorem Shares.of_pos {workers count : Nat} (h : ¬ workers < 2) :
    0 < (Shares.of workers count).workers ∧ 0 < (Shares.of workers count).batch :=
  ⟨by simp only [Shares.of]; omega,lt_of_lt_of_le Nat.one_pos (le_max_right _ _)⟩

variable {threads : Nat} {checks : List PureCheck} {s : Shares}

theorem checkShares_pos (h : checkShares threads checks = some s) : 0 < s.workers ∧ 0 < s.batch := by
  simp only [checkShares] at h
  split at h
  · cases h
  · rename_i hlarge
    rw [not_or, not_or] at hlarge
    cases h
    exact Shares.of_pos hlarge.2.1

theorem ringShares_pos {checks : List RingCheck}
    (h : ringShares threads checks = some s) : 0 < s.workers ∧ 0 < s.batch := by
  simp only [ringShares] at h
  split at h
  · cases h
  · rename_i hlarge
    rw [not_or] at hlarge
    cases h
    exact Shares.of_pos hlarge.2

def FirstInvalidRing (cx : Crypto) (threads : Nat) (checks : List RingCheck) (found : Option Nat)
    (log : List Nat) : Prop :=
  SearchedBy (RingCheck.verify cx) (ringShares threads checks) checks found log

/-- `FirstInvalidCheck`, with the indexes evaluated. -/
def FirstInvalidCheckLog (cx : Crypto) (threads : Nat) (checks : List PureCheck)
    (found : Option Nat) (log : List Nat) : Prop :=
  SearchedBy (PureCheck.verify cx) (checkShares threads checks) checks found log

/-- The logged search is the search of the batched validation. -/
theorem FirstInvalidCheckLog.firstInvalidCheck {cx : Crypto} {found : Option Nat} {log : List Nat}
    (h : FirstInvalidCheckLog cx threads checks found log) :
    FirstInvalidCheck cx threads checks found := by
  unfold FirstInvalidCheckLog checkShares at h
  unfold FirstInvalidCheck
  dsimp only at h ⊢
  split at h
  · rename_i hsmall
    rw [if_pos hsmall]
    exact (searchedInOrder_position checks).first ▸ congrArg Prod.fst h
  · rename_i hlarge
    rw [if_neg hlarge]
    obtain ⟨p,hrun,hfin,hlowest⟩ := h
    exact ⟨p,hrun.runs,hfin,hlowest⟩

/-- Any number of threads, in any interleaving, searches as the plain loop does, and comes to
an end. -/
theorem parallel_search_is_sequential (cx : Crypto) (threads : Nat) :
    (∀ (checks : List PureCheck),
      SearchEnds (PureCheck.verify cx) (checkShares threads checks) checks ∧
      (∃ found log, FirstInvalidCheckLog cx threads checks found log) ∧
      ∀ found log, FirstInvalidCheckLog cx threads checks found log →
        SearchedInOrder (PureCheck.verify cx) checks found log) ∧
    ∀ (checks : List RingCheck),
      SearchEnds (RingCheck.verify cx) (ringShares threads checks) checks ∧
      (∃ found log, FirstInvalidRing cx threads checks found log) ∧
      ∀ found log, FirstInvalidRing cx threads checks found log →
        SearchedInOrder (RingCheck.verify cx) checks found log := by
  refine ⟨fun checks => ⟨?_,?_,fun found log h => ?_⟩,fun checks => ⟨?_,?_,fun found log h => ?_⟩⟩
  · exact searchEnds_of_pos fun s hs => (checkShares_pos hs).2
  · exact SearchedBy.exists checks fun s hs => (checkShares_pos hs).2
  · exact SearchedBy.inOrder (fun s hs => (checkShares_pos hs).1) h
  · exact searchEnds_of_pos fun s hs => (ringShares_pos hs).2
  · exact SearchedBy.exists checks fun s hs => (ringShares_pos hs).2
  · exact SearchedBy.inOrder (fun s hs => (ringShares_pos hs).1) h

end Wrkz
