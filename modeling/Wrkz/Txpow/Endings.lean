import Wrkz.Chain.Sample
import Wrkz.Txpow.Lifecycle

/-!
How a proof-of-work job ends: the states that one job shows over a whole run, and what
holds once `stop` has returned.
-/

set_option autoImplicit false

namespace Wrkz.Txpow

open Library Service

variable {cx : Crypto} {s s' : Service}

/-- The state of job `r` before every step of the run and after the last one. -/
def Service.states (cx : Crypto) (r : Nat) : Service → List Event → List JobState
  | s, [] => (s.heap[r]?.map Job.state).toList
  | s, e :: events => (s.heap[r]?.map Job.state).toList ++ states cx r (s.step cx e) events

/-- Queued for a while, then possibly running, then in one final state for good. -/
def Lifetime (states : List JobState) : Prop :=
  states = [] ∨ ∃ queued running ended : Nat, ∃ last : JobState, last.finished = true ∧
    states = List.replicate (queued + 1) .queued ++ List.replicate running .running ++
      List.replicate ended last

theorem JobState.not_next_of_finished {st st' : JobState} (h : st.finished = true) :
    st.next st' = false := by
  cases st <;> simp_all [JobState.finished, JobState.next]

theorem JobState.finished_of_next_running {st : JobState} (h : JobState.next .running st = true) :
    st.finished = true := by
  cases st <;> simp_all [JobState.finished, JobState.next]

theorem JobState.of_next_queued {st : JobState} (h : JobState.next .queued st = true) :
    st = .running ∨ st.finished = true := by
  cases st <;> simp_all [JobState.finished, JobState.next]

theorem Advances.state {heap heap' : List Job} (h : Advances heap heap') {r : Nat} {j : Job}
    (hj : heap[r]? = some j) :
    ∃ j', heap'[r]? = some j' ∧ (j'.state = j.state ∨ j.state.next j'.state = true) := by
  obtain ⟨j',hj',hadvances⟩ := h.kept r j hj
  exact ⟨j',hj',hadvances.outcome.imp_left Job.SameOutcome.state⟩

section Lifetimes

variable {r : Nat} {j : Job}

variable (h : Inv cx s)
include h

theorem states_of_finished (events : List Event) (hj : s.heap[r]? = some j)
    (hfinished : j.state.finished = true) :
    s.states cx r events = List.replicate (events.length + 1) j.state := by
  induction events generalizing s j with
  | nil => simp [states, hj]
  | cons e events ih =>
    obtain ⟨j',hj',hsame | hnext⟩ := (h.step e).advances.state hj
    · have hlater := ih (h.step e).inv hj' (hsame ▸ hfinished)
      rw [states, hj, hlater, hsame]
      rfl
    · rw [JobState.not_next_of_finished hfinished] at hnext
      cases hnext

theorem states_of_running (events : List Event) (hj : s.heap[r]? = some j)
    (hrunning : j.state = .running) :
    ∃ running ended : Nat, ∃ last : JobState, last.finished = true ∧
      s.states cx r events = List.replicate running .running ++ List.replicate ended last := by
  induction events generalizing s j with
  | nil => exact ⟨1,0,.done,rfl,by simp [states, hj, hrunning]⟩
  | cons e events ih =>
    obtain ⟨j',hj',hsame | hnext⟩ := (h.step e).advances.state hj
    · obtain ⟨running,ended,last,hlast,hlater⟩ := ih (h.step e).inv hj' (hsame.trans hrunning)
      refine ⟨running + 1,ended,last,hlast,?_⟩
      rw [states, hj, hlater, List.replicate_succ]
      simp [hrunning]
    · have hfinished := JobState.finished_of_next_running (hrunning ▸ hnext)
      refine ⟨1,events.length + 1,j'.state,hfinished,?_⟩
      rw [states, hj, states_of_finished (h.step e).inv events hj' hfinished]
      simp [hrunning]

theorem lifetime_of_queued (events : List Event) (hj : s.heap[r]? = some j)
    (hqueued : j.state = .queued) : Lifetime (s.states cx r events) := by
  right
  induction events generalizing s j with
  | nil => exact ⟨0,0,0,.done,rfl,by simp [states, hj, hqueued]⟩
  | cons e events ih =>
    have hfirst : (s.heap[r]?.map Job.state).toList = [.queued] := by simp [hj, hqueued]
    obtain ⟨j',hj',hsame | hnext⟩ := (h.step e).advances.state hj
    · obtain ⟨queued,running,ended,last,hlast,hlater⟩ :=
        ih (h.step e).inv hj' (hsame.trans hqueued)
      refine ⟨queued + 1,running,ended,last,hlast,?_⟩
      rw [states, hfirst, hlater, List.replicate_succ]
      rfl
    · rcases JobState.of_next_queued (hqueued ▸ hnext) with hrunning | hfinished
      · obtain ⟨running,ended,last,hlast,hlater⟩ :=
          states_of_running (h.step e).inv events hj' hrunning
        exact ⟨0,running,ended,last,hlast,by rw [states, hfirst, hlater]; rfl⟩
      · refine ⟨0,0,events.length + 1,j'.state,hfinished,?_⟩
        rw [states, hfirst, states_of_finished (h.step e).inv events hj' hfinished]
        rfl

theorem lifetime_of_absent (events : List Event) (hj : s.heap[r]? = none) :
    Lifetime (s.states cx r events) := by
  induction events generalizing s with
  | nil => exact .inl (by simp [states, hj])
  | cons e events ih =>
    have hlater : s.states cx r (e :: events) = (s.step cx e).states cx r events := by
      simp [states, hj]
    rw [hlater]
    cases hj' : (s.step cx e).heap[r]? with
    | none => exact ih (h.step e).inv hj'
    | some j' =>
      exact lifetime_of_queued (h.step e).inv events hj' ((h.step e).advances.fresh r j' hj hj')

end Lifetimes

theorem Control.returned (control : Control s) (hreturned : s.stopCall = .returned) :
    s.held = s.cancels.filterMap CancelCall.held ∧
      s.uncounted = s.cancels.countP CancelCall.ended := by
  have hcoordinator := control.joined (by rw [hreturned]; rfl)
  have hwaiting := control.drained (by rw [hreturned]; rfl)
  constructor
  · simp [held, hwaiting, hcoordinator, hreturned, Coordinator.held, StopCall.held]
  · simp [uncounted, hcoordinator, hreturned, Coordinator.uncounted, StopCall.uncounted]

theorem finished_iff_cancels (h : Accounts s) (control : Control s)
    (hreturned : s.stopCall = .returned) :
    (∀ j ∈ s.heap, j.state.finished = true) ↔ ∀ c ∈ s.cancels, c.ended = true := by
  have hnone := h.owned.all_retired_iff
  rw [(control.returned hreturned).1] at hnone
  simp only [Bool.not_eq_false'] at hnone
  rw [hnone, List.filterMap_eq_nil_iff]
  simp [CancelCall.held]

theorem Service.limits_step (s : Service) (e : Event) : (s.step cx e).limits = s.limits := by
  cases e <;>
    simp only [step, submit, enqueue, countSubmit, cancel,
      endCancel, countCancel, takeJob, endExpired,
      countExpired, hash, leave, recordWinner, joinWorkers,
      endSolve, countSolve, clearActive, housekeeping, callStop, raiseStop, joinCoordinator, drain,
      endLeftover, countLeftover, returnStop] <;>
    repeat' (first | rfl | split)

theorem Service.limits_run (s : Service) (events : List Event) :
    (s.run cx events).limits = s.limits := by
  induction events generalizing s with
  | nil => rfl
  | cons e events ih => exact (ih _).trans (s.limits_step e)

/-- Once `stop` has returned, a job is unfinished exactly when a `cancel` that took it
out of the queue has not ended it, and the counters lag by the calls that have not
counted yet. -/
theorem stopped_iff (h : Accounts s) (control : Control s) (hreturned : s.stopCall = .returned) :
    ((∀ j ∈ s.heap, j.state.finished = true) ∧ s.counters.accepted = s.counters.ended) ↔
      ((∀ c ∈ s.cancels, c.ended = true) ∧ s.submits = s.cancels.length) := by
  rw [finished_iff_cancels h control hreturned]
  refine and_congr_right fun hall => ?_
  obtain ⟨hheld,huncounted⟩ := control.returned hreturned
  have hnone : s.held = [] := by
    rw [hheld, List.filterMap_eq_nil_iff]
    simpa [CancelCall.held] using hall
  have hcount : s.uncounted = s.cancels.length := by
    rw [huncounted, List.countP_eq_length]
    exact hall
  have haccepted := h.accepted
  have hended := h.ended
  rw [hnone, hcount, List.length_nil] at hended
  omega

/-- For every interleaving: a job is queued, then at most once running, then final; the
queue is bounded; the nonce of a done job does its work. Once `stop` has returned, every
job is final and counted exactly when no `cancel` that took a job out of the queue has
still to end it, and as many calls of `submit` as of `cancel` have still to count. -/
theorem job_ends_once (cx : Crypto) (limits : Limits) (events : List Event) :
    (∀ r, Lifetime ((start limits).states cx r events)) ∧
    ∀ s, s = (start limits).run cx events →
      (∀ e, Advances s.heap (s.step cx e).heap) ∧
      s.queue.waiting.length ≤ max limits.maxQueue 1 ∧
      (∀ j ∈ s.heap, j.state = .done → txPowNonceSize ≤ j.blob.length ∧
        checkHash (cx.cnUpx (j.withNonce j.nonce)) j.shape.difficulty = true) ∧
      (s.stopCall = .returned →
        (((∀ j ∈ s.heap, j.state.finished = true) ∧
            s.counters.accepted = s.counters.completed + s.counters.failed +
              s.counters.cancelled + s.counters.expired) ↔
          ((∀ c ∈ s.cancels, c.ended = true) ∧ s.submits = s.cancels.length))) := by
  have hstart : Inv cx (start limits) := inv_start limits
  refine ⟨fun r => lifetime_of_absent hstart events (by simp [start]),?_⟩
  rintro s rfl
  have h := hstart.run events
  refine ⟨fun e => (h.step e).advances,?_,?_,stopped_iff h.accounts h.control⟩
  · have hbounded := h.control.bounded
    rw [limits_run] at hbounded
    exact hbounded
  · intro j hj hdone
    have hlong := h.honest.long j hj
    exact ⟨by omega,h.honest.nonces j hj hdone⟩

def sampleBody : TransactionPrefix :=
  ⟨1,0,[.key 100000 [1] (mixHash [2])],[⟨1000,mixHash [3]⟩],[4,0,0,0,0,0,0,0,0]⟩

def sampleLimits : Limits := { Limits.default with fixedDifficulty := some 1 }

/-- One job is solved, a second one is cancelled and a third one is left to `stop`. -/
def sampleEvents : List Event :=
  [.submit sampleBody.write none true 10 0,.countSubmit,
    .submit sampleBody.write none true 11 0,.submit sampleBody.write none true 12 1,
    .countSubmit,.takeJob 2,.cancel 11,.hash 0,.recordWinner 0,.joinWorkers,.countSubmit,
    .endCancel 0 3,.endSolve 3,.callStop,.countCancel 0,.countSolve,.clearActive,.raiseStop,
    .housekeeping 4,.takeJob 5,.joinCoordinator,.drain,.endLeftover 6,.countLeftover,.returnStop]

theorem job_ends_once_sample :
    ((∀ j ∈ ((start sampleLimits).run sampleCrypto sampleEvents).heap,
        j.state.finished = true) ∧
      ((start sampleLimits).run sampleCrypto sampleEvents).counters.accepted = 3) ∧
    ((start sampleLimits).run sampleCrypto sampleEvents).heap.map Job.state =
      [.done,.cancelled,.failed] := by
  have hmain := (job_ends_once sampleCrypto sampleLimits sampleEvents).2 _ rfl
  have hstopped := (hmain.2.2.2 (by decide +kernel)).2 (by decide +kernel)
  exact ⟨⟨hstopped.1,by decide +kernel⟩,by decide +kernel⟩

/-- A job taken out of the queue by `cancel`, which is then overtaken by the whole of
`stop`. -/
def overtakenEvents : List Event :=
  [.submit sampleBody.write none true 10 0,.countSubmit,.cancel 10,.callStop,.raiseStop,
    .takeJob 1,.joinCoordinator,.drain,.returnStop]

theorem stop_overtakes_cancel :
    ∃ s, s = (start sampleLimits).run sampleCrypto overtakenEvents ∧
      s.stopCall = .returned ∧ s.heap.map Job.state = [.queued] ∧ s.counters.accepted = 1 ∧
      s.counters.completed + s.counters.failed + s.counters.cancelled + s.counters.expired = 0 :=
  ⟨_,rfl,by decide +kernel,by decide +kernel,by decide +kernel,by decide +kernel⟩

end Wrkz.Txpow
