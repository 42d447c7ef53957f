import Wrkz.Library.Owned
import Wrkz.Txpow.Service

/-!
What every interleaving of the proof-of-work server keeps. Each unfinished job has one
owner, the queue, the coordinator, a `cancel` or the `stop` that drained it, and only its
owner ends it. Each end is counted once, some steps after it happened.
-/

set_option autoImplicit false

namespace Wrkz.Txpow

open Library Service Coordinator StopCall CancelCall List

variable {cx : Crypto} {s s' : Service}

def Coordinator.held : Coordinator → List Nat
  | .expiring r => [r]
  | .solving x => [x.job]
  | .solved r _ => [r]
  | _ => []

def Coordinator.solving? : Coordinator → Option Nat
  | .solving x => some x.job
  | .solved r _ => some r
  | _ => none

def Coordinator.uncounted : Coordinator → Nat
  | .expired => 1
  | .ended _ => 1
  | _ => 0

def Worker.claimed : Worker → Option (ByteVec txPowNonceSize)
  | .won nonce => some (nonceBytes nonce)
  | _ => none

def Solving.claimed (x : Solving) : List (ByteVec txPowNonceSize) :=
  x.winner.toList ++ x.workers.filterMap Worker.claimed

def Coordinator.claimed : Coordinator → List (ByteVec txPowNonceSize)
  | .solving x => x.claimed
  | .solved _ winner => winner.toList
  | _ => []

def CancelCall.held (c : CancelCall) : Option Nat := if c.ended then none else some c.job

def StopCall.held : StopCall → List Nat
  | .failing leftovers => leftovers
  | .counting leftovers => leftovers
  | _ => []

def StopCall.uncounted : StopCall → Nat
  | .counting _ => 1
  | _ => 0

def StopCall.joined : StopCall → Bool
  | .draining => true
  | .failing _ => true
  | .counting _ => true
  | .returned => true
  | _ => false

def StopCall.drained : StopCall → Bool
  | .failing _ => true
  | .counting _ => true
  | .returned => true
  | _ => false

def Service.held (s : Service) : List Nat :=
  s.queue.waiting ++ s.coordinator.held ++ s.cancels.filterMap CancelCall.held ++ s.stopCall.held

def Service.uncounted (s : Service) : Nat :=
  s.coordinator.uncounted + s.cancels.countP ended + s.stopCall.uncounted

def Counters.ended (c : Counters) : Nat := c.completed + c.failed + c.cancelled + c.expired

def JobState.next : JobState → JobState → Bool
  | .queued, .running => true
  | .queued, .failed => true
  | .queued, .cancelled => true
  | .running, .done => true
  | .running, .failed => true
  | .running, .cancelled => true
  | _, _ => false

structure Job.SameOutcome (j j' : Job) : Prop where
  state : j'.state = j.state
  startedAt : j'.startedAt = j.startedAt
  finishedAt : j'.finishedAt = j.finishedAt
  nonce : j'.nonce = j.nonce
  error : j'.error = j.error

structure Job.Advances (j j' : Job) : Prop where
  id : j'.id = j.id
  blob : j'.blob = j.blob
  shape : j'.shape = j.shape
  submittedAt : j'.submittedAt = j.submittedAt
  outcome : j.SameOutcome j' ∨ j.state.next j'.state = true

/-- Every job is kept and advances; a job that was not there before is queued. -/
structure Advances (heap heap' : List Job) : Prop where
  kept : ∀ (r : Nat) (j : Job), heap[r]? = some j → ∃ j', heap'[r]? = some j' ∧ j.Advances j'
  fresh : ∀ (r : Nat) (j' : Job), heap[r]? = none → heap'[r]? = some j' → j'.state = .queued

theorem Job.SameOutcome.refl (j : Job) : j.SameOutcome j := ⟨rfl,rfl,rfl,rfl,rfl⟩

theorem Job.Advances.refl (j : Job) : j.Advances j := ⟨rfl,rfl,rfl,rfl,.inl (.refl j)⟩

theorem Advances.refl (heap : List Job) : Advances heap heap where
  kept _ j hj := ⟨j,hj,.refl j⟩
  fresh _ _ hnone hsome := by cases hnone.symm.trans hsome

variable {r : Nat} {heap : List Job} {j : Job}

theorem Advances.modify {f : Job → Job}
    (hf : ∀ j, heap[r]? = some j → j.Advances (f j)) : Advances heap (heap.modify r f) where
  kept q j hj := by
    rw [getElem?_modify, hj]
    by_cases hq : r = q
    · subst hq
      exact ⟨f j,by simp,hf j hj⟩
    · exact ⟨j,by simp [hq],.refl j⟩
  fresh q j' hnone hsome := by
    obtain ⟨j,hj,-⟩ := of_getElem?_modify hsome
    cases hnone.symm.trans hj

theorem getElem?_concat_cases {job j : Job}
    (h : (heap ++ [job])[r]? = some j) : heap[r]? = some j ∨ r = heap.length ∧ j = job := by
  rcases lt_or_ge r heap.length with hlt | hge
  · exact .inl ((getElem?_append_left hlt).symm.trans h)
  · rw [getElem?_append_right hge, getElem?_singleton] at h
    split at h
    · exact .inr ⟨by omega,(Option.some.inj h).symm⟩
    · cases h

theorem Advances.concat (heap : List Job) {job : Job} (hjob : job.state = .queued) :
    Advances heap (heap ++ [job]) where
  kept r j hj :=
    ⟨j,(List.getElem?_append_left (List.getElem?_eq_some_iff.1 hj).1).trans hj,.refl j⟩
  fresh r j' hnone hsome := by
    rcases getElem?_concat_cases hsome with hold | ⟨-,rfl⟩
    · cases hnone.symm.trans hold
    · exact hjob

theorem Job.advances_start (h : j.state = .queued) (now : Nat) : j.Advances (j.start now) :=
  ⟨rfl,rfl,rfl,rfl,.inr (by rw [h]; rfl)⟩

theorem Job.advances_finish {state : JobState} (h : j.state.next state = true)
    (error : String) (nonce : Option (ByteVec txPowNonceSize)) (now : Nat) :
    j.Advances (j.finish state error nonce now) :=
  ⟨rfl,rfl,rfl,rfl,.inr h⟩

theorem Job.advances_requestCancel (j : Job) : j.Advances j.requestCancel :=
  ⟨rfl,rfl,rfl,rfl,.inl ⟨rfl,rfl,rfl,rfl,rfl⟩⟩

/-- The queue's bound, and how far `stop` has got. -/
structure Control (s : Service) : Prop where
  bounded : s.queue.waiting.length ≤ s.limits.maxQueue
  called : s.queue.stopping = false ↔ s.stopCall = .notCalled
  joined : s.stopCall.joined = true → s.coordinator = .returned
  drained : s.stopCall.drained = true → s.queue.waiting = []

/-- Every unfinished job has one owner, and the counters follow. -/
structure Accounts (s : Service) : Prop where
  owned : Owned (fun j : Job => !j.state.finished) s.heap s.held
  running : ∀ r j, s.heap[r]? = some j →
    (j.state = .running ↔ s.coordinator.solving? = some r)
  accepted : s.counters.accepted + s.submits = s.heap.length
  ended : s.counters.ended + s.uncounted + s.held.length = s.heap.length

/-- Every nonce found is one that does the work. -/
structure Honest (cx : Crypto) (s : Service) : Prop where
  long : ∀ j ∈ s.heap, 1 + txPowNonceSize ≤ j.blob.length
  nonces : ∀ j ∈ s.heap, j.state = .done → j.meets cx j.nonce = true
  winners : ∀ r j, s.coordinator.solving? = some r → s.heap[r]? = some j →
    ∀ n ∈ s.coordinator.claimed, j.meets cx n = true

structure Inv (cx : Crypto) (s : Service) : Prop where
  control : Control s
  accounts : Accounts s
  honest : Honest cx s

/-- A step keeps the invariant and every job advances. -/
structure Moves (cx : Crypto) (s s' : Service) : Prop where
  inv : Inv cx s'
  advances : Advances s.heap s'.heap

theorem Inv.stays (h : Inv cx s) : Moves cx s s := ⟨h,.refl _⟩

theorem Service.inv_start (limits : Limits) : Inv cx (start limits) where
  control := ⟨Nat.zero_le _,by simp [Service.start],by simp [Service.start, StopCall.joined],
    by simp [Service.start]⟩
  accounts := ⟨Owned.nothing,by simp [Service.start],rfl,rfl⟩
  honest := ⟨by simp [Service.start],by simp [Service.start],by simp [Service.start]⟩

theorem Coordinator.mem_held {c : Coordinator} (h : c.solving? = some r) : r ∈ c.held := by
  cases c <;> simp_all [solving?, held]

theorem Service.mem_held_of_solving (h : s.coordinator.solving? = some r) : r ∈ s.held := by
  simp [Service.held, Coordinator.mem_held h]

namespace Accounts

variable {r : Nat} {j : Job} (h : Accounts s) (hr : r ∈ s.held) (hj : s.heap[r]? = some j)
include h hr hj

theorem next_of_held {state : JobState} (hstate : state = .failed ∨ state = .cancelled) :
    j.state.next state = true := by
  obtain ⟨j',hj',hlive⟩ := (h.owned.mem_iff r).1 hr
  obtain rfl : j = j' := Option.some.inj (hj.symm.trans hj')
  cases hjs : j.state <;> simp_all [JobState.finished]
  all_goals rcases hstate with rfl | rfl <;> rfl

theorem queued_of_held (hidle : s.coordinator.solving? ≠ some r) : j.state = .queued := by
  obtain ⟨j',hj',hlive⟩ := (h.owned.mem_iff r).1 hr
  obtain rfl : j = j' := Option.some.inj (hj.symm.trans hj')
  have hrun := h.running r j hj
  cases hjs : j.state <;> simp_all [JobState.finished]

end Accounts

namespace Inv

theorem passes (h : Inv cx s) (control : Control s') (heap : s'.heap = s.heap)
    (held : s'.held.Perm s.held) (solving : s'.coordinator.solving? = s.coordinator.solving?)
    (claimed : ∀ r j, s.coordinator.solving? = some r → s.heap[r]? = some j →
      ∀ n ∈ s'.coordinator.claimed, j.meets cx n = true)
    (accepted : s'.counters.accepted + s'.submits = s.counters.accepted + s.submits)
    (ended : s'.counters.ended + s'.uncounted = s.counters.ended + s.uncounted) :
    Moves cx s s' := by
  refine ⟨⟨control,⟨?_,?_,?_,?_⟩,?_,?_,?_⟩,heap ▸ .refl _⟩
  · exact heap ▸ h.accounts.owned.perm held.symm
  · rw [heap, solving]
    exact h.accounts.running
  · rw [accepted, heap]
    exact h.accounts.accepted
  · rw [ended, heap, held.length_eq]
    exact h.accounts.ended
  · exact heap ▸ h.honest.long
  · exact heap ▸ h.honest.nonces
  · rw [heap, solving]
    exact claimed

theorem ends (h : Inv cx s) (control : Control s') {r now : Nat} {state : JobState} {error : String}
    {nonce : Option (ByteVec txPowNonceSize)}
    (heap : s'.heap = s.heap.modify r (Job.finish state error nonce now))
    (held : s.held.Perm (r :: s'.held)) (finished : state.finished = true)
    (next : ∀ j, s.heap[r]? = some j → j.state.next state = true)
    (done : state = .done → ∀ j, s.heap[r]? = some j → j.meets cx (nonce.getD j.nonce) = true)
    (solving : ∀ q, s'.coordinator.solving? = some q ↔ s.coordinator.solving? = some q ∧ q ≠ r)
    (claimed : ∀ n ∈ s'.coordinator.claimed, n ∈ s.coordinator.claimed)
    (counters : s'.counters = s.counters) (submits : s'.submits = s.submits)
    (uncounted : s'.uncounted = s.uncounted + 1) : Moves cx s s' := by
  have hstate : state ≠ .running := fun heq => by simp [heq, JobState.finished] at finished
  have hjob : ∀ q j', s'.heap[q]? = some j' → ∃ j, s.heap[q]? = some j ∧
      (q ≠ r ∧ j' = j ∨ q = r ∧ j' = j.finish state error nonce now) := by
    intro q j' hj'
    exact of_getElem?_modify (heap ▸ hj')
  refine ⟨⟨control,⟨?_,?_,?_,?_⟩,?_,?_,?_⟩,?_⟩
  · rw [heap]
    exact h.accounts.owned.retire held fun j => by simp [Job.finish, finished]
  · intro q j' hj'
    rw [solving]
    obtain ⟨j,hj,⟨hq,rfl⟩ | ⟨rfl,rfl⟩⟩ := hjob q j' hj'
    · rw [h.accounts.running q j' hj]
      exact (and_iff_left hq).symm
    · exact iff_of_false hstate fun hand => hand.2 rfl
  · rw [counters, submits, heap, length_modify]
    exact h.accounts.accepted
  · have hold := h.accounts.ended
    have hlen := held.length_eq
    rw [counters, uncounted, heap, length_modify]
    simp only [length_cons] at hlen
    omega
  · intro j' hj'
    obtain ⟨q,hq⟩ := getElem?_of_mem hj'
    obtain ⟨j,hj,⟨-,rfl⟩ | ⟨-,rfl⟩⟩ := hjob q j' hq
    · exact h.honest.long j' (mem_of_getElem? hj)
    · exact h.honest.long j (mem_of_getElem? hj)
  · intro j' hj' hdone
    obtain ⟨q,hq⟩ := getElem?_of_mem hj'
    obtain ⟨j,hj,⟨-,rfl⟩ | ⟨rfl,rfl⟩⟩ := hjob q j' hq
    · exact h.honest.nonces j' (mem_of_getElem? hj) hdone
    · exact done hdone j hj
  · intro q j' hq hj' n hn
    obtain ⟨hsolving,hne⟩ := (solving q).1 hq
    obtain ⟨j,hj,⟨-,rfl⟩ | ⟨heq,-⟩⟩ := hjob q j' hj'
    · exact h.honest.winners q j' hsolving hj n (claimed n hn)
    · exact absurd heq hne
  · rw [heap]
    exact .modify fun j hj => Job.advances_finish (next j hj) error nonce now

end Inv

namespace Inv

theorem withCounters (h : Inv cx s) {f : Counters → Counters}
    (haccepted : (f s.counters).accepted = s.counters.accepted)
    (hended : (f s.counters).ended = s.counters.ended) : Moves cx s (s.withCounters f) :=
  h.passes ⟨h.control.bounded,h.control.called,h.control.joined,h.control.drained⟩
    rfl (.refl _) rfl h.honest.winners
    (congrArg (· + s.submits) haccepted) (congrArg (· + s.uncounted) hended)

variable {blob : Bytes} (h : Inv cx s) (hlong : 1 + txPowNonceSize ≤ blob.length)
include h hlong

theorem pushBack
    (hstopping : s.queue.stopping = false) (hroom : s.queue.waiting.length < s.limits.maxQueue)
    (shape : Shape) (id now : Nat) : Moves cx s (s.pushBack blob shape id now) := by
  have hnot := h.control.called.1 hstopping
  have hheld : (s.heap.length :: s.held).Perm (s.pushBack blob shape id now).held := by
    rw [perm_iff_count]
    intro q
    simp only [Service.held, Service.pushBack, count_append, count_cons, count_nil]
    omega
  have hnew : ∀ (r : Nat) (j : Job), (s.pushBack blob shape id now).heap[r]? = some j →
      s.heap[r]? = some j ∨ r = s.heap.length ∧ j = Job.new id blob shape now :=
    fun r j hj => getElem?_concat_cases hj
  have hidle : s.coordinator.solving? ≠ some s.heap.length := fun heq =>
    lt_irrefl _ (h.accounts.owned.lt_length (Service.mem_held_of_solving heq))
  refine ⟨⟨⟨?_,h.control.called,h.control.joined,?_⟩,⟨?_,?_,?_,?_⟩,?_,?_,?_⟩,.concat _ rfl⟩
  · simpa [Service.pushBack] using hroom
  · intro hdrained
    rw [show (s.pushBack blob shape id now).stopCall = .notCalled from hnot] at hdrained
    cases hdrained
  · exact (h.accounts.owned.create rfl).perm hheld
  · intro r j hj
    rcases hnew r j hj with hold | ⟨rfl,rfl⟩
    · exact h.accounts.running r j hold
    · exact iff_of_false (by simp [Job.new]) hidle
  · have hold := h.accounts.accepted
    simp only [Service.pushBack, length_append, length_singleton]
    omega
  · have hold := h.accounts.ended
    have hlen := hheld.length_eq
    change s.counters.ended + s.uncounted + _ = (s.heap ++ [_]).length
    rw [← hlen, length_append]
    simp only [length_cons, length_nil]
    omega
  · intro j hj
    obtain ⟨r,hr⟩ := getElem?_of_mem hj
    rcases hnew r j hr with hold | ⟨-,rfl⟩
    · exact h.honest.long j (mem_of_getElem? hold)
    · exact hlong
  · intro j hj hdone
    obtain ⟨r,hr⟩ := getElem?_of_mem hj
    rcases hnew r j hr with hold | ⟨-,rfl⟩
    · exact h.honest.nonces j (mem_of_getElem? hold) hdone
    · cases hdone
  · intro r j hr hj
    rcases hnew r j hj with hold | ⟨rfl,-⟩
    · exact h.honest.winners r j hr hold
    · exact absurd hr hidle

theorem enqueue
    (shape : Shape) (id now : Nat) : Moves cx s (s.enqueue blob shape id now).2 := by
  unfold Service.enqueue
  split
  · exact h.stays
  case isFalse hstopping =>
    split
    · dsimp only
      refine h.withCounters ?_ ?_ <;> rfl
    case isFalse hroom =>
      exact h.pushBack hlong (Bool.eq_false_iff.2 hstopping) (not_le.1 hroom) shape id now

end Inv

theorem validatePrefix_long {bytes : Bytes} {height : Option Nat} {maxDifficulty : Nat}
    {shape : Shape} (h : validatePrefix bytes height maxDifficulty = .ok shape) :
    1 + txPowNonceSize ≤ bytes.length := by
  unfold validatePrefix at h
  obtain ⟨_,hlong,-⟩ := bind_ok_iff.1 h
  exact not_lt.1 (refuseIf_ok_iff.1 hlong)

theorem Moves.after {s'' : Service} (h : Moves cx s' s'') (heap : s'.heap = s.heap) :
    Moves cx s s'' :=
  ⟨h.inv,heap ▸ h.advances⟩

theorem Inv.submit (h : Inv cx s) (blob : Bytes) (height : Option Nat) (slot : Bool)
    (id now : Nat) : Moves cx s (s.submit blob height slot id now).2 := by
  have hreceived := h.withCounters (f := fun c => { c with received := c.received + 1 }) rfl rfl
  unfold Service.submit
  dsimp only
  split
  · dsimp only
    refine (hreceived.inv.withCounters ?_ ?_).after rfl <;> split <;> rfl
  case h_2 shape hshape =>
    split
    · exact (hreceived.inv.enqueue (validatePrefix_long hshape) _ id now).after rfl
    · exact hreceived

namespace Inv

variable (h : Inv cx s)
include h

theorem countSubmit : Moves cx s s.countSubmit := by
  unfold Service.countSubmit
  split
  · exact h.stays
  · refine h.passes ⟨h.control.bounded,h.control.called,h.control.joined,h.control.drained⟩
      rfl (.refl _) rfl h.honest.winners ?_ rfl
    dsimp only
    omega

theorem held_withdraw (r : Nat) : (s.withdraw r).held.Perm s.held := by
  have hnodup : s.queue.waiting.Nodup := by
    refine h.accounts.owned.nodup.sublist ?_
    simp [Service.held, append_assoc]
  unfold Service.withdraw Service.held
  dsimp only
  rcases filter_ne_or_perm hnodup r with hsame | ⟨hlen,hperm⟩
  · rw [hsame]
    simp
  · rw [if_pos hlen, perm_iff_count]
    intro q
    have hq := perm_iff_count.1 hperm q
    simp only [count_append, count_cons, filterMap_append, filterMap_cons,
      filterMap_nil, CancelCall.held] at hq ⊢
    simp only [Bool.false_eq_true, if_false, count_cons, count_nil]
    omega

theorem withdraw (r : Nat) : Moves cx s (s.withdraw r) := by
  have hjob : ∀ (q : Nat) (j' : Job), (s.withdraw r).heap[q]? = some j' →
      ∃ j, s.heap[q]? = some j ∧ (j = j' ∨ j.requestCancel = j') := by
    intro q j' hj'
    obtain ⟨j,hj,hor⟩ := of_getElem?_modify hj'
    exact ⟨j,hj,hor.imp (·.2.symm) (·.2.symm)⟩
  refine ⟨⟨⟨?_,h.control.called,h.control.joined,?_⟩,⟨?_,?_,?_,?_⟩,?_,?_,?_⟩,?_⟩
  · exact (length_filter_le _ _).trans h.control.bounded
  · intro hdrained
    simp [Service.withdraw, h.control.drained hdrained]
  · exact (h.accounts.owned.modify (f := Job.requestCancel) fun _ _ => rfl).perm (h.held_withdraw r).symm
  · intro q j' hj'
    obtain ⟨j,hj,rfl | rfl⟩ := hjob q j' hj'
    · exact h.accounts.running q j hj
    · exact h.accounts.running q j hj
  · exact h.accounts.accepted.trans (length_modify ..).symm
  · have huncounted : (s.withdraw r).uncounted = s.uncounted := by
      unfold Service.withdraw Service.uncounted
      dsimp only
      split <;> simp
    rw [huncounted, (h.held_withdraw r).length_eq]
    exact h.accounts.ended.trans (length_modify ..).symm
  · intro j' hj'
    obtain ⟨q,hq⟩ := getElem?_of_mem hj'
    obtain ⟨j,hj,rfl | rfl⟩ := hjob q j' hq <;>
      exact h.honest.long j (mem_of_getElem? hj)
  · intro j' hj'
    obtain ⟨q,hq⟩ := getElem?_of_mem hj'
    obtain ⟨j,hj,rfl | rfl⟩ := hjob q j' hq <;>
      exact h.honest.nonces j (mem_of_getElem? hj)
  · intro q j' hq hj'
    obtain ⟨j,hj,rfl | rfl⟩ := hjob q j' hj' <;>
      exact h.honest.winners q j hq hj
  · exact .modify fun j _ => j.advances_requestCancel

theorem cancel (id : Nat) : Moves cx s (s.cancel id).2 := by
  unfold Service.cancel
  split
  · exact h.stays
  split
  · exact h.stays
  split
  · exact h.stays
  · exact h.withdraw _

theorem endCancel (k now : Nat) : Moves cx s (s.endCancel k now) := by
  unfold Service.endCancel
  split
  case h_2 => exact h.stays
  case h_1 r hk =>
    obtain ⟨left,right,hcancels,hset,-⟩ := exists_around hk
    have hheld : s.held.Perm (r :: (s.queue.waiting ++ s.coordinator.held ++
        (s.cancels.set k ⟨r,true⟩).filterMap held ++ s.stopCall.held)) := by
      rw [perm_iff_count]
      intro q
      rw [hset, Service.held, hcancels]
      simp only [count_append, count_cons, filterMap_append, filterMap_cons,
        CancelCall.held, Bool.false_eq_true, if_false, if_true]
      omega
    have hmem : r ∈ s.held := hheld.mem_iff.2 (mem_cons_self ..)
    -- the cancelled job is nobody else's, so the workers are not on it
    have hidle : s.coordinator.solving? ≠ some r := by
      intro hsolving
      have hnodup := (nodup_cons.1 (hheld.nodup_iff.1 h.accounts.owned.nodup)).1
      simp [mem_held hsolving] at hnodup
    refine h.ends ⟨h.control.bounded,h.control.called,h.control.joined,h.control.drained⟩
      rfl hheld rfl ?_ ?_ ?_ (fun _ hn => hn) rfl rfl ?_
    · exact fun j hj => h.accounts.next_of_held hmem hj (.inr rfl)
    · intro hdone
      cases hdone
    · exact fun q => ⟨fun hq => ⟨hq,fun heq => hidle (heq ▸ hq)⟩,And.left⟩
    · have hcount : (s.cancels.set k ⟨r,true⟩).countP ended =
          s.cancels.countP ended + 1 := by
        rw [hset, hcancels]
        simp
        omega
      simp only [Service.uncounted, hcount]
      omega

theorem countCancel (k : Nat) : Moves cx s (s.countCancel k) := by
  unfold Service.countCancel
  split
  case h_2 => exact h.stays
  case h_1 r hk =>
    obtain ⟨left,right,hcancels,-,herase⟩ := exists_around hk
    refine h.passes ⟨h.control.bounded,h.control.called,h.control.joined,h.control.drained⟩
      rfl ?_ rfl h.honest.winners rfl ?_
    · have hsame : (s.cancels.eraseIdx k).filterMap CancelCall.held =
          s.cancels.filterMap CancelCall.held := by
        rw [herase, hcancels]
        simp [CancelCall.held]
      simp only [Service.held, hsame]
      exact .refl _
    · have hcount : s.cancels.countP CancelCall.ended =
          (s.cancels.eraseIdx k).countP ended + 1 := by
        rw [herase, hcancels]
        simp
        omega
      simp only [Service.uncounted, Counters.ended, hcount]
      omega

end Inv

theorem Control.coordinate (h : Control s) (hwork : s.coordinator ≠ .returned)
    (waiting : s'.queue.waiting.length ≤ s.queue.waiting.length)
    (stopping : s'.queue.stopping = s.queue.stopping) (limits : s'.limits = s.limits)
    (stopCall : s'.stopCall = s.stopCall) : Control s' := by
  have hjoined : s.stopCall.joined ≠ true := fun hjoined => hwork (h.joined hjoined)
  refine ⟨?_,?_,?_,?_⟩
  · rw [limits]
    exact waiting.trans h.bounded
  · rw [stopping, stopCall]
    exact h.called
  · rw [stopCall]
    exact fun hj => absurd hj hjoined
  · rw [stopCall]
    intro hdrained
    cases hcall : s.stopCall <;> simp_all [drained]

theorem Service.claimed_solve (s : Service) (r : Nat) : (s.solve r).claimed = [] := by
  simp [solve, Solving.claimed, Worker.claimed, Function.comp_def]

namespace Inv

variable (h : Inv cx s)
include h

theorem begin {r : Nat} {rest : List Nat} (hlooping : s.coordinator = .looping)
    (hwaiting : s.queue.waiting = r :: rest) (now : Nat) : Moves cx s (s.begin r rest now) := by
  have hheld : s.held.Perm (s.begin r rest now).held := by
    rw [perm_iff_count]
    intro q
    simp only [Service.held, Service.begin, hwaiting, hlooping, Coordinator.held, Service.solve,
      count_append, count_cons, count_nil]
    omega
  have hmem : r ∈ s.held := by simp [Service.held, hwaiting]
  have hidle : ∀ q, s.coordinator.solving? ≠ some q := by simp [hlooping, Coordinator.solving?]
  have hqueued : ∀ j, s.heap[r]? = some j → j.state = .queued :=
    fun j hj => h.accounts.queued_of_held hmem hj (hidle r)
  have hjob : ∀ (q : Nat) (j' : Job), (s.begin r rest now).heap[q]? = some j' →
      ∃ j, s.heap[q]? = some j ∧ (q ≠ r ∧ j' = j ∨ q = r ∧ j' = j.start now) :=
    fun q j' hj' => of_getElem?_modify hj'
  refine ⟨⟨h.control.coordinate (by simp [hlooping]) (by simp [Service.begin, hwaiting]) rfl rfl rfl,
    ⟨?_,?_,?_,?_⟩,?_,?_,?_⟩,?_⟩
  · refine (h.accounts.owned.modify (f := Job.start now) fun j hj => ?_).perm hheld
    rw [hqueued j hj]
    rfl
  · intro q j' hj'
    obtain ⟨j,hj,⟨hq,rfl⟩ | ⟨rfl,rfl⟩⟩ := hjob q j' hj'
    · have hnot : j'.state ≠ .running := fun hrun => hidle q ((h.accounts.running q j' hj).1 hrun)
      exact iff_of_false hnot fun heq => hq (Option.some.inj heq).symm
    · exact iff_of_true rfl rfl
  · exact h.accounts.accepted.trans (length_modify ..).symm
  · have huncounted : (s.begin r rest now).uncounted = s.uncounted := by
      simp [Service.uncounted, Service.begin, hlooping, Coordinator.uncounted]
    rw [huncounted, ← hheld.length_eq]
    exact h.accounts.ended.trans (length_modify ..).symm
  · intro j' hj'
    obtain ⟨q,hq⟩ := getElem?_of_mem hj'
    obtain ⟨j,hj,⟨-,rfl⟩ | ⟨-,rfl⟩⟩ := hjob q j' hq
    · exact h.honest.long j' (mem_of_getElem? hj)
    · exact h.honest.long j (mem_of_getElem? hj)
  · intro j' hj' hdone
    obtain ⟨q,hq⟩ := getElem?_of_mem hj'
    obtain ⟨j,hj,⟨-,rfl⟩ | ⟨-,rfl⟩⟩ := hjob q j' hq
    · exact h.honest.nonces j' (mem_of_getElem? hj) hdone
    · cases hdone
  · intro q j' _ _ n hn
    rw [show (s.begin r rest now).coordinator.claimed = _ from s.claimed_solve r] at hn
    exact absurd hn not_mem_nil
  · exact .modify fun j hj => Job.advances_start (hqueued j hj) now

theorem takeJob (now : Nat) : Moves cx s (s.takeJob now) := by
  unfold Service.takeJob
  split
  case h_2 => exact h.stays
  case h_1 hlooping =>
    split
    · refine h.passes ⟨h.control.bounded,h.control.called,fun _ => rfl,h.control.drained⟩ rfl
        ?_ ?_ ?_ rfl ?_ <;>
        simp [Service.held, Service.uncounted, hlooping, Coordinator.held, Coordinator.solving?,
          Coordinator.uncounted]
    · split
      · exact h.stays
      case h_2 r rest hwaiting =>
        split
        · refine h.passes (h.control.coordinate (by simp [hlooping]) (by simp [hwaiting]) rfl rfl
            rfl) rfl ?_ ?_ ?_ rfl ?_
          · rw [perm_iff_count]
            intro q
            simp only [Service.held, hwaiting, hlooping, Coordinator.held, count_append,
              count_cons, count_nil]
            omega
          all_goals simp [Service.uncounted, hlooping, Coordinator.solving?, Coordinator.uncounted]
        · exact h.begin hlooping hwaiting now

theorem endExpired (now : Nat) : Moves cx s (s.endExpired now) := by
  unfold Service.endExpired
  split
  case h_2 => exact h.stays
  case h_1 r hexpiring =>
    have hheld : s.held.Perm (r :: (s.queue.waiting ++ [] ++
        s.cancels.filterMap held ++ s.stopCall.held)) := by
      rw [perm_iff_count]
      intro q
      simp only [Service.held, hexpiring, Coordinator.held, count_append, count_cons, count_nil]
      omega
    have hmem : r ∈ s.held := hheld.mem_iff.2 (mem_cons_self ..)
    refine h.ends (h.control.coordinate (by simp [hexpiring]) le_rfl rfl rfl rfl) rfl hheld rfl
      (fun j hj => h.accounts.next_of_held hmem hj (.inl rfl)) ?_ ?_ ?_ rfl rfl ?_
    · intro hdone
      cases hdone
    · simp [hexpiring, Coordinator.solving?]
    · simp [Coordinator.claimed]
    · simp only [Service.uncounted, hexpiring, Coordinator.uncounted]
      omega

theorem countExpired : Moves cx s s.countExpired := by
  unfold Service.countExpired
  split
  case h_2 => exact h.stays
  case h_1 hexpired =>
    refine h.passes (h.control.coordinate (by simp [hexpired]) le_rfl rfl rfl rfl) rfl ?_ ?_ ?_ rfl
      ?_
    · simp [Service.held, hexpired, Coordinator.held]
    · simp [hexpired, Coordinator.solving?]
    · simp [Coordinator.claimed]
    · simp only [Service.uncounted, Counters.ended, hexpired, Coordinator.uncounted]
      omega

theorem solves {x x' : Solving} (hsolving : s.coordinator = .solving x) (hjob : x'.job = x.job)
    (hclaimed : ∀ n ∈ x'.claimed, n ∈ x.claimed ∨
      ∀ j, s.heap[x.job]? = some j → j.meets cx n = true) :
    Moves cx s { s with coordinator := .solving x' } := by
  refine h.passes (h.control.coordinate (by simp [hsolving]) le_rfl rfl rfl rfl) rfl ?_ ?_ ?_ rfl ?_
  · simp [Service.held, hsolving, Coordinator.held, hjob]
  · simp [hsolving, Coordinator.solving?, hjob]
  · intro r j hr hj n hn
    rcases hclaimed n hn with hold | hnew
    · exact h.honest.winners r j hr hj n (hsolving ▸ hold)
    · obtain rfl : x.job = r := by simpa [hsolving, Coordinator.solving?] using hr
      exact hnew j hj
  · simp [Service.uncounted, hsolving, Coordinator.uncounted]

end Inv

theorem Solving.mem_claimed_withWorker {x : Solving} {k : Nat} {w : Worker}
    {n : ByteVec txPowNonceSize} (h : n ∈ (x.withWorker k w).claimed) :
    n ∈ x.claimed ∨ w.claimed = some n := by
  simp only [Solving.claimed, Solving.withWorker, mem_append, mem_filterMap] at h ⊢
  rcases h with hwinner | ⟨v,hv,hclaimed⟩
  · exact .inl (.inl hwinner)
  · rcases mem_or_eq_of_mem_set hv with hold | rfl
    · exact .inl (.inr ⟨v,hold,hclaimed⟩)
    · exact .inr hclaimed

namespace Inv

variable (h : Inv cx s)
include h

theorem hash (k : Nat) : Moves cx s (s.hash cx k) := by
  unfold Service.hash
  split
  case h_2 => exact h.stays
  case h_1 x hsolving =>
    split
    case h_2 => exact h.stays
    case h_1 nonce job hworker hheap =>
      split
      case isTrue hmeets =>
        split
        · refine h.solves hsolving rfl fun n hn => .inl ?_
          exact (Solving.mem_claimed_withWorker hn).resolve_right (by simp [Worker.claimed])
        · refine h.solves hsolving rfl fun n hn => ?_
          refine (Solving.mem_claimed_withWorker hn).imp_right fun hnew j hj => ?_
          obtain rfl : nonceBytes nonce = n := Option.some.inj hnew
          obtain rfl : job = j := Option.some.inj (hheap.symm.trans hj)
          exact hmeets
      · refine h.solves hsolving rfl fun n hn => .inl ?_
        exact (Solving.mem_claimed_withWorker hn).resolve_right (by simp [Worker.claimed])

theorem leave (k : Nat) : Moves cx s (s.leave k) := by
  unfold Service.leave
  split
  case h_2 => exact h.stays
  case h_1 x hsolving =>
    split
    case h_2 => exact h.stays
    case h_1 =>
      split
      · refine h.solves hsolving rfl fun n hn => .inl ?_
        exact (Solving.mem_claimed_withWorker hn).resolve_right (by simp [Worker.claimed])
      · exact h.stays

theorem recordWinner (k : Nat) : Moves cx s (s.recordWinner k) := by
  unfold Service.recordWinner
  split
  case h_2 => exact h.stays
  case h_1 x hsolving =>
    split
    case h_2 => exact h.stays
    case h_1 nonce hworker =>
      -- the nonce noted is the one the worker claimed when it won
      have hwon : nonceBytes nonce ∈ x.claimed := by
        have hmem : Worker.won nonce ∈ x.workers := mem_of_getElem? hworker
        simp only [Solving.claimed, mem_append, mem_filterMap]
        exact .inr ⟨_,hmem,rfl⟩
      refine h.solves hsolving rfl fun n hn => .inl ?_
      simp only [Solving.claimed, Option.toList_some, mem_append, mem_singleton] at hn
      rcases hn with rfl | hn
      · exact hwon
      · have hold : n ∈ (x.withWorker k .left).claimed := mem_append_right _ hn
        exact (Solving.mem_claimed_withWorker hold).resolve_right (by simp [Worker.claimed])

theorem joinWorkers : Moves cx s s.joinWorkers := by
  unfold Service.joinWorkers
  split
  case h_2 => exact h.stays
  case h_1 x hsolving =>
    split
    · refine h.passes (h.control.coordinate (by simp [hsolving]) le_rfl rfl rfl rfl) rfl ?_ ?_ ?_
        rfl ?_
      · simp [Service.held, hsolving, Coordinator.held]
      · simp [hsolving, Coordinator.solving?]
      · intro r j hr hj n hn
        refine h.honest.winners r j hr hj n ?_
        rw [hsolving]
        exact mem_append_left _ hn
      · simp [Service.uncounted, hsolving, Coordinator.uncounted]
    · exact h.stays

theorem endsSolved {r now : Nat} {winner : Option (ByteVec txPowNonceSize)}
    (hsolved : s.coordinator = .solved r winner) {state : JobState} {error : String}
    {nonce : Option (ByteVec txPowNonceSize)}
    (hstate : state = .done ∧ nonce = winner ∧ winner ≠ none ∨ state = .failed ∨ state = .cancelled) :
    Moves cx s { s with
      heap := s.heap.modify r (Job.finish state error nonce now)
      coordinator := .ended state } := by
  have hheld : s.held.Perm (r :: (s.queue.waiting ++ [] ++
      s.cancels.filterMap held ++ s.stopCall.held)) := by
    rw [perm_iff_count]
    intro q
    simp only [Service.held, hsolved, Coordinator.held, count_append, count_cons, count_nil]
    omega
  have hsolving : s.coordinator.solving? = some r := by rw [hsolved]; rfl
  refine h.ends (h.control.coordinate (by simp [hsolved]) le_rfl rfl rfl rfl) rfl hheld ?_ ?_ ?_ ?_
    ?_ rfl rfl ?_
  · rcases hstate with ⟨rfl,-⟩ | rfl | rfl <;> rfl
  · intro j hj
    rw [(h.accounts.running r j hj).2 hsolving]
    rcases hstate with ⟨rfl,-⟩ | rfl | rfl <;> rfl
  · intro hdone j hj
    rcases hstate with ⟨-,rfl,hsome⟩ | rfl | rfl
    · obtain ⟨n,rfl⟩ := Option.ne_none_iff_exists'.1 hsome
      refine h.honest.winners r j hsolving hj n ?_
      simp [hsolved, claimed]
    · cases hdone
    · cases hdone
  · intro q
    rw [hsolving]
    exact iff_of_false (by simp [solving?])
      fun hand => hand.2 (Option.some.inj hand.1).symm
  · simp [Coordinator.claimed]
  · simp only [Service.uncounted, hsolved, Coordinator.uncounted]
    omega

theorem endSolve (now : Nat) : Moves cx s (s.endSolve now) := by
  unfold Service.endSolve
  split
  case h_1 r nonce hsolved => exact h.endsSolved hsolved (.inl ⟨rfl,rfl,by simp⟩)
  case h_2 r hsolved =>
    split
    · exact h.endsSolved hsolved (.inr (.inr rfl))
    · exact h.endsSolved hsolved (.inr (.inl rfl))
  case h_3 => exact h.stays

theorem countSolve : Moves cx s s.countSolve := by
  unfold Service.countSolve
  split
  case h_2 => exact h.stays
  case h_1 state hended =>
    refine h.passes (h.control.coordinate (by simp [hended]) le_rfl rfl rfl rfl) rfl ?_ ?_ ?_ ?_ ?_
    · simp [Service.held, hended, Coordinator.held]
    · simp [hended, Coordinator.solving?]
    · simp [Coordinator.claimed]
    · cases state <;> rfl
    · simp only [Service.uncounted, hended, Coordinator.uncounted]
      cases state <;> simp only [Service.bumpEnd, Counters.ended] <;> omega

theorem clearActive : Moves cx s s.clearActive := by
  unfold Service.clearActive
  split
  case h_2 => exact h.stays
  case h_1 hclearing =>
    refine h.passes (h.control.coordinate (by simp [hclearing]) le_rfl rfl rfl rfl) rfl ?_ ?_ ?_ rfl
      ?_ <;>
      simp [Service.held, Service.uncounted, hclearing, Coordinator.held, Coordinator.solving?,
        Coordinator.uncounted]

theorem housekeeping (now : Nat) : Moves cx s (s.housekeeping now) := by
  unfold Service.housekeeping
  split
  case h_2 => exact h.stays
  case h_1 hkeeping =>
    refine h.passes (h.control.coordinate (by simp [hkeeping]) le_rfl rfl rfl rfl) rfl ?_ ?_ ?_ rfl
      ?_ <;>
      simp [Service.held, Service.uncounted, hkeeping, Coordinator.held, Coordinator.solving?,
        Coordinator.uncounted]

end Inv

namespace Inv

variable (h : Inv cx s)
include h

theorem stops {stopCall : StopCall} {stop : Bool}
    (hcalled : s.stopCall ≠ .notCalled ∧ stopCall ≠ .notCalled)
    (hjoined : stopCall.joined = true → s.coordinator = .returned)
    (hdrained : stopCall.drained = true → s.queue.waiting = [])
    (hheld : stopCall.held = s.stopCall.held) (hcount : stopCall.uncounted = s.stopCall.uncounted) :
    Moves cx s { s with stop := stop, stopCall := stopCall } := by
  refine h.passes ⟨h.control.bounded,?_,hjoined,hdrained⟩ rfl ?_ rfl h.honest.winners rfl ?_
  · exact h.control.called.trans (iff_of_false hcalled.1 hcalled.2)
  · simp [Service.held, hheld]
  · simp [Service.uncounted, hcount]

theorem callStop : Moves cx s s.callStop := by
  unfold Service.callStop
  split
  · exact h.stays
  case isFalse hstopping =>
    have hnot := h.control.called.1 (Bool.eq_false_iff.2 hstopping)
    refine h.passes ⟨h.control.bounded,?_,?_,?_⟩ rfl ?_ rfl h.honest.winners rfl ?_ <;>
      simp [Service.held, Service.uncounted, StopCall.joined, StopCall.drained, StopCall.held,
        StopCall.uncounted, hnot]

theorem raiseStop : Moves cx s s.raiseStop := by
  unfold Service.raiseStop
  split
  case h_2 => exact h.stays
  case h_1 hflagging =>
    refine h.stops ⟨?_,?_⟩ ?_ ?_ ?_ ?_ <;>
      simp [hflagging, StopCall.joined, StopCall.drained, StopCall.held, StopCall.uncounted]

theorem joinCoordinator : Moves cx s s.joinCoordinator := by
  unfold Service.joinCoordinator
  split
  case h_2 => exact h.stays
  case h_1 hjoining hreturned =>
    refine h.stops ⟨?_,?_⟩ (fun _ => hreturned) ?_ ?_ ?_ <;>
      simp [hjoining, StopCall.drained, StopCall.held, StopCall.uncounted]

theorem drain : Moves cx s s.drain := by
  unfold Service.drain
  split
  case h_2 => exact h.stays
  case h_1 hdraining =>
    refine h.passes ⟨Nat.zero_le _,?_,?_,fun _ => rfl⟩ rfl ?_ rfl h.honest.winners rfl ?_
    · exact h.control.called.trans (iff_of_false (by simp [hdraining]) (by simp))
    · exact fun _ => h.control.joined (by rw [hdraining]; rfl)
    · rw [perm_iff_count]
      intro q
      simp only [Service.held, hdraining, StopCall.held, count_append, count_nil]
      omega
    · simp [Service.uncounted, hdraining, StopCall.uncounted]

theorem endLeftover (now : Nat) : Moves cx s (s.endLeftover now) := by
  unfold Service.endLeftover
  split
  case h_2 => exact h.stays
  case h_1 r rest hfailing =>
    have hreturned := h.control.joined (by rw [hfailing]; rfl)
    have hheld : s.held.Perm (r :: (s.queue.waiting ++ s.coordinator.held ++
        s.cancels.filterMap held ++ rest)) := by
      rw [perm_iff_count]
      intro q
      simp only [Service.held, hfailing, StopCall.held, count_append, count_cons]
      omega
    have hmem : r ∈ s.held := hheld.mem_iff.2 (mem_cons_self ..)
    refine h.ends ⟨h.control.bounded,?_,fun _ => hreturned,?_⟩ rfl hheld rfl
      (fun j hj => h.accounts.next_of_held hmem hj (.inl rfl)) ?_ ?_ (fun _ hn => hn) rfl rfl ?_
    · exact h.control.called.trans (iff_of_false (by simp [hfailing]) (by simp))
    · exact fun _ => h.control.drained (by rw [hfailing]; rfl)
    · intro hdone
      cases hdone
    · simp [hreturned, Coordinator.solving?]
    · simp only [Service.uncounted, hfailing, StopCall.uncounted]

theorem countLeftover : Moves cx s s.countLeftover := by
  unfold Service.countLeftover
  split
  case h_2 => exact h.stays
  case h_1 rest hcounting =>
    refine h.passes ⟨h.control.bounded,?_,?_,?_⟩ rfl ?_ rfl h.honest.winners rfl ?_
    · exact h.control.called.trans (iff_of_false (by simp [hcounting]) (by simp))
    · exact fun _ => h.control.joined (by rw [hcounting]; rfl)
    · exact fun _ => h.control.drained (by rw [hcounting]; rfl)
    · simp [Service.held, hcounting, StopCall.held]
    · simp only [Service.uncounted, Counters.ended, hcounting, StopCall.uncounted]
      omega

theorem returnStop : Moves cx s s.returnStop := by
  unfold Service.returnStop
  split
  case h_2 => exact h.stays
  case h_1 hfailing =>
    refine h.stops ⟨?_,?_⟩ (fun _ => ?_) (fun _ => ?_) ?_ ?_
    · simp [hfailing]
    · simp
    · exact h.control.joined (by rw [hfailing]; rfl)
    · exact h.control.drained (by rw [hfailing]; rfl)
    · simp [hfailing, StopCall.held]
    · simp [hfailing, StopCall.uncounted]

theorem step (e : Event) : Moves cx s (s.step cx e) := by
  cases e with
  | submit blob height slot id now => exact h.submit blob height slot id now
  | countSubmit => exact h.countSubmit
  | cancel id => exact h.cancel id
  | endCancel call now => exact h.endCancel call now
  | countCancel call => exact h.countCancel call
  | takeJob now => exact h.takeJob now
  | endExpired now => exact h.endExpired now
  | countExpired => exact h.countExpired
  | hash worker => exact h.hash worker
  | leave worker => exact h.leave worker
  | recordWinner worker => exact h.recordWinner worker
  | joinWorkers => exact h.joinWorkers
  | endSolve now => exact h.endSolve now
  | countSolve => exact h.countSolve
  | clearActive => exact h.clearActive
  | housekeeping now => exact h.housekeeping now
  | callStop => exact h.callStop
  | raiseStop => exact h.raiseStop
  | joinCoordinator => exact h.joinCoordinator
  | drain => exact h.drain
  | endLeftover now => exact h.endLeftover now
  | countLeftover => exact h.countLeftover
  | returnStop => exact h.returnStop

theorem run (events : List Event) : Inv cx (s.run cx events) := by
  induction events generalizing s with
  | nil => exact h
  | cons e events ih => exact ih (h.step e).inv

end Inv

end Wrkz.Txpow
