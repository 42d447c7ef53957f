import Wrkz.Library.Assoc
import Wrkz.Library.Fallible
import Wrkz.Primitives.Block
import Wrkz.Primitives.Constants
import Wrkz.Primitives.Kv

/-!
The job queue and the hashing threads of the proof-of-work server. A checked
transaction blob becomes a job; one job is solved at a time with every thread on it.
The calls of clients, the coordinator, its workers and `stop` run side by side: a
section under the queue's lock is one step here, and so is every update of a job or a
counter made outside it.
-/

set_option autoImplicit false

namespace Wrkz.Txpow

open Library

def txPowNonceSize : Nat := 8
def maxRingSize : Nat := 128
def txExtraTransactionPowNonce : UInt8 := 0x04

structure Shape where
  inputs : Nat
  outputs : Nat
  difficulty : Nat
  deriving DecidableEq, Repr

structure Refusal where
  reason : String
  tooDifficult : Bool
  deriving DecidableEq, Repr

def refusal (reason : String) : Refusal := ⟨reason,false⟩

def sumInputs : Nat → List Input → Except Refusal Nat
  | inputSum, [] => .ok inputSum
  | _, .base _ :: _ => .error (refusal "prefix contains an input that is not a key input")
  | inputSum, .key amount keyOffsets _ :: rest => do
    refuseIf (keyOffsets = [] ∨ maxRingSize < keyOffsets.length)
      (refusal "prefix contains an input with an unreasonable ring size")
    let sum ← orRefuse (checkedAdd inputSum amount) (refusal "input amounts overflow")
    sumInputs sum rest

def endsInNonceField (extra : Bytes) : Bool :=
  decide (1 + txPowNonceSize ≤ extra.length) &&
    extra[extra.length - 1 - txPowNonceSize]? == some txExtraTransactionPowNonce

def validatePrefix (bytes : Bytes) (height : Option Nat) (maxDifficulty : Nat) :
    Except Refusal Shape := do
  refuseIf (bytes.length < 1 + txPowNonceSize) (refusal "prefix is too short")
  let body ← (Reader.finish TransactionPrefix.read bytes).mapError fun _ =>
    refusal "prefix does not deserialize as a transaction prefix"
  refuseIf (body.write ≠ bytes) (refusal "prefix is not canonically serialized")
  refuseIf (body.inputs = []) (refusal "prefix has no inputs")
  refuseIf (body.outputs = []) (refusal "prefix has no outputs")
  refuseIf (normalTxMaxOutputCountV1 < body.outputs.length)
    (refusal "prefix has more outputs than the network allows")
  let inputSum ← sumInputs 0 body.inputs
  let outputSum ← orRefuse body.sumOutputs (refusal "output amounts overflow")
  refuseIf (inputSum < outputSum) (refusal "outputs exceed inputs")
  refuseIf (outputSum = inputSum) (refusal "zero-fee transactions are not served")
  refuseIf (endsInNonceField body.extra = false)
    (refusal "extra must end with the PoW nonce tag followed by 8 nonce bytes")
  let inputs := body.inputs.length
  let outputs := body.outputs.length
  let difficulty :=
    (transactionPowDifficulty (height.getD (2^64 - 1)) false inputs outputs).getD 0
  refuseIf (difficulty = 0) (refusal "no proof of work is required at that height")
  refuseIf (maxDifficulty < difficulty)
    ⟨s!"difficulty {difficulty} is above this server's limit of {maxDifficulty}",true⟩
  pure ⟨inputs,outputs,difficulty⟩

inductive JobState where
  | queued
  | running
  | done
  | failed
  | cancelled
  deriving DecidableEq, Repr

def JobState.finished : JobState → Bool
  | .done => true
  | .failed => true
  | .cancelled => true
  | _ => false

def nonceBytes (nonce : Nat) : ByteVec txPowNonceSize :=
  ⟨Kv.littleEndian txPowNonceSize nonce,Kv.littleEndian_length _ _⟩

/-- `blob` is the serialized transaction body, its nonce field the last eight bytes. -/
structure Job where
  id : Nat
  blob : Bytes
  shape : Shape
  submittedAt : Nat
  state : JobState
  startedAt : Option Nat
  finishedAt : Option Nat
  nonce : ByteVec txPowNonceSize
  error : String
  cancelRequested : Bool
  deriving DecidableEq, Repr

namespace Job

def new (id : Nat) (blob : Bytes) (shape : Shape) (now : Nat) : Job :=
  ⟨id,blob,shape,now,.queued,none,none,ByteVec.zero txPowNonceSize,"",false⟩

def start (now : Nat) (job : Job) : Job :=
  { job with state := .running, startedAt := some now }

def finish (state : JobState) (error : String) (nonce : Option (ByteVec txPowNonceSize))
    (now : Nat) (job : Job) : Job :=
  { job with
    state := state
    error := error
    finishedAt := some now
    nonce := nonce.getD job.nonce }

def requestCancel (job : Job) : Job := { job with cancelRequested := true }

/-- The blob with `nonce` over its last eight bytes. -/
def withNonce (job : Job) (nonce : ByteVec txPowNonceSize) : Bytes :=
  job.blob.take (job.blob.length - txPowNonceSize) ++ nonce.bytes

def meets (cx : Crypto) (job : Job) (nonce : ByteVec txPowNonceSize) : Bool :=
  checkHash (cx.cnUpx (job.withNonce nonce)) job.shape.difficulty

end Job

structure Limits where
  threads : Nat
  maxQueue : Nat
  maxDifficulty : Nat
  jobTimeout : Nat
  resultTtl : Nat
  fixedDifficulty : Option Nat
  deriving DecidableEq, Repr

def Limits.default : Limits := ⟨1,64,1000000,600,300,none⟩

structure Counters where
  received : Nat
  accepted : Nat
  rejectedInvalid : Nat
  rejectedDifficulty : Nat
  rejectedQueueFull : Nat
  completed : Nat
  failed : Nat
  cancelled : Nat
  expired : Nat
  deriving DecidableEq, Repr

def Counters.zero : Counters := ⟨0,0,0,0,0,0,0,0,0⟩

/-- A job is named by its place in the heap, as the shared pointers of the source do;
`jobs` finds it by its id. -/
structure Queue where
  waiting : List Nat
  jobs : AList fun _ : Nat => Nat
  active : Option Nat
  stopping : Bool

inductive Worker where
  | hashing (nonce : Nat)
  | won (nonce : Nat)
  | left
  deriving DecidableEq, Repr

structure Solving where
  job : Nat
  found : Bool
  winner : Option (ByteVec txPowNonceSize)
  workers : List Worker
  deriving DecidableEq, Repr

def Solving.withWorker (x : Solving) (k : Nat) (w : Worker) : Solving :=
  { x with workers := x.workers.set k w }

inductive Coordinator where
  | looping
  | expiring (job : Nat)
  | expired
  | solving (solving : Solving)
  | solved (job : Nat) (winner : Option (ByteVec txPowNonceSize))
  | ended (state : JobState)
  | clearing
  | housekeeping
  | returned
  deriving DecidableEq, Repr

/-- A `cancel` that took a job out of the queue and has yet to end or to count it. -/
structure CancelCall where
  job : Nat
  ended : Bool
  deriving DecidableEq, Repr

/-- Where the first call of `stop` has got to. -/
inductive StopCall where
  | notCalled
  | flagging
  | joining
  | draining
  | failing (leftovers : List Nat)
  | counting (leftovers : List Nat)
  | returned
  deriving DecidableEq, Repr

/-- `submits` is the number of calls of `submit` that have queued their job and have
yet to count it. -/
structure Service where
  limits : Limits
  heap : List Job
  queue : Queue
  stop : Bool
  counters : Counters
  coordinator : Coordinator
  submits : Nat
  cancels : List CancelCall
  stopCall : StopCall

structure Submitted where
  job : Option Nat
  status : Nat
  error : String
  deriving DecidableEq, Repr

def Submitted.refused (status : Nat) (error : String) : Submitted := ⟨none,status,error⟩

namespace Service

def start (limits : Limits) : Service where
  limits := { limits with
    threads := max limits.threads 1
    maxQueue := max limits.maxQueue 1 }
  heap := []
  queue := ⟨[],∅,none,false⟩
  stop := false
  counters := Counters.zero
  coordinator := .looping
  submits := 0
  cancels := []
  stopCall := .notCalled

variable (s : Service)

def withCounters (f : Counters → Counters) : Service := { s with counters := f s.counters }

def pushBack (blob : Bytes) (shape : Shape) (id now : Nat) : Service :=
  { s with
    heap := s.heap ++ [Job.new id blob shape now]
    queue := { s.queue with
      waiting := s.queue.waiting ++ [s.heap.length]
      jobs := s.queue.jobs.insert id s.heap.length }
    submits := s.submits + 1 }

/-- The section of `submit` under the queue's lock. -/
def enqueue (blob : Bytes) (shape : Shape) (id now : Nat) : Submitted × Service :=
  if s.queue.stopping then (.refused 503 "server is shutting down",s)
  else if s.limits.maxQueue ≤ s.queue.waiting.length then
    (.refused 503 "queue is full, try again later",
      s.withCounters fun c => { c with rejectedQueueFull := c.rejectedQueueFull + 1 })
  else (⟨some s.heap.length,200,""⟩,s.pushBack blob shape id now)

/-- Up to the end of the locked section; `slot` is the answer of `reserve_slot` and
`id` the random id. -/
def submit (blob : Bytes) (height : Option Nat) (slot : Bool) (id now : Nat) :
    Submitted × Service :=
  let s := s.withCounters fun c => { c with received := c.received + 1 }
  match validatePrefix blob height s.limits.maxDifficulty with
  | .error e =>
    (.refused 400 e.reason,s.withCounters fun c =>
      if e.tooDifficult then { c with rejectedDifficulty := c.rejectedDifficulty + 1 }
      else { c with rejectedInvalid := c.rejectedInvalid + 1 })
  | .ok shape =>
    let shape := { shape with difficulty := s.limits.fixedDifficulty.getD shape.difficulty }
    if slot then s.enqueue blob shape id now
    else (.refused 429 "the server has reached its jobs-per-minute limit, retry later",s)

def countSubmit : Service :=
  if s.submits = 0 then s
  else { s with
    submits := s.submits - 1
    counters := { s.counters with accepted := s.counters.accepted + 1 } }

def withdraw (r : Nat) : Service :=
  let waiting := s.queue.waiting.filter (· ≠ r)
  { s with
    heap := s.heap.modify r Job.requestCancel
    queue := { s.queue with waiting := waiting }
    cancels :=
      if waiting.length ≠ s.queue.waiting.length then s.cancels ++ [⟨r,false⟩]
      else s.cancels }

def cancel (id : Nat) : Bool × Service :=
  match s.queue.jobs.lookup id with
  | none => (false,s)
  | some r =>
    match s.heap[r]? with
    | none => (false,s)
    | some job => if job.state.finished then (false,s) else (true,s.withdraw r)

def endCancel (k now : Nat) : Service :=
  match s.cancels[k]? with
  | some ⟨r,false⟩ =>
    { s with
      heap := s.heap.modify r (Job.finish .cancelled "cancelled before it started" none now)
      cancels := s.cancels.set k ⟨r,true⟩ }
  | _ => s

def countCancel (k : Nat) : Service :=
  match s.cancels[k]? with
  | some ⟨_,true⟩ =>
    { s with
      cancels := s.cancels.eraseIdx k
      counters := { s.counters with cancelled := s.counters.cancelled + 1 } }
  | _ => s

def expires (r now : Nat) : Bool :=
  match s.heap[r]? with
  | some job => decide (s.limits.jobTimeout < now - job.submittedAt)
  | none => false

/-- The workers of a job start at their own number and step by the number of threads. -/
def solve (r : Nat) : Solving :=
  ⟨r,false,none,(List.range s.limits.threads).map .hashing⟩

def begin (r : Nat) (rest : List Nat) (now : Nat) : Service :=
  { s with
    heap := s.heap.modify r (Job.start now)
    queue := { s.queue with waiting := rest, active := some r }
    coordinator := .solving (s.solve r) }

/-- The section of the loop under the queue's lock. With nothing to do the coordinator
waits for a signal. -/
def takeJob (now : Nat) : Service :=
  match s.coordinator with
  | .looping =>
    if s.queue.stopping then { s with coordinator := .returned }
    else
      match s.queue.waiting with
      | [] => s
      | r :: rest =>
        if s.expires r now then
          { s with queue := { s.queue with waiting := rest }, coordinator := .expiring r }
        else s.begin r rest now
  | _ => s

def endExpired (now : Nat) : Service :=
  match s.coordinator with
  | .expiring r =>
    { s with
      heap := s.heap.modify r (Job.finish .failed "expired before a worker was free" none now)
      coordinator := .expired }
  | _ => s

def countExpired : Service :=
  match s.coordinator with
  | .expired =>
    { s with
      coordinator := .housekeeping
      counters := { s.counters with expired := s.counters.expired + 1 } }
  | _ => s

/-- One nonce of worker `k`. The flags are read without ordering, so a worker may go on
for a while after one of them is raised. -/
def hash (cx : Crypto) (k : Nat) : Service :=
  match s.coordinator with
  | .solving x =>
    match x.workers[k]?, s.heap[x.job]? with
    | some (.hashing nonce), some job =>
      if job.meets cx (nonceBytes nonce) then
        if x.found then { s with coordinator := .solving (x.withWorker k .left) }
        else { s with coordinator := .solving { x.withWorker k (.won nonce) with found := true } }
      else
        { s with
          coordinator :=
            .solving (x.withWorker k (.hashing ((nonce + s.limits.threads) % 2^64))) }
    | _, _ => s
  | _ => s

/-- Worker `k` has seen one of the flags. -/
def leave (k : Nat) : Service :=
  match s.coordinator with
  | .solving x =>
    match x.workers[k]?, s.heap[x.job]? with
    | some (.hashing _), some job =>
      if x.found || job.cancelRequested || s.stop then
        { s with coordinator := .solving (x.withWorker k .left) }
      else s
    | _, _ => s
  | _ => s

def recordWinner (k : Nat) : Service :=
  match s.coordinator with
  | .solving x =>
    match x.workers[k]? with
    | some (.won nonce) =>
      { s with
        coordinator := .solving { x.withWorker k .left with winner := some (nonceBytes nonce) } }
    | _ => s
  | _ => s

def joinWorkers : Service :=
  match s.coordinator with
  | .solving x =>
    if x.workers.all (· = .left) then { s with coordinator := .solved x.job x.winner } else s
  | _ => s

def cancelRequested (r : Nat) : Bool :=
  match s.heap[r]? with
  | some job => job.cancelRequested
  | none => false

def endSolve (now : Nat) : Service :=
  match s.coordinator with
  | .solved r (some nonce) =>
    { s with
      heap := s.heap.modify r (Job.finish .done "" (some nonce) now)
      coordinator := .ended .done }
  | .solved r none =>
    if s.cancelRequested r then
      { s with
        heap := s.heap.modify r (Job.finish .cancelled "cancelled by the client" none now)
        coordinator := .ended .cancelled }
    else
      { s with
        heap := s.heap.modify r (Job.finish .failed "server shutting down" none now)
        coordinator := .ended .failed }
  | _ => s

def bumpEnd (c : Counters) : JobState → Counters
  | .done => { c with completed := c.completed + 1 }
  | .cancelled => { c with cancelled := c.cancelled + 1 }
  | _ => { c with failed := c.failed + 1 }

def countSolve : Service :=
  match s.coordinator with
  | .ended state =>
    { s with coordinator := .clearing, counters := bumpEnd s.counters state }
  | _ => s

def clearActive : Service :=
  match s.coordinator with
  | .clearing =>
    { s with queue := { s.queue with active := none }, coordinator := .housekeeping }
  | _ => s

/-- Whether `housekeeping` forgets the job. -/
def forgets (r now : Nat) : Bool :=
  match s.heap[r]? with
  | some job =>
    job.state.finished && job.finishedAt.any fun ended => decide (s.limits.resultTtl < now - ended)
  | none => false

def housekeeping (now : Nat) : Service :=
  match s.coordinator with
  | .housekeeping =>
    { s with
      queue := { s.queue with jobs := retain (fun _ r => !s.forgets r now) s.queue.jobs }
      coordinator := .looping }
  | _ => s

def callStop : Service :=
  if s.queue.stopping then s
  else { s with queue := { s.queue with stopping := true }, stopCall := .flagging }

def raiseStop : Service :=
  match s.stopCall with
  | .flagging => { s with stop := true, stopCall := .joining }
  | _ => s

def joinCoordinator : Service :=
  match s.stopCall, s.coordinator with
  | .joining, .returned => { s with stopCall := .draining }
  | _, _ => s

def drain : Service :=
  match s.stopCall with
  | .draining =>
    { s with
      queue := { s.queue with waiting := [] }
      stopCall := .failing s.queue.waiting }
  | _ => s

def endLeftover (now : Nat) : Service :=
  match s.stopCall with
  | .failing (r :: rest) =>
    { s with
      heap := s.heap.modify r (Job.finish .failed "server shutting down" none now)
      stopCall := .counting rest }
  | _ => s

def countLeftover : Service :=
  match s.stopCall with
  | .counting rest =>
    { s with
      stopCall := .failing rest
      counters := { s.counters with failed := s.counters.failed + 1 } }
  | _ => s

def returnStop : Service :=
  match s.stopCall with
  | .failing [] => { s with stopCall := .returned }
  | _ => s

end Service

inductive Event where
  | submit (blob : Bytes) (height : Option Nat) (slot : Bool) (id now : Nat)
  | countSubmit
  | cancel (id : Nat)
  | endCancel (call now : Nat)
  | countCancel (call : Nat)
  | takeJob (now : Nat)
  | endExpired (now : Nat)
  | countExpired
  | hash (worker : Nat)
  | leave (worker : Nat)
  | recordWinner (worker : Nat)
  | joinWorkers
  | endSolve (now : Nat)
  | countSolve
  | clearActive
  | housekeeping (now : Nat)
  | callStop
  | raiseStop
  | joinCoordinator
  | drain
  | endLeftover (now : Nat)
  | countLeftover
  | returnStop
  deriving DecidableEq, Repr

def Service.step (cx : Crypto) (s : Service) : Event → Service
  | .submit blob height slot id now => (s.submit blob height slot id now).2
  | .countSubmit => s.countSubmit
  | .cancel id => (s.cancel id).2
  | .endCancel call now => s.endCancel call now
  | .countCancel call => s.countCancel call
  | .takeJob now => s.takeJob now
  | .endExpired now => s.endExpired now
  | .countExpired => s.countExpired
  | .hash worker => s.hash cx worker
  | .leave worker => s.leave worker
  | .recordWinner worker => s.recordWinner worker
  | .joinWorkers => s.joinWorkers
  | .endSolve now => s.endSolve now
  | .countSolve => s.countSolve
  | .clearActive => s.clearActive
  | .housekeeping now => s.housekeeping now
  | .callStop => s.callStop
  | .raiseStop => s.raiseStop
  | .joinCoordinator => s.joinCoordinator
  | .drain => s.drain
  | .endLeftover now => s.endLeftover now
  | .countLeftover => s.countLeftover
  | .returnStop => s.returnStop

def Service.run (cx : Crypto) (s : Service) (events : List Event) : Service :=
  events.foldl (Service.step cx) s

end Wrkz.Txpow
