import Wrkz.Chain.Finality
import Wrkz.Node.Stratum

/-!
The stratum server over a chain that moves. The reader of a connection and the tip
watcher both issue jobs, one at a time under the connection's lock; `getjob` gives the
newest job again while its height is the next one. Whether that job extends the tip
depends on what happened to the chain since it was built.
-/

set_option autoImplicit false

namespace Wrkz

open Library

variable {cx : Crypto}

inductive Issuing where
  | idle
  | building
  | built (job : Job)
  deriving DecidableEq, Repr

structure Client where
  state : ClientState
  closing : Bool
  issuing : Issuing
  deriving DecidableEq, Repr

def Client.fresh : Client := ⟨ClientState.default,false,.idle⟩

/-- Connections are numbered in the order they came. -/
structure StratumServer (cx : Crypto) where
  view : NodeView cx
  shareDifficulty : Nat
  ids : Nat
  clients : Nat → Client

def StratumServer.start (view : NodeView cx) (shareDifficulty : Nat) : StratumServer cx :=
  ⟨view,shareDifficulty,0,fun _ => Client.fresh⟩

namespace StratumServer

variable (s : StratumServer cx)

def withClient (i : Nat) (c : Client) : StratumServer cx :=
  { s with clients := Function.update s.clients i c }

/-- `handle_get_job`. The issuing lock is held throughout. -/
def handleGetJob (i : Nat) : StratumReply × StratumServer cx :=
  let c := s.clients i
  if c.state.loggedIn = false then (.error (.text "Unauthenticated"),s)
  else if s.view.ready = false then (.error (.text "Node is still synchronizing"),s)
  else
    match c.state.jobs.getLast?.filter (fun j => j.height = s.view.topIndex + 1) with
    | some job => (.job (describeJob job s.shareDifficulty),s)
    | none =>
      match buildJob cx s.view s.ids c.state.address with
      | (.error e,ids,view) => (.error e,{ s with ids, view })
      | (.ok job,ids,view) => (.job (describeJob job s.shareDifficulty),
          { s with ids, view }.withClient i { c with state := c.state.pushJob job })

def beginLogin (i : Nat) (address : Bytes) (agent : String) : StratumServer cx :=
  let c := s.clients i
  { s with ids := s.ids+1 }.withClient i { c with
    issuing := .building
    state := { c.state with
      address := address, agent := agent, sessionId := s.ids+1, loggedIn := true, jobs := [] } }

/-- `send_job` takes the lock, for the tip watcher or after a block was found. -/
def beginSend (i : Nat) : StratumServer cx :=
  let c := s.clients i
  if c.state.loggedIn = false ∨ c.closing = true then s
  else s.withClient i { c with issuing := .building }

/-- `refresh_job` reads the chain. -/
def build (i : Nat) : StratumServer cx :=
  let c := s.clients i
  match buildJob cx s.view s.ids c.state.address with
  | (.error _,ids,view) => { s with ids, view }.withClient i { c with issuing := .idle }
  | (.ok job,ids,view) => { s with ids, view }.withClient i { c with issuing := .built job }

/-- `refresh_job` appends the job, and the message with it is queued. -/
def push (i : Nat) (job : Job) : StratumServer cx :=
  let c := s.clients i
  s.withClient i { c with issuing := .idle, state := c.state.pushJob job }

/-- The part of `handle_submit` under the state lock: the nonce is noted against its job. -/
def noteNonce (jobId nonce : Nat) : List Job → List Job
  | [] => []
  | job :: jobs =>
    if job.id = jobId then { job with seenNonces := nonce :: job.seenNonces } :: jobs
    else job :: noteNonce jobId nonce jobs

/-- What `handle_submit` makes of a share, and whether it counts as accepted. A block is
handed to the node, whose answer is not the server's. -/
def judgeShare (cx : Crypto) (shareDifficulty : Nat) (job : Job) (nonce : Nat)
    (claimed : Option Hash) : StratumReply × Bool :=
  let candidate := { job.block with nonce := nonce }
  match candidate.powHash cx with
  | .error _ => (.error (.text "Could not hash share"),false)
  | .ok longHash =>
    if claimed.any (· ≠ longHash) then (.error (.text "Invalid result"),false)
    else if checkHash longHash
        (if shareDifficulty = 0 then job.difficulty else shareDifficulty) = false then
      (.error (.text "Low difficulty share"),false)
    else if checkHash longHash job.difficulty = false then (.ok,true)
    else
      match candidate.toBytes cx with
      | .error _ => (.error (.text "Could not serialize block"),true)
      | .ok _ => (.ok,true)

def handleSubmit (i jobId : Nat) (nonce : Option Nat) (claimed : Option Hash) :
    StratumReply × StratumServer cx :=
  let c := s.clients i
  if c.state.loggedIn = false then (.error (.text "Unauthenticated"),s)
  else
    match c.state.jobs.find? (fun j => j.id = jobId), nonce with
    | none, _ => (.error (.text "Invalid job id"),s)
    | some _, none => (.error (.text "Malformed nonce"),s)
    | some job, some nonce =>
      if nonce ∈ job.seenNonces then (.error (.text "Duplicate share"),s)
      else
        let verdict := judgeShare cx s.shareDifficulty job nonce claimed
        (verdict.1,s.withClient i { c with state := { c.state with
          jobs := noteNonce jobId nonce c.state.jobs
          acceptedShares := c.state.acceptedShares + if verdict.2 then 1 else 0 } })

end StratumServer

/-- What can happen, in any order. A thread that finds the issuing lock taken waits, so
its event is one of a later moment. The node may go on to any chain, pool and clock. -/
inductive StratumEvent (cx : Crypto) where
  | chain (view : NodeView cx)
  | login (i : Nat) (address : Bytes) (agent : String)
  | send (i : Nat)
  | build (i : Nat)
  | push (i : Nat)
  | getJob (i : Nat)
  | submit (i jobId : Nat) (nonce : Option Nat) (claimed : Option Hash)
  | found (i : Nat)
  | close (i : Nat)

namespace StratumServer

def step (s : StratumServer cx) : StratumEvent cx → StratumServer cx
  | .chain view => { s with view := view }
  | .login i address agent =>
    if (s.clients i).issuing = .idle ∧ s.view.ready = true then s.beginLogin i address agent else s
  | .send i => if (s.clients i).issuing = .idle then s.beginSend i else s
  | .build i => if (s.clients i).issuing = .building then s.build i else s
  | .push i =>
    match (s.clients i).issuing with
    | .built job => s.push i job
    | _ => s
  | .getJob i => if (s.clients i).issuing = .idle then (s.handleGetJob i).2 else s
  | .submit i jobId nonce claimed => (s.handleSubmit i jobId nonce claimed).2
  | .found i =>
    let c := s.clients i
    s.withClient i { c with state := { c.state with foundBlocks := c.state.foundBlocks + 1 } }
  | .close i => s.withClient i { s.clients i with closing := true }

def run (events : List (StratumEvent cx)) (s : StratumServer cx) : StratumServer cx :=
  events.foldl step s

end StratumServer

def Client.Holds (c : Client) (job : Job) : Prop := job ∈ c.state.jobs ∨ c.issuing = .built job

def Job.SameWork (job job' : Job) : Prop :=
  job.height = job'.height ∧ job.block = job'.block

theorem mem_noteNonce {jobId nonce : Nat} {jobs : List Job} {job : Job}
    (h : job ∈ StratumServer.noteNonce jobId nonce jobs) : ∃ job' ∈ jobs, job.SameWork job' := by
  induction jobs with
  | nil => simp [StratumServer.noteNonce] at h
  | cons first rest ih =>
    unfold StratumServer.noteNonce at h
    split at h
    · rcases List.mem_cons.1 h with rfl | h
      · exact ⟨first,List.mem_cons_self,rfl,rfl⟩
      · exact ⟨job,List.mem_cons_of_mem _ h,rfl,rfl⟩
    · rcases List.mem_cons.1 h with rfl | h
      · exact ⟨_,List.mem_cons_self,rfl,rfl⟩
      · obtain ⟨job',hmem,hsame⟩ := ih h
        exact ⟨job',List.mem_cons_of_mem _ hmem,hsame⟩

/-- Every job of `t` has the work of one its connection had in `s`, or was built on the
chain of that moment. -/
def Issues (s t : StratumServer cx) : Prop :=
  ∀ i job, (t.clients i).Holds job →
    (∃ job', (s.clients i).Holds job' ∧ job.SameWork job') ∨ job.BuiltOn s.view

namespace Issues

variable {s t : StratumServer cx}

theorem of_clients_eq (h : t.clients = s.clients) : Issues s t := by
  intro i job hjob
  rw [h] at hjob
  exact .inl ⟨job,hjob,rfl,rfl⟩

theorem withClient {k : Nat} {c : Client} (hsame : t.clients = s.clients)
    (hc : ∀ job, c.Holds job →
      (∃ job', (s.clients k).Holds job' ∧ job.SameWork job') ∨ job.BuiltOn s.view) :
    Issues s (t.withClient k c) := by
  intro i job hjob
  by_cases hi : i = k
  · subst hi
    refine hc job ?_
    simpa [StratumServer.withClient] using hjob
  · have hother : (t.withClient k c).clients i = s.clients i := by
      simp [StratumServer.withClient, hi, hsame]
    rw [hother] at hjob
    exact .inl ⟨job,hjob,rfl,rfl⟩

theorem withClient_of_le {k : Nat} {c : Client} (hsame : t.clients = s.clients)
    (hjobs : ∀ job ∈ c.state.jobs, job ∈ (s.clients k).state.jobs)
    (hissuing : ∀ job, c.issuing = .built job → (s.clients k).issuing = .built job) :
    Issues s (t.withClient k c) :=
  withClient hsame fun job hjob =>
    .inl ⟨job,hjob.elim (fun h => .inl (hjobs job h)) (fun h => .inr (hissuing job h)),rfl,rfl⟩

end Issues

theorem Client.holds_pushJob {c : Client} {job j : Job} {issuing : Issuing}
    (hidle : ∀ j, issuing = .built j → c.issuing = .built j)
    (h : ({ c with issuing := issuing, state := c.state.pushJob job } : Client).Holds j) :
    c.Holds j ∨ j = job := by
  rcases h with h | h
  · exact (ClientState.mem_pushJob h).imp .inl id
  · exact .inl (.inr (hidle j h))

section

variable (s : StratumServer cx) (k : Nat)

theorem StratumServer.issues_handleGetJob : Issues s (s.handleGetJob k).2 := by
  unfold handleGetJob
  dsimp only
  split
  · exact .of_clients_eq rfl
  · split
    · exact .of_clients_eq rfl
    · split
      · exact .of_clients_eq rfl
      · split
        · exact .of_clients_eq rfl
        · rename_i job ids _ hbuilt
          refine .withClient rfl fun j hj => ?_
          rcases Client.holds_pushJob (fun _ h => h) hj with hj | rfl
          · exact .inl ⟨j,hj,rfl,rfl⟩
          · exact .inr (buildJob_builtOn hbuilt)

theorem StratumServer.issues_build : Issues s (s.build k) := by
  unfold build
  dsimp only
  split
  · exact .withClient_of_le rfl (fun _ h => h) fun _ h => by cases h
  · rename_i job ids _ hbuilt
    refine .withClient rfl fun j hj => ?_
    rcases hj with hj | hj
    · exact .inl ⟨j,.inl hj,rfl,rfl⟩
    · cases hj
      exact .inr (buildJob_builtOn hbuilt)

theorem StratumServer.issues_handleSubmit (jobId : Nat) (nonce : Option Nat)
    (claimed : Option Hash) : Issues s (s.handleSubmit k jobId nonce claimed).2 := by
  unfold handleSubmit
  dsimp only
  split
  · exact .of_clients_eq rfl
  · split
    · exact .of_clients_eq rfl
    · exact .of_clients_eq rfl
    · split
      · exact .of_clients_eq rfl
      · refine .withClient rfl fun j hj => .inl ?_
        rcases hj with hj | hj
        · obtain ⟨job',hmem,hsame⟩ := mem_noteNonce hj
          exact ⟨job',.inl hmem,hsame⟩
        · exact ⟨j,.inr hj,rfl,rfl⟩

end

theorem StratumServer.issues_step (s : StratumServer cx) (event : StratumEvent cx) :
    Issues s (s.step event) := by
  cases event with
  | chain view => exact .of_clients_eq rfl
  | login k address agent =>
    unfold step
    dsimp only
    split
    · exact .withClient_of_le rfl (fun _ h => by cases h) fun _ h => by cases h
    · exact .of_clients_eq rfl
  | send k =>
    unfold step beginSend
    dsimp only
    split
    · split
      · exact .of_clients_eq rfl
      · exact .withClient_of_le rfl (fun _ h => h) fun _ h => by cases h
    · exact .of_clients_eq rfl
  | build k =>
    unfold step
    dsimp only
    split
    · exact s.issues_build k
    · exact .of_clients_eq rfl
  | push k =>
    unfold step
    dsimp only
    split
    · rename_i job hbuilt
      refine .withClient rfl fun j hj => .inl ?_
      rcases Client.holds_pushJob (fun _ h => by cases h) hj with hj | rfl
      · exact ⟨j,hj,rfl,rfl⟩
      · exact ⟨j,.inr hbuilt,rfl,rfl⟩
    · exact .of_clients_eq rfl
  | getJob k =>
    unfold step
    dsimp only
    split
    · exact s.issues_handleGetJob k
    · exact .of_clients_eq rfl
  | submit k jobId nonce claimed => exact s.issues_handleSubmit k jobId nonce claimed
  | found k => exact .withClient_of_le rfl (fun _ h => h) fun _ h => h
  | close k => exact .withClient_of_le rfl (fun _ h => h) fun _ h => h

theorem Job.SameWork.builtOn {job job' : Job} {view : NodeView cx} (h : job.SameWork job')
    (hbuilt : job'.BuiltOn view) : job.BuiltOn view :=
  ⟨h.1.trans hbuilt.height,by rw [h.2]; exact hbuilt.previous⟩

namespace StratumServer

section

variable (view : NodeView cx) (shareDifficulty : Nat)

/-- Every job there is was built on the chain of some moment of the run. -/
theorem run_holds (events : List (StratumEvent cx)) {i : Nat} {job : Job}
    (h : (((start view shareDifficulty).run events).clients i).Holds job) :
    ∃ before, before <+: events ∧ job.BuiltOn ((start view shareDifficulty).run before).view := by
  induction events using List.reverseRecOn generalizing job with
  | nil => rcases h with h | h <;> cases h
  | append_singleton events event ih =>
    have hrun : (start view shareDifficulty).run (events ++ [event]) =
        ((start view shareDifficulty).run events).step event := by simp [run]
    rw [hrun] at h
    rcases issues_step _ event i job h with ⟨job',hheld,hsame⟩ | hbuilt
    · obtain ⟨before,hbefore,hon⟩ := ih hheld
      exact ⟨before,hbefore.trans (List.prefix_append _ _),hsame.builtOn hon⟩
    · exact ⟨events,List.prefix_append _ _,hbuilt⟩

end

/-- From `s` to `t` the chain has not become another one of the same height. -/
def TipKept (s t : StratumServer cx) : Prop :=
  s.view.topIndex = t.view.topIndex → s.view.tipHash = t.view.tipHash

variable {s t : StratumServer cx} {i : Nat} {message : JobMessage}

/-- The job of an answer is the newest one and for the next height. It is the one there was
if that was for the next height, and one built on the tip otherwise. -/
theorem handleGetJob_answer (h : s.handleGetJob i = (.job message,t)) :
    ∃ job, (t.clients i).state.jobs.getLast? = some job ∧
      message = describeJob job s.shareDifficulty ∧ job.height = s.view.topIndex + 1 ∧
      ((s.clients i).state.jobs.getLast? = some job ∨ job.BuiltOn s.view ∧
        ∀ job', (s.clients i).state.jobs.getLast? = some job' →
          job'.height ≠ s.view.topIndex + 1) := by
  unfold handleGetJob at h
  dsimp only at h
  split at h
  · cases h
  · split at h
    · cases h
    · split at h
      · rename_i job hjob
        obtain ⟨hlast,hheight⟩ := Option.filter_eq_some_iff.1 hjob
        cases h
        exact ⟨job,hlast,rfl,of_decide_eq_true hheight,.inl hlast⟩
      · rename_i hnone
        split at h
        · cases h
        · rename_i job _ _ hbuilt
          cases h
          have hon := buildJob_builtOn hbuilt
          refine ⟨job,?_,rfl,hon.height,.inr ⟨hon,fun job' hlast hheight => ?_⟩⟩
          · simpa [withClient] using ClientState.getLast?_pushJob _ job
          · rw [hlast] at hnone
            simp [Option.filter, hheight] at hnone

theorem handleGetJob_of_isJob (h : (s.handleGetJob i).1.isJob = true) :
    ∃ message t, s.handleGetJob i = (.job message,t) := by
  generalize s.handleGetJob i = answer at h
  obtain ⟨reply,t⟩ := answer
  cases reply with
  | job message => exact ⟨message,t,rfl⟩
  | error e => cases h
  | ok => cases h

end StratumServer

/-- In every run, the job a `getjob` request is answered with is for the next height. It
extends the tip of that moment exactly when the chain has not become another one of the same
height since the connection's newest job was built; so it does in every run in which no
earlier chain of the present height had another tip. -/
theorem getJob_extends_tip {view : NodeView cx} {shareDifficulty : Nat}
    {events : List (StratumEvent cx)} {i : Nat} {message : JobMessage} {t : StratumServer cx}
    (h : ((StratumServer.start view shareDifficulty).run events).handleGetJob i =
      (.job message,t)) :
    let at' := fun before => (StratumServer.start view shareDifficulty).run before
    let now := at' events
    ∃ job, (t.clients i).state.jobs.getLast? = some job ∧
      message = describeJob job now.shareDifficulty ∧ job.height = now.view.topIndex + 1 ∧
      (job.block.previousBlockHash = now.view.tipHash ↔
        ∀ newest, (now.clients i).state.jobs.getLast? = some newest →
          ∃ before, before <+: events ∧ newest.BuiltOn (at' before).view ∧
            (at' before).TipKept now) ∧
      ((∀ before, before <+: events → (at' before).TipKept now) →
        job.block.previousBlockHash = now.view.tipHash) := by
  intro at' now
  obtain ⟨job,hlast,hmessage,hheight,hcases⟩ := StratumServer.handleGetJob_answer h
  have hsource {newest : Job} (hnewest : (now.clients i).state.jobs.getLast? = some newest) :=
    StratumServer.run_holds view shareDifficulty events (.inl (List.mem_of_getLast? hnewest))
  refine ⟨job,hlast,hmessage,hheight,⟨fun hon newest hnewest => ?_,fun hkept => ?_⟩,fun hkept => ?_⟩
  · obtain ⟨before,hbefore,hbuilt⟩ := hsource hnewest
    refine ⟨before,hbefore,hbuilt,fun htop => ?_⟩
    rcases hcases with hreused | ⟨_,hother⟩
    · obtain rfl := Option.some.inj (hnewest.symm.trans hreused)
      exact hbuilt.previous.symm.trans hon
    · exact absurd (hbuilt.height.trans (congrArg (· + 1) htop)) (hother newest hnewest)
  · rcases hcases with hreused | ⟨hbuilt,_⟩
    · obtain ⟨before,_,hbuilt,htip⟩ := hkept job hreused
      have htop : (at' before).view.topIndex = now.view.topIndex :=
        Nat.succ.inj (hbuilt.height.symm.trans hheight)
      exact hbuilt.previous.trans (htip htop)
    · exact hbuilt.previous
  · rcases hcases with hreused | ⟨hbuilt,_⟩
    · obtain ⟨before,hbefore,hbuilt⟩ := hsource hreused
      exact hbuilt.previous.trans
        (hkept before hbefore (Nat.succ.inj (hbuilt.height.symm.trans hheight)))
    · exact hbuilt.previous

theorem HoldsTables.inRange {s : ChainState} {chain : MainChain cx} (h : HoldsTables s chain)
    (hlen : chain.length ≤ 2 ^ 32)
    (htime : ∀ i < chain.length, (s.blockInfo i).all fun info => info.timestamp < 2 ^ 64) :
    s.templateChain.InRange where
  topIndex_lt := by
    change s.tip.getD 0 < 2 ^ 32
    cases htip : s.tip with
    | none => norm_num
    | some tip =>
      have := MainChain.tip_eq_some_iff.1 (h.tip ▸ htip)
      change tip < 2 ^ 32
      omega
  timestamp_lt i info hinfo := by
    change (if i < 2 ^ 32 then s.blockInfo i else none) = some info at hinfo
    split at hinfo
    · have hi : i < chain.length := by
        rw [h.blockInfo_eq] at hinfo
        obtain ⟨b,hb,_⟩ := Option.map_eq_some_iff.1 hinfo
        exact (List.getElem?_eq_some_iff.1 hb).1
      simpa [hinfo] using htime i hi
    · cases hinfo

def sampleTold (offers : List (Nat × RawBlock)) : ChainState :=
  runBlocks sampleCrypto offers (sampleNode defaultConfig .none 1000)

theorem sampleTold_inRange {offers : List (Nat × RawBlock)} {n : Nat}
    (hids : UniqueIds sampleCrypto (blocksOf sampleCrypto (offers.map Prod.snd)))
    (htip : (sampleTold offers).tip = some n) (hn : n < 2 ^ 32)
    (htime : ∀ i < n + 1, ((sampleTold offers).blockInfo i).all fun info =>
      info.timestamp < 2 ^ 64) : (sampleTold offers).templateChain.InRange := by
  obtain ⟨chain,hkept⟩ := runBlocks_sound (sampleNode_open defaultConfig .none 1000) hids
    fun offer (h : offer ∈ offers) => List.mem_map_of_mem h
  have hlen := MainChain.tip_eq_some_iff.1 (hkept.sound.holds.toHoldsTables.tip ▸ htip)
  exact hkept.sound.holds.toHoldsTables.inRange (by omega) (hlen ▸ htime)

def sampleView (chain : ChainState) (inRange : chain.templateChain.InRange) :
    NodeView sampleCrypto where
  chain := chain
  inRange := inRange
  pool := .new sampleCrypto {}
  held := none
  env := sampleMinerEnv
  options := {}
  now_lt := by decide
  ready := true

/-- Three blocks after genesis. -/
def sampleTip : NodeView sampleCrypto :=
  sampleView (sampleTold (sampleMain.take 3))
    (sampleTold_inRange (n := 3) (by decide +kernel) (by decide +kernel) (by decide)
      (by decide +kernel))

/-- The same, and then a heavier branch of three blocks. -/
def sampleOtherTip : NodeView sampleCrypto :=
  sampleView (sampleTold (sampleMain.take 3 ++ sampleHeavyBranch))
    (sampleTold_inRange (n := 3) (by decide +kernel) (by decide +kernel) (by decide)
      (by decide +kernel))

def sampleLogin : List (StratumEvent sampleCrypto) :=
  [.login 0 sampleAddress "agent",.build 0,.push 0]

def sampleMove : List (StratumEvent sampleCrypto) := sampleLogin ++ [.chain sampleOtherTip]

def StratumServer.bases (s : StratumServer cx) (i : Nat) : List Hash :=
  (s.clients i).state.jobs.map fun job => job.block.previousBlockHash

/-- While the chain stays, the answer extends its tip. -/
theorem getJob_extends_tip_sample :
    let s := (StratumServer.start sampleTip 0).run sampleLogin
    ∃ message t job, s.handleGetJob 0 = (.job message,t) ∧
      (t.clients 0).state.jobs.getLast? = some job ∧
      job.block.previousBlockHash = s.view.tipHash := by
  intro s
  have hjob : (s.handleGetJob 0).1.isJob = true := by decide +kernel
  obtain ⟨message,t,hanswer⟩ := StratumServer.handleGetJob_of_isJob hjob
  obtain ⟨job,hlast,_,_,_,hextends⟩ := getJob_extends_tip hanswer
  refine ⟨message,t,job,hanswer,hlast,hextends fun before hbefore _ => ?_⟩
  have hsame : ∀ n ≤ sampleLogin.length,
      ((StratumServer.start sampleTip 0).run (sampleLogin.take n)).view.tipHash = s.view.tipHash := by
    decide +kernel
  rw [List.prefix_iff_eq_take.1 hbefore]
  exact hsame _ hbefore.length_le

/-- After a switch to a chain of the same height the miner is answered with the job for the
tip that was left. -/
theorem getJob_on_left_tip :
    let s := (StratumServer.start sampleTip 0).run sampleMove
    s.view.topIndex = sampleTip.topIndex ∧ s.view.tipHash ≠ sampleTip.tipHash ∧
      (s.handleGetJob 0).1.isJob = true ∧
      (s.handleGetJob 0).2.bases 0 = [sampleTip.tipHash] := by
  decide +kernel

end Wrkz
