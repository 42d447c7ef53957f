import Wrkz.Node.Engine

/-!
The chain and the pool as the daemon's threads share them. The engine applies one block
after the other; each call of `submit_block` and each admission runs on a thread of its
own. A section under a lock is one step: the engine lets go of the chain between
`add_block` and each piece of the pool's bookkeeping, and both paths describe to the
listeners what a block did after they have let go of every lock, one reading of the chain
at a time. `stream` is what the listeners have been told, in order; `applied` keeps the
outcomes of `add_block` for comparison.
-/

set_option autoImplicit false

namespace Wrkz

open Library

inductive PoolRemoval where
  | inBlock
  | outdated
  | notActual
  deriving DecidableEq, Repr

inductive ChainEvent where
  | blockAdded (index : Nat) (hash : Hash) (transactionHashes : List Hash)
  | alternativeBlockAdded (index : Nat) (hash : Hash)
  | chainSwitched (commonRootIndex : Nat) (hashes : List Hash)
  | poolAdded (hash : Hash)
  | poolRemoved (hashes : List Hash) (reason : PoolRemoval)
  deriving DecidableEq, Repr

structure AppliedBlock where
  outcome : AddOutcome
  blockBlob : Bytes
  lowestUnwound : Option Nat
  poolRemoved : List Hash
  poolRestored : List Hash
  deriving DecidableEq, Repr

def removalEvents (hashes : List Hash) (reason : PoolRemoval) : List ChainEvent :=
  if hashes = [] then [] else [.poolRemoved hashes reason]

namespace AppliedBlock

variable (applied : AppliedBlock)

def switchIndexes : Option (List Nat) :=
  if applied.outcome.status = .alternativeAndSwitched then
    applied.lowestUnwound.map fun lowest =>
      List.range' (lowest - 1) (applied.outcome.index + 1 - (lowest - 1))
  else none

def mined : List Hash :=
  match BlockTemplate.fromBytes applied.blockBlob with
  | .ok block => block.transactionHashes
  | .error _ => []

def poolEvents : List ChainEvent :=
  removalEvents (applied.poolRemoved.filter (· ∈ applied.mined)) .inBlock ++
    removalEvents (applied.poolRemoved.filter (· ∉ applied.mined)) .notActual ++
    applied.poolRestored.map .poolAdded

/-- The block or the switch; `hashes` is what the readings of `switchIndexes` gave. -/
def chainEvents (cx : Crypto) (hashes : Option (List Hash)) : List ChainEvent :=
  match applied.outcome.status with
  | .main =>
    match BlockTemplate.fromBytes applied.blockBlob with
    | .ok block =>
      [.blockAdded applied.outcome.index applied.outcome.hash
        ((block.baseTransaction.hash cx).toOption.toList ++ block.transactionHashes)]
    | .error _ => []
  | .alternativeAndSwitched =>
    match applied.lowestUnwound, hashes with
    | some lowest, some hashes => [.chainSwitched (lowest - 1) hashes]
    | _, _ => []
  | .alternative => []

def blockEvents (cx : Crypto) (hashes : Option (List Hash)) : List ChainEvent :=
  if applied.outcome.status = .alternative then
    [.alternativeBlockAdded applied.outcome.index applied.outcome.hash]
  else applied.poolEvents ++ applied.chainEvents cx hashes

end AppliedBlock

/-- `block_applied` on its way: the hashes read so far and the indexes left to read, then
the events left to publish. -/
inductive Describing where
  | reading (applied : AppliedBlock) (hashes : List Hash) (left : List Nat)
  | publishing (events : List ChainEvent)
  deriving DecidableEq, Repr

namespace Describing

def start (cx : Crypto) (applied : AppliedBlock) : Describing :=
  match applied.switchIndexes with
  | some indexes => .reading applied [] indexes
  | none => .publishing (applied.blockEvents cx none)

/-- One reading of the chain, or one event; `none` when there is nothing left to do. -/
def step (cx : Crypto) (hashAt : Nat → Option Hash) :
    Describing → Option (Describing × List ChainEvent)
  | .reading applied hashes [] => some (.publishing (applied.blockEvents cx (some hashes)),[])
  | .reading applied hashes (index :: left) =>
    match hashAt index with
    | some hash => some (.reading applied (hashes ++ [hash]) left,[])
    | none => some (.publishing (applied.blockEvents cx none),[])
  | .publishing (event :: events) => some (.publishing events,[event])
  | .publishing [] => none

end Describing

def ChainState.blockHashByIndex (s : ChainState) (index : Nat) : Option Hash :=
  if s.tip.getD 0 < index then none else (s.chainHash index).toOption

/-- Where `apply_block` has got to: the look whether the pool is empty, the sweep of the
block, the sweep of a switch, the return of unwound transactions, the aging, the events. -/
inductive EngineCall where
  | idle
  | checking (raw : RawBlock) (report : AddReport)
  | mined (raw : RawBlock) (report : AddReport)
  | switched (raw : RawBlock) (report : AddReport)
  | unwound (raw : RawBlock) (report : AddReport)
  | cleaning (raw : RawBlock) (report : AddReport)
  | describing (description : Describing)
  deriving DecidableEq, Repr

/-- What the engine tells of a block; the pool's events are published by the pool. -/
def AppliedBlock.ofReport (raw : RawBlock) (report : AddReport) : AppliedBlock :=
  ⟨report.outcome,raw.block,report.unwound.getLast?.map UnwoundBlock.index,[],[]⟩

def AppliedBlock.ofUpdate (block : Bytes) (update : ChainUpdate) : AppliedBlock :=
  ⟨update.outcome,block,update.lowestUnwound,update.removed,update.restored⟩

structure SharedNode (cx : Crypto) where
  chain : ChainState
  pool : TransactionPool cx
  engine : EngineCall
  submits : List Describing
  stream : List ChainEvent
  applied : List AddOutcome

namespace SharedNode

variable {cx : Crypto}

def start (cx : Crypto) (chain : ChainState) (cfg : PoolConfig) : SharedNode cx :=
  ⟨chain,TransactionPool.new cx cfg,.idle,[],[],[]⟩

variable (n : SharedNode cx)

def AtRest : Prop := n.engine = .idle ∧ n.submits = []

instance : Decidable n.AtRest := inferInstanceAs (Decidable (_ ∧ _))

def tick (now : Nat) : SharedNode cx := { n with pool := { n.pool with clock := now } }

def addTransaction (blob : Bytes) (source : PoolSource) : SharedNode cx :=
  { n with pool := (n.pool.add blob n.chain.poolChain source).2 }

/-- `apply_block` up to the end of the chain's guard. -/
def apply (raw : RawBlock) (now : Nat) : SharedNode cx :=
  if n.engine = .idle then
    match ChainState.addBlockDetailed cx raw (n.chain.atClock now) with
    | .error _ chain => { n with chain := chain }
    | .ok report chain =>
      { n with
        chain := chain
        applied := n.applied ++ [report.outcome]
        engine :=
          if report.outcome.status = .alternative then
            .describing (.start cx (.ofReport raw report))
          else .checking raw report }
  else n

def engineStep : SharedNode cx :=
  match n.engine with
  | .idle => n
  | .checking raw report =>
    { n with engine := if n.pool.hashes = [] then .switched raw report else .mined raw report }
  | .mined raw report =>
    { n with
      pool := (n.pool.onBlockAdded n.chain.poolChain (minedHashes cx raw.transactions)
        (spentKeyImages raw.transactions)).2
      engine := .switched raw report }
  | .switched raw report =>
    { n with
      pool := if report.outcome.status = .alternativeAndSwitched then
        (n.pool.removeSpentInChain n.chain.poolChain).2 else n.pool
      engine := .unwound raw report }
  | .unwound raw report =>
    let returned := report.unwound.flatMap UnwoundBlock.transactions
    { n with
      pool := if returned = [] then n.pool else
        (n.pool.copyTransactionsToPool n.chain.poolChain returned).2
      engine := .cleaning raw report }
  | .cleaning raw report =>
    { n with
      pool := (n.pool.clean (report.outcome.index + 1)).2
      engine := .describing (.start cx (.ofReport raw report)) }
  | .describing description =>
    match description.step cx (fun index => (n.chain.chainHash index).toOption) with
    | some (description,events) =>
      { n with engine := .describing description, stream := n.stream ++ events }
    | none => { n with engine := .idle }

def pooledBlobs (hashes : List Hash) : Option (List Bytes) :=
  hashes.mapM fun hash => (n.pool.get hash).map (·.blob)

/-- The block a call of `submit_block` hands to `add_block`. -/
def submitted (block : Bytes) : Option RawBlock :=
  match BlockTemplate.fromBytes block with
  | .error _ => none
  | .ok template => (n.pooledBlobs template.transactionHashes).map fun blobs => ⟨block,blobs⟩

/-- `submit_block` up to the end of the chain's guard. -/
def submit (block : Bytes) (now : Nat) : SharedNode cx :=
  match n.submitted block with
  | none => n
  | some raw =>
    match addBlockWithPool cx raw n.pool (n.chain.atClock now) with
    | (.error _,pool,chain) => { n with pool := pool, chain := chain }
    | (.ok update,pool,chain) =>
      { n with
        pool := pool
        chain := chain
        applied := n.applied ++ [update.outcome]
        submits := n.submits ++ [.start cx (.ofUpdate block update)] }

/-- The next piece of the `k`-th submission that still has something to tell. -/
def submitStep (k : Nat) : SharedNode cx :=
  match n.submits[k]? with
  | none => n
  | some description =>
    match description.step cx n.chain.blockHashByIndex with
    | some (description,events) =>
      { n with submits := n.submits.set k description, stream := n.stream ++ events }
    | none => { n with submits := n.submits.eraseIdx k }

end SharedNode

inductive SharedEvent where
  | tick (now : Nat)
  | addTransaction (blob : Bytes) (source : PoolSource)
  | apply (raw : RawBlock) (now : Nat)
  | engine
  | submit (block : Bytes) (now : Nat)
  | submitStep (k : Nat)
  deriving DecidableEq, Repr

namespace SharedNode

variable {cx : Crypto}

def step (n : SharedNode cx) : SharedEvent → SharedNode cx
  | .tick now => n.tick now
  | .addTransaction blob source => n.addTransaction blob source
  | .apply raw now => n.apply raw now
  | .engine => n.engineStep
  | .submit block now => n.submit block now
  | .submitStep k => n.submitStep k

def run (n : SharedNode cx) (events : List SharedEvent) : SharedNode cx := events.foldl step n

/-- The block a step hands to `add_block`. -/
def offered (n : SharedNode cx) : SharedEvent → Option RawBlock
  | .apply raw _ => some raw
  | .submit block _ => n.submitted block
  | _ => none

def offers : SharedNode cx → List SharedEvent → List RawBlock
  | _, [] => []
  | n, e :: events => (n.offered e).toList ++ (n.step e).offers events

/-- Left to itself, `apply_block` does to the chain and the pool what the engine's model
has it do in one go. -/
theorem apply_alone (n : SharedNode cx) {raw : RawBlock} {now : Nat} {report : AddReport}
    {chain : ChainState} (hidle : n.engine = .idle)
    (hadd : ChainState.addBlockDetailed cx raw (n.chain.atClock now) = .ok report chain)
    (hmain : report.outcome.status ≠ .alternative) :
    ∃ k, ∃ m : SharedNode cx, m = n.run (.apply raw now :: List.replicate k .engine) ∧
      m.chain = chain ∧ m.pool = n.pool.afterBlock chain.poolChain raw report := by
  have happly : n.apply raw now = { n with
      chain := chain
      applied := n.applied ++ [report.outcome]
      engine := .checking raw report } := by
    simp only [apply, if_pos hidle, hadd, if_neg hmain]
  by_cases hempty : n.pool.hashes = []
  · refine ⟨4,_,rfl,?_⟩
    simp only [run, List.replicate, List.foldl_cons, List.foldl_nil, step, happly, engineStep,
      if_pos hempty, TransactionPool.afterBlock, and_self]
  · refine ⟨5,_,rfl,?_⟩
    simp only [run, List.replicate, List.foldl_cons, List.foldl_nil, step, happly, engineStep,
      if_neg hempty, TransactionPool.afterBlock, and_self]

end SharedNode

end Wrkz
