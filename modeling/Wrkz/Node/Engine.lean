import Wrkz.Chain.Run
import Wrkz.Mempool.Blocks
import Wrkz.Node.Sync

/-!
The engine of a node: one thread that owns the chain, the pool and the connections and
takes one event after the other. Frames are given as read: `none` stands for a payload
that does not parse, except for the lists of hashes, which are given as bytes. What the
peer manager decides (bans, peer lists) comes with the event; closing the connections of
an address that has just been banned is an event of its own.
-/

set_option autoImplicit false

namespace Wrkz

open Library

structure GetObjectsResponse where
  blocks : List RawBlock
  missedIds : List Hash
  currentBlockchainHeight : Nat
  deriving DecidableEq, Repr

structure NewBlock where
  block : RawBlock
  currentBlockchainHeight : Nat
  hop : Nat
  deriving DecidableEq, Repr

structure MissingTxs where
  currentBlockchainHeight : Nat
  blockHash : Hash
  missingTxs : List Hash
  deriving DecidableEq, Repr

structure Handshake where
  networkId : Nat
  version : Nat
  /-- Our own peer id: the connection leads back to us. -/
  fromSelf : Bool
  sync : CoreSyncData
  deriving DecidableEq, Repr

inductive Message where
  | requestChain (payload : Bytes)
  | responseChainEntry (payload : Bytes)
  | requestGetObjects (blocks : List Hash)
  | responseGetObjects (response : GetObjectsResponse)
  | requestTxPool (payload : Bytes)
  | newTransactions (txs : List Bytes)
  | newBlock (block : NewBlock)
  | newLiteBlock (block : LiteBlock)
  | missingTxs (request : MissingTxs)
  | timedSyncRequest (sync : CoreSyncData)
  | timedSyncResponse (sync : CoreSyncData)
  | handshakeResponse (sync : CoreSyncData)
  | pingResponse
  | handlerNotDefined
  deriving DecidableEq, Repr

inductive Frame where
  | handshake (request : Option Handshake)
  | timedSync (sync : Option CoreSyncData)
  /-- The return code, whether the peer list was taken, the data. -/
  | timedSyncResponse (success listTaken : Bool) (sync : Option CoreSyncData)
  | ping
  | requestChain (payload : Bytes)
  | responseChainEntry (payload : Bytes)
  | requestGetObjects (blocks : Option (List Hash))
  | responseGetObjects (response : Option GetObjectsResponse)
  | requestTxPool (payload : Bytes)
  | newBlock (block : Option NewBlock)
  | newLiteBlock (block : Option LiteBlock)
  | newTransactions (txs : Option (List Bytes))
  | missingTxs (request : Option MissingTxs)
  | unknown (haveToReturnData : Bool)
  | unexpectedResponse
  deriving DecidableEq, Repr

def p2pMinimumVersion : Nat := 16
def p2pLiteBlocksPropogationVersion : Nat := 4
def serveObjectsMaxBytes : Nat := 32*1024*1024 - 4*1024*1024
def txBatchBytes : Nat := 4*1024*1024
def requestDeadlineGrace : Nat := 10*1000

structure NodeConfig where
  networkId : Nat := 0
  maxOutgoing : Nat := 8
  maxIncoming : Nat := 8
  tuning : SyncTuning := {}
  prunedDepth : Option Nat := none
  liteStartHeight : Option Nat := none
  chainRequestTimeout : Nat := 30*1000
  objectsTimeoutMin : Nat := 60*1000
  objectsTimeoutMax : Nat := 180*1000
  timedSyncInterval : Nat := 60*1000
  handshakeTimeout : Nat := 10*1000
  idleTimeout : Nat := 600*1000
  deriving DecidableEq, Repr

/-- The write side of a connection, as the engine sees it. -/
structure Sink where
  /-- There is room for another frame. -/
  accepts : Bool := true
  /-- A get-objects answer is queued or being written. -/
  objectsInFlight : Bool := false
  framesWaiting : Nat := 0
  deriving DecidableEq, Repr

structure Peer where
  ctx : PeerCtx
  sink : Sink := {}
  deriving DecidableEq, Repr

abbrev Peers := AList (fun _ : ConnId => Peer)

/-- Why a handler wants its connection closed, without the values the text quotes. -/
structure PeerError where
  reason : String
  offence : Option Offence := none
  deriving DecidableEq, Repr

def malformed (what : String) : PeerError := ⟨what,some .malformed⟩

def connectionGone : PeerError := { reason := "connection gone" }

structure Node (cx : Crypto) where
  chain : ChainState
  pool : TransactionPool cx
  cfg : NodeConfig
  peers : Peers
  instant : Nat
  observedHeight : Nat
  synchronized : Bool
  syncClaimed : Bool
  /-- The engine must not run on. -/
  stop : Bool
  sent : List (ConnId × Message)
  offences : List (ConnId × Offence)

inductive Processed where
  | continue
  | stop
  deriving DecidableEq, Repr

def TxRule.isIntrinsic : TxRule → Bool
  | .emptyInputs | .inputUnknownType | .inputIdenticalKeyImages | .inputEmptyOutputUsage
  | .inputInvalidDomainKeyImages | .inputIdenticalOutputIndexes | .inputsAmountOverflow
  | .outputInvalidKey | .outputsAmountOverflow | .powInvalid _
  | .inputInvalidSignaturesCount _ _ | .inputInvalidSignatures _ => true
  | _ => false

def blockOffence : Rule → Option Offence
  | .proofOfWorkTooWeak _ => some .badProofOfWork
  | .checkpointBlockHashMismatch _ _ => some .checkpointMismatch
  | .deserializationFailed _ | .parentBlockWrongVersion | .parentBlockSizeTooBig
  | .coinbaseInputWrongCount _ | .coinbaseInputUnexpectedType | .baseInputWrongBlockIndex _ _
  | .coinbaseHasSignatures | .coinbaseOutputZeroAmount | .coinbaseOutputInvalidKey
  | .coinbaseOutputsAmountOverflow | .transactionDuplicates | .transactionInconsistency
  | .blockRewardMismatch _ _ => some .invalidBlock
  | .transaction _ _ rule => if rule.isIntrinsic then some .invalidBlock else none
  | _ => none

def blockError (rule : Rule) (context : String) : PeerError := ⟨context,blockOffence rule⟩

/-- Runs of at most `txBatchBytes`, a larger blob on its own. -/
def txBatchesFrom : List Bytes → List Bytes → Nat → List (List Bytes)
  | [], current, _ => if current = [] then [] else [current]
  | blob :: rest, current, bytes =>
    if current ≠ [] ∧ txBatchBytes < bytes + blob.length then
      current :: txBatchesFrom rest [blob] blob.length
    else txBatchesFrom rest (current ++ [blob]) (bytes + blob.length)

def txBatches (blobs : List Bytes) : List (List Bytes) := txBatchesFrom blobs [] 0

inductive TxVerdict where
  | accepted
  | notAccepted
  | invalid
  deriving DecidableEq, Repr

def verdictOf : PoolStatus → TxVerdict
  | .added => .accepted
  | .deserializationFailed => .invalid
  | .rejected rule | .cachedRejection rule => if rule.isIntrinsic then .invalid else .notAccepted
  | _ => .notAccepted

def TransactionPool.afterBlock {cx : Crypto} (pool : TransactionPool cx) (chain : PoolChain)
    (raw : RawBlock) (report : AddReport) : TransactionPool cx :=
  let pool := if pool.hashes = [] then pool else
    (pool.onBlockAdded chain (minedHashes cx raw.transactions) (spentKeyImages raw.transactions)).2
  let pool := if report.outcome.status = .alternativeAndSwitched then
    (pool.removeSpentInChain chain).2 else pool
  let returned := report.unwound.flatMap UnwoundBlock.transactions
  let pool := if returned = [] then pool else (pool.copyTransactionsToPool chain returned).2
  (pool.clean (report.outcome.index + 1)).2

/-- From the front, skipping what is held, up to `batch` hashes; and what is left. -/
def takeBatch (held : Hash → Bool) : List Hash → Nat → List Hash × List Hash
  | needed, 0 => ([],needed)
  | [], _ + 1 => ([],[])
  | hash :: rest, batch + 1 =>
    if held hash then takeBatch held rest (batch + 1)
    else
      let (taken,left) := takeBatch held rest batch
      (hash :: taken,left)

def sparseBelow (tip : Nat) : Nat → Nat → List Nat
  | 0, _ => []
  | fuel + 1, i =>
    if i < tip then (tip - i) :: (if i*2 < 2^32 then sparseBelow tip fuel (i*2) else []) else []

def sparseChainIndices (tip : Nat) : List Nat :=
  (tip :: sparseBelow tip 32 1 ++ (if tip ≠ 0 then [0] else [])).destutter (· ≠ ·)

def ChainState.chainHash (s : ChainState) (index : Nat) : Except ChainError Hash :=
  match s.blockInfo index with
  | some info => .ok info.blockHash
  | none => .error (.corrupt s!"no block info at index {index}")

def ChainState.chainHashes (s : ChainState) : List Nat → Except ChainError (List Hash)
  | [] => .ok []
  | index :: rest => do
    let hash ← s.chainHash index
    let hashes ← s.chainHashes rest
    pure (hash :: hashes)

/-- `objects` answers: blocks up to the byte budget, the rest of the list unread. -/
def ChainState.collectObjects (s : ChainState) : List Hash → List RawBlock → List Hash → Nat →
    List RawBlock × List Hash
  | [], blocks, missed, _ => (blocks,missed)
  | hash :: rest, blocks, missed, bytes =>
    match (s.blockIndexByHash hash).bind s.rawBlock with
    | some raw =>
      let size := raw.block.length + (raw.transactions.map List.length).sum
      if blocks ≠ [] ∧ serveObjectsMaxBytes < bytes + size then (blocks,missed)
      else s.collectObjects rest (blocks ++ [raw]) missed (bytes + size)
    | none => s.collectObjects rest blocks (missed ++ [hash]) bytes

abbrev NodeM (cx : Crypto) := EStateM PeerError (Node cx)

namespace Node

variable {cx : Crypto}

section

variable (n : Node cx)

def height : Nat := (n.chain.tip.map (· + 1)).getD 0

def topHash : Hash := (n.chain.tipInfo.map BlockInfo.blockHash).getD default

def contexts : List PeerCtx := n.peers.entries.map fun e => e.2.ctx

def ids : List ConnId := n.peers.entries.map Sigma.fst

def ctx? (id : ConnId) : Option PeerCtx := (n.peers.lookup id).map Peer.ctx

def setPeer (id : ConnId) (p : Peer) : Node cx := { n with peers := n.peers.insert id p }

def updateCtx (id : ConnId) (f : PeerCtx → PeerCtx) : Node cx :=
  match n.peers.lookup id with
  | none => n
  | some p => n.setPeer id { p with ctx := f p.ctx }

def recalculateObservedHeight : Node cx :=
  { n with observedHeight := Wrkz.recalculateObservedHeight n.contexts }

def dropPeer (id : ConnId) : Node cx :=
  ({ n with peers := n.peers.erase id } : Node cx).recalculateObservedHeight

def post (id : ConnId) (message : Message) : Node cx :=
  match n.peers.lookup id with
  | none => n
  | some p =>
    if p.sink.accepts then { n with sent := n.sent ++ [(id,message)] } else n.dropPeer id

def penalise (id : ConnId) (offence : Offence) : Node cx :=
  match n.peers.lookup id with
  | none => n
  | some _ => { n with offences := n.offences ++ [(id,offence)] }

def failPeer (id : ConnId) (error : PeerError) : Node cx :=
  match error.offence with
  | some offence => (n.penalise id offence).dropPeer id
  | none => n.dropPeer id

def coreSyncData : CoreSyncData where
  currentHeight := n.height
  topId := n.topHash
  capabilityFlags := (if n.cfg.prunedDepth.isSome then nodeCapabilityFlagPruned else 0) |||
    (if n.cfg.liteStartHeight.isSome then nodeCapabilityFlagLite else 0)
  prunedNodeHeight := (n.cfg.prunedDepth.map fun depth => n.height - depth).getD 0
  liteStartHeight := n.cfg.liteStartHeight.getD 0

def applyBlock (raw : RawBlock) : Except ChainError AddOutcome × Node cx :=
  match ChainState.addBlockDetailed cx raw n.chain with
  | .error e chain => (.error e,{ n with chain := chain })
  | .ok report chain =>
    let n := { n with chain := chain }
    (.ok report.outcome,
      if report.outcome.status = .alternative then n
      else { n with pool := n.pool.afterBlock chain.poolChain raw report })

def buildSparseChain : Except ChainError (List Hash) :=
  n.chain.chainHashes (sparseChainIndices (n.chain.tip.getD 0))

def requestMissingPoolTransactions (id : ConnId) : Node cx :=
  n.post id (.requestTxPool (requestTxPool n.pool.hashes))

def requestChainIfPeerCanServe (id : ConnId) : Node cx :=
  match n.ctx? id with
  | none => n
  | some c =>
    if c.chainRequestDeadline.isSome then
      n.updateCtx id fun c => { c with state := .synchronizing }
    else if c.canServeOurChain n.height = false then
      n.updateCtx id fun c => { c with state := .normal }
    else
      let n := n.updateCtx id fun c => { c with state := .synchronizing }
      match n.buildSparseChain with
      | .error _ => { n with stop := true }
      | .ok sparse =>
        let deadline := n.instant + n.cfg.chainRequestTimeout
        (n.updateCtx id fun c => { c with chainRequestDeadline := some deadline }).post id
          (.requestChain (requestChain sparse))

def checkSynchronized : Node cx :=
  if n.synchronized ∨ n.syncClaimed = false then n
  else if majorityNotAhead n.contexts n.height = false then n
  else { n with synchronized := true }

def onConnectionSynchronized : Node cx :=
  ({ n with syncClaimed := true } : Node cx).checkSynchronized

def requestMissingObjects (id : ConnId) (checkHavingBlocks : Bool) : Node cx :=
  match n.ctx? id with
  | none => n
  | some c =>
    if c.neededObjects ≠ [] then
      let (request,left) := takeBatch (fun hash => checkHavingBlocks && n.chain.hasBlock hash)
        c.neededObjects (c.batchSize n.cfg.tuning)
      let n := n.updateCtx id fun c => { c with
        neededObjects := left
        requestedObjects := request.foldl (fun s hash => s.insert hash) c.requestedObjects
        chunkStart := n.instant }
      if request = [] then n
      else
        let timeout := objectsTimeout request.length c.avgBlockBytes n.cfg.objectsTimeoutMin
          n.cfg.objectsTimeoutMax
        (n.updateCtx id fun c => { c with objectsDeadline := some (n.instant + timeout) }).post id
          (.requestGetObjects request)
    else if c.lastResponseHeight < c.remoteHeight - 1 then n.requestChainIfPeerCanServe id
    else
      ((n.requestMissingPoolTransactions id).updateCtx id fun c =>
        { c with state := .normal }).onConnectionSynchronized

/-- `sink.notify_objects`: queued, and the answer is in flight. -/
def notifyObjects (id : ConnId) (response : GetObjectsResponse) : Except PeerError (Node cx) :=
  match n.peers.lookup id with
  | none => .ok n
  | some p =>
    if p.sink.accepts then
      .ok { n.setPeer id { p with sink := { p.sink with objectsInFlight := true } } with
        sent := n.sent ++ [(id,.responseGetObjects response)] }
    else .error { reason := "write queue full" }

def serveObjects (id : ConnId) (wanted : List Hash) : Except PeerError (Node cx) :=
  let (blocks,missed) := n.chain.collectObjects wanted [] [] 0
  n.notifyObjects id ⟨blocks,missed,n.height⟩

def serveDeferredObjectsFor (id : ConnId) : Node cx :=
  match n.peers.lookup id with
  | none => n
  | some p =>
    if p.sink.objectsInFlight then n
    else
      match p.ctx.deferredObjectsRequest with
      | none => n
      | some wanted =>
        let n := n.updateCtx id fun c => { c with deferredObjectsRequest := none }
        match n.serveObjects id wanted with
        | .ok n => n
        | .error e => n.failPeer id e

def pumpState (id : ConnId) : Node cx :=
  let n := n.serveDeferredObjectsFor id
  match (n.ctx? id).map PeerCtx.state with
  | some .syncRequired => n.requestChainIfPeerCanServe id
  | some .poolSyncRequired =>
    (n.updateCtx id fun c => { c with state := .normal }).requestMissingPoolTransactions id
  | _ => n

def relayToAll (message : Message) (exclude : Option ConnId) : Node cx :=
  (n.ids.filter fun id => some id ≠ exclude).foldl (fun n id => n.post id message) n

def relayBlock (nb : NewBlock) : Node cx :=
  (n.peers.entries.map fun e =>
    (e.1,decide (p2pLiteBlocksPropogationVersion ≤ e.2.ctx.version))).foldl
    (fun n (target : ConnId × Bool) => n.post target.1
      (if target.2 = true then .newLiteBlock ⟨nb.currentBlockchainHeight,nb.hop,nb.block.block⟩
      else .newBlock nb)) n

def relayNewBlock (raw : RawBlock) : Node cx := n.relayBlock ⟨raw,n.height,0⟩

def handSyncToAnotherPeer (except : ConnId) : Node cx :=
  let syncing := (n.contexts.filter fun c => c.state.isSyncing).length
  if 0 < n.cfg.tuning.maxPeers ∧ n.cfg.tuning.maxPeers ≤ syncing then n
  else
    let able := n.peers.entries.filter fun e =>
      e.1 ≠ except ∧ e.2.ctx.handshakeDone ∧ (e.2.ctx.state = .normal ∨ e.2.ctx.state = .idle) ∧
        n.height < e.2.ctx.remoteHeight ∧ e.2.ctx.canServeOurChain n.height
    -- the fewest failures, then the most blocks; the first of equals
    let better (a b : ConnId × PeerCtx) : Bool :=
      a.2.syncFailures < b.2.syncFailures ∨
        (a.2.syncFailures = b.2.syncFailures ∧ b.2.blocksAdded < a.2.blocksAdded)
    let next := (able.map fun e => (e.1,e.2.ctx)).foldl
      (fun best a => match best with
        | none => some a
        | some b => if better a b then some a else some b) none
    match next with
    | none => n
    | some a => (n.updateCtx a.1 fun c => { c with state := .syncRequired }).pumpState a.1

def onRequestTimeout (id : ConnId) : Node cx :=
  match n.ctx? id with
  | none => n
  | some c =>
    let c := { c with
      chainRequestDeadline := none
      discardNextChainEntry := c.discardNextChainEntry || c.chainRequestDeadline.isSome
      objectsDeadline := none
      discardNextObjectsResponse := c.discardNextObjectsResponse || c.objectsDeadline.isSome }
    let c := { c.clearSyncLists with pipelinedObjectsOutstanding := false }
    let (dropped,c) := c.onChunkFailure n.cfg.tuning
    let n := n.updateCtx id fun _ => if dropped then c else { c with state := .normal }
    (if dropped then n.dropPeer id else n).handSyncToAnotherPeer id

def requestPassed (p : Peer) : Bool :=
  let grace := if 0 < p.sink.framesWaiting then requestDeadlineGrace else 0
  let passed (d : Option Nat) : Bool := d.any fun d => d + grace ≤ n.instant
  passed p.ctx.chainRequestDeadline || passed p.ctx.objectsDeadline

def expireSyncRequests : Node cx :=
  ((n.peers.entries.filter fun e => n.requestPassed e.2).map Sigma.fst).foldl
    (fun n id => n.onRequestTimeout id) n

def expireConnections : Node cx :=
  ((n.peers.entries.filter fun e =>
    (e.2.ctx.handshakeDone = false ∧ e.2.ctx.connectedAt + n.cfg.handshakeTimeout < n.instant) ∨
      e.2.ctx.lastFrame + n.cfg.idleTimeout < n.instant).map Sigma.fst).foldl
    (fun n id => n.dropPeer id) n

def timedSync : Node cx :=
  let sync := n.coreSyncData
  ((n.peers.entries.filter fun e => e.2.ctx.handshakeDone ∧ e.2.ctx.timedSyncOutstanding = false ∧
    e.2.ctx.state.takesTimedSync ∧
    e.2.ctx.lastTimedSync + n.cfg.timedSyncInterval ≤ n.instant).map Sigma.fst).foldl
    (fun n id => (n.updateCtx id fun c => { c with
      lastTimedSync := n.instant
      timedSyncOutstanding := true }).post id (.timedSyncRequest sync)) n

def serveDeferredObjects : Node cx :=
  ((n.peers.entries.filter fun e => e.2.ctx.deferredObjectsRequest.isSome).map Sigma.fst).foldl
    (fun n id => n.serveDeferredObjectsFor id) n

def onTick : Node cx :=
  n.timedSync.expireConnections.expireSyncRequests.serveDeferredObjects.checkSynchronized

def stateAfterSyncData (id : ConnId) (c : PeerCtx) (sync : CoreSyncData) (isInitial : Bool) :
    PeerState :=
  if c.state = .synchronizing then .synchronizing
  else if n.chain.hasBlock sync.topId then
    if isInitial then .poolSyncRequired else .normal
  else
    let active := (n.peers.entries.filter fun e => e.1 ≠ id ∧ e.2.ctx.state.isSyncing).length
    let forkActive := pruneCapabilityForkActive n.height sync.currentHeight
    let fullNodeMustUseFullPeer := forkActive ∧ n.cfg.prunedDepth.isSome = false ∧ c.remoteIsPruned
    let peerStartsAboveUs := c.canServeOurChain n.height = false
    let capped := 0 < n.cfg.tuning.maxPeers ∧ n.cfg.tuning.maxPeers ≤ active
    if fullNodeMustUseFullPeer ∨ peerStartsAboveUs ∨ capped then
      if isInitial then .poolSyncRequired else .normal
    else .syncRequired

def processPayloadSyncData (id : ConnId) (sync : CoreSyncData) (isInitial : Bool) : Node cx :=
  match n.ctx? id with
  | none => n
  | some c =>
    let c := c.recordCapabilities sync
    let c := if isInitial then c.resetSyncCounters n.cfg.tuning n.instant else c
    if c.state = .beforeHandshake ∧ isInitial = false then n.updateCtx id fun _ => c
    else
      let declare_ := c.state ≠ .synchronizing ∧ n.chain.hasBlock sync.topId ∧ isInitial
      let state := n.stateAfterSyncData id c sync isInitial
      let n := (n.updateCtx id fun _ =>
        { c with state := state, remoteHeight := sync.currentHeight }).recalculateObservedHeight
      if declare_ then n.onConnectionSynchronized else n

end

def fail {α : Type} (e : PeerError) : NodeM cx α := throw e

/-- `peers.get_mut(&id).ok_or("connection gone")`. -/
def peerCtx (id : ConnId) : NodeM cx PeerCtx := do
  match (← get).ctx? id with
  | some c => pure c
  | none => fail connectionGone

def readOr {α : Type} (x : Option α) (e : PeerError) : NodeM cx α :=
  match x with
  | some a => pure a
  | none => fail e

def liftChain {α : Type} (x : Except ChainError α) : NodeM cx α :=
  match x with
  | .ok a => pure a
  | .error _ => fail { reason := "chain read failed" }

def handleHandshake (id : ConnId) (request : Option Handshake) : NodeM cx PUnit := do
  let hs ← readOr request (malformed "bad handshake")
  let n ← get
  if hs.networkId ≠ n.cfg.networkId then fail { reason := "wrong network id" }
  else if hs.version < p2pMinimumVersion then fail { reason := "peer version below the minimum" }
  else do
    let c ← peerCtx id
    if c.incoming = false then
      fail ⟨"COMMAND_HANDSHAKE on an outgoing connection",some .unsolicited⟩
    else if c.handshakeDone then fail ⟨"double COMMAND_HANDSHAKE",some .unsolicited⟩
    else do
      modify fun n => n.updateCtx id fun c => { c with version := hs.version, handshakeDone := true }
      modify fun n => n.processPayloadSyncData id hs.sync true
      modify fun n => n.post id (.handshakeResponse n.coreSyncData)

def handleTimedSync (id : ConnId) (sync : Option CoreSyncData) : NodeM cx PUnit := do
  let sync ← readOr sync (malformed "bad timed sync")
  modify fun n => n.processPayloadSyncData id sync false
  modify fun n => n.post id (.timedSyncResponse n.coreSyncData)

def handleTimedSyncResponse (id : ConnId) (success listTaken : Bool) (sync : Option CoreSyncData) :
    NodeM cx PUnit := do
  let c ← peerCtx id
  if c.timedSyncOutstanding = false then
    fail ⟨"COMMAND_TIMED_SYNC response without a request",some .unsolicited⟩
  else do
    modify fun n => n.updateCtx id fun c => { c with timedSyncOutstanding := false }
    if success = false then fail { reason := "timed sync return code" }
    else do
      let sync ← readOr sync (malformed "bad timed sync response")
      if listTaken = false then fail { reason := "timed sync peer list has a future last_seen" }
      else modify fun n => n.processPayloadSyncData id sync false

def handleRequestChain (id : ConnId) (payload : Bytes) : NodeM cx PUnit := do
  let ids ← readOr (parseRequestChain payload).toOption (malformed "bad chain request")
  let n ← get
  let genesis ← liftChain (n.chain.chainHash 0)
  if ids.getLast? ≠ some genesis then
    fail { reason := "chain request does not end with the genesis id" }
  else do
    let start ← readOr (ids.findSome? n.chain.blockIndexByHash)
      { reason := "chain request lists no block we know" }
    let tip := n.chain.tip.getD 0
    let last := min tip (min (start + (blocksIdsSynchronizingDefaultCount - 1)) (2^32 - 1))
    let hashes ← liftChain (n.chain.chainHashes (List.range' start (last + 1 - start)))
    modify fun n => n.post id (.responseChainEntry (chainEntry start (tip + 1) hashes))

def handleResponseChainEntry (id : ConnId) (payload : Bytes) : NodeM cx PUnit := do
  let c ← peerCtx id
  modify fun n => n.updateCtx id fun c => { c with chainRequestDeadline := none }
  if c.chainRequestDeadline = none then
    if c.discardNextChainEntry then
      modify fun n => n.updateCtx id fun c => { c with discardNextChainEntry := false }
    else fail ⟨"NOTIFY_RESPONSE_CHAIN_ENTRY without a request",some .unsolicited⟩
  else do
    let entry ← readOr (parseChainEntry payload).toOption (malformed "bad chain entry")
    let n ← get
    if (entry.blockIds.head?.any n.chain.hasBlock) = false then
      fail { reason := "chain entry starts at the unknown id" }
    else do
      let needed := entry.blockIds.dropWhile n.chain.hasBlock
      let last := min (entry.startHeight + entry.blockIds.length) (2^32 - 1) - 1
      modify fun n => n.updateCtx id fun c => { c with
        remoteHeight := entry.totalHeight
        lastResponseHeight := last }
      if entry.totalHeight < last then
        fail { reason := "chain entry claims a total height but ends above it" }
      else do
        modify fun n => n.updateCtx id fun c => { c with neededObjects := needed }
        modify fun n => n.recalculateObservedHeight.requestMissingObjects id false

def handleRequestGetObjects (id : ConnId) (blocks : Option (List Hash)) : NodeM cx PUnit := do
  let wanted ← readOr blocks (malformed "bad get objects")
  let n ← get
  let p ← readOr (n.peers.lookup id) connectionGone
  if p.sink.objectsInFlight then
    if p.ctx.deferredObjectsRequest.isSome then
      fail ⟨"NOTIFY_REQUEST_GET_OBJECTS while two are unanswered",some .unsolicited⟩
    else modify fun n => n.updateCtx id fun c => { c with deferredObjectsRequest := some wanted }
  else
    match n.serveObjects id wanted with
    | .ok n => set n
    | .error e => fail e

def handleRequestTxPool (id : ConnId) (payload : Bytes) : NodeM cx PUnit := do
  let theirs ← readOr (parseRequestTxPool payload).toOption (malformed "bad pool request")
  modify fun n =>
    let blobs := (n.pool.hashes.filter fun hash => hash ∉ theirs).filterMap fun hash =>
      (n.pool.get hash).map (·.blob)
    (txBatches blobs).foldl (fun n batch => n.post id (.newTransactions batch)) n

/-- `process_objects`: each block through the chain, until one is not taken. -/
def processObjects (id : ConnId) : List RawBlock → Node cx → Processed × Node cx
  | [], n => (.continue,n)
  | raw :: rest, n =>
    match n.applyBlock raw with
    | (.ok _,n) =>
      processObjects id rest (n.updateCtx id fun c => { c with blocksAdded := c.blocksAdded + 1 })
    | (.error (.rule .alreadyExists),n) =>
      (.stop,n.updateCtx id fun c => { c.clearSyncLists with
        state := .idle
        discardNextObjectsResponse := c.pipelinedObjectsOutstanding })
    | (.error (.rule .rejectedAsOrphaned),n) =>
      match n.ctx? id with
      | none => (.stop,n)
      | some c =>
        let n := n.updateCtx id fun c => { c.clearSyncLists with
          orphanRetries := c.orphanRetries + 1
          discardNextObjectsResponse := c.pipelinedObjectsOutstanding }
        if syncOrphanRetryLimit ≤ c.orphanRetries + 1 then (.stop,n.dropPeer id)
        else (.stop,n.requestChainIfPeerCanServe id)
    | (.error (.rule rule),n) => (.stop,n.failPeer id (blockError rule "block verification failed"))
    | (.error (.corrupt _),n) => (.stop,{ n with stop := true })

/-- Every block parses, was asked for and carries as many transactions as it lists. -/
def checkBlocks (cx : Crypto) : List RawBlock → List Hash → Except PeerError (List Hash)
  | [], requested => .ok requested
  | raw :: rest, requested =>
    match BlockTemplate.fromBytes raw.block with
    | .error _ => .error (malformed "peer sent a block that does not parse")
    | .ok template =>
      match template.hash cx with
      | .error _ => .error (malformed "peer sent a block that does not hash")
      | .ok hash =>
        if hash ∉ requested then .error ⟨"block was not requested",some .unrequestedBlock⟩
        else if template.transactionHashes.length ≠ raw.transactions.length then
          .error (malformed "block lists another number of transactions than it carries")
        else checkBlocks cx rest (requested.erase hash)

def rawBytes (blocks : List RawBlock) : Nat :=
  (blocks.map fun raw => raw.block.length + (raw.transactions.map List.length).sum).sum

def applyBatch (id : ConnId) (blocks : List RawBlock) (pipelined : Bool) (n : Node cx) : Node cx :=
  let n := n.updateCtx id fun c => { c with pipelinedObjectsOutstanding := pipelined }
  let (outcome,n) := processObjects id blocks n
  let n := n.updateCtx id fun c => { c with pipelinedObjectsOutstanding := false }
  match outcome with
  | .stop => n
  | .continue =>
    let n := n.updateCtx id fun c => { c with syncFailures := 0, orphanRetries := 0 }
    if pipelined = false ∧ (n.ctx? id).map PeerCtx.state = some .synchronizing then
      n.requestMissingObjects id true
    else n

/-- A batch that holds all that was asked for. The next one is asked for before this one
is applied, when there is something to ask for. -/
def takeBlocks (id : ConnId) (blocks : List RawBlock) (n : Node cx) : Node cx :=
  let n := n.updateCtx id fun c =>
    c.onChunkSuccess blocks.length (rawBytes blocks) n.cfg.tuning n.instant
  if (n.ctx? id).any fun c => c.neededObjects ≠ [] ∧ c.state = .synchronizing then
    applyBatch id blocks true (n.requestMissingObjects id true)
  else applyBatch id blocks false n

def handleResponseGetObjects (id : ConnId) (response : Option GetObjectsResponse) :
    NodeM cx PUnit := do
  let c ← peerCtx id
  modify fun n => n.updateCtx id fun c => { c with objectsDeadline := none }
  if c.discardNextObjectsResponse then
    modify fun n => n.updateCtx id fun c => { c with discardNextObjectsResponse := false }
  else if c.objectsDeadline = none then
    fail { reason := "NOTIFY_RESPONSE_GET_OBJECTS without a request" }
  else do
    let response ← readOr response (malformed "bad get objects response")
    if response.currentBlockchainHeight < c.lastResponseHeight then
      fail { reason := "peer height below our last response height" }
    else do
      modify fun n => (n.updateCtx id fun c => { c with
        remoteHeight := max c.remoteHeight response.currentBlockchainHeight
        }).recalculateObservedHeight
      match checkBlocks cx response.blocks c.requestedObjects with
      | .error e => fail e
      | .ok outstanding => do
        modify fun n => n.updateCtx id fun c => { c with requestedObjects := outstanding }
        let n ← get
        if outstanding ≠ [] then do
          modify fun n => n.updateCtx id fun c => (c.clearSyncLists.onChunkFailure n.cfg.tuning).2
          if ¬ ∀ hash ∈ outstanding, hash ∈ response.missedIds then
            fail { reason := "peer did not return requested blocks" }
          else if (c.onChunkFailure n.cfg.tuning).1 then fail { reason := "too many sync failures" }
          else modify fun n => n.requestChainIfPeerCanServe id
        else modify (takeBlocks id response.blocks)

def afterRelayed (id : ConnId) (outcome : Except ChainError AddOutcome) (theirHeight : Nat)
    (context : String) (relay : Node cx → Node cx) : NodeM cx PUnit :=
  match outcome with
  | .ok outcome =>
    match outcome.status with
    | .alternativeAndSwitched => modify fun n => (relay n).requestMissingPoolTransactions id
    | .main => modify relay
    | .alternative =>
      modify fun n => if n.height < theirHeight then n.requestChainIfPeerCanServe id else n
  | .error (.rule .alreadyExists) => pure ⟨⟩
  | .error (.rule .rejectedAsOrphaned) => modify fun n => n.requestChainIfPeerCanServe id
  | .error (.rule rule) => fail (blockError rule context)
  | .error (.corrupt _) => modify fun n => { n with stop := true }

/-- The peer's height as its message states it, and whether it is on relay duty. -/
def noteHeight (id : ConnId) (height : Nat) : NodeM cx Bool := do
  let c ← peerCtx id
  modify fun n =>
    (n.updateCtx id fun c => { c with remoteHeight := height }).recalculateObservedHeight
  pure (c.state = .normal)

def handleNotifyNewBlock (id : ConnId) (block : Option NewBlock) : NodeM cx PUnit := do
  let nb ← readOr block (malformed "bad new block")
  let normal ← noteHeight id nb.currentBlockchainHeight
  if normal = false then pure ⟨⟩
  else do
    let outcome ← modifyGet fun n => n.applyBlock nb.block
    afterRelayed id outcome nb.currentBlockchainHeight "relayed block failed validation"
      fun n => n.relayBlock { nb with hop := (nb.hop + 1) % 2^32 }

def providedByHash (cx : Crypto) (provided : List Bytes) : AList (fun _ : Hash => Bytes) :=
  provided.foldl (fun map blob => match ParsedTx.ofBytes cx blob with
    | some p => map.insert p.hash blob
    | none => map) ∅

/-- Each transaction from what was sent along, or from the pool; and what neither has. -/
def fillBlock (provided : AList (fun _ : Hash => Bytes)) (pool : TransactionPool cx) :
    List Hash → List Bytes × List Hash
  | [] => ([],[])
  | hash :: rest =>
    let (have_,need) := fillBlock provided pool rest
    match provided.lookup hash with
    | some blob => (blob :: have_,need)
    | none =>
      match pool.get hash with
      | some e => (e.blob :: have_,need)
      | none => (have_,hash :: need)

def clearPending (id : ConnId) (n : Node cx) : Node cx :=
  n.updateCtx id fun c => { c with pendingLiteBlock := none }

def pushLiteBlock (id : ConnId) (lb : LiteBlock) (provided : List Bytes) : NodeM cx PUnit := do
  let template ← readOr (BlockTemplate.fromBytes lb.blockTemplate).toOption
    (malformed "lite block template does not parse")
  let blockHash ← readOr (template.hash cx).toOption (malformed "lite block does not hash")
  let map := providedByHash cx provided
  let n ← get
  let pending := (n.ctx? id).bind PeerCtx.pendingLiteBlock
  -- an answer must hold all that was asked for
  if pending.any fun p => p.missedTransactions.any fun hash => (map.lookup hash).isNone then do
    modify (clearPending id)
    fail { reason := "peer did not supply a transaction it was asked for" }
  else
    let (have_,need) := fillBlock map n.pool template.transactionHashes
    if need ≠ [] then
      if pending.isSome then do
        modify (clearPending id)
        fail { reason := "peer has a pending lite block but did not supply every transaction" }
      else
        modify fun n => (n.updateCtx id fun c =>
          { c with pendingLiteBlock := some ⟨lb,need⟩ }).post id
            (.missingTxs ⟨lb.currentBlockchainHeight,blockHash,need⟩)
    else do
      modify (clearPending id)
      let outcome ← modifyGet fun n => n.applyBlock ⟨lb.blockTemplate,have_⟩
      afterRelayed id outcome lb.currentBlockchainHeight "lite block failed validation"
        fun n => n.relayToAll (.newLiteBlock { lb with hop := (lb.hop + 1) % 2^32 }) (some id)

def handleNotifyNewLiteBlock (id : ConnId) (block : Option LiteBlock) : NodeM cx PUnit := do
  let lb ← readOr block (malformed "bad lite block")
  let normal ← noteHeight id lb.currentBlockchainHeight
  if normal = false then pure ⟨⟩ else pushLiteBlock id lb []

/-- Offer the transactions to the pool one by one: those accepted, and whether one of
them was the sender's fault. -/
def addRelayed (chain : PoolChain) : List Bytes → TransactionPool cx →
    (List Bytes × Bool) × TransactionPool cx
  | [], pool => (([],false),pool)
  | blob :: rest, pool =>
    let (status,pool) := pool.add blob chain .network
    let ((accepted,invalid),pool) := addRelayed chain rest pool
    match verdictOf status with
    | .accepted => ((blob :: accepted,invalid),pool)
    | .notAccepted => ((accepted,invalid),pool)
    | .invalid => ((accepted,true),pool)

def handleNotifyNewTransactions (id : ConnId) (txs : Option (List Bytes)) : NodeM cx PUnit := do
  let txs ← readOr txs (malformed "bad transactions")
  let n ← get
  if (n.ctx? id).map PeerCtx.state ≠ some .normal then pure ⟨⟩
  else
    match (n.ctx? id).bind PeerCtx.pendingLiteBlock with
    | some pending => pushLiteBlock id pending.request txs
    | none =>
      modify fun n =>
        let ((accepted,invalid),pool) := addRelayed n.chain.poolChain txs n.pool
        let n := { n with pool := pool }
        let n := if invalid then n.penalise id .invalidTransaction else n
        (txBatches accepted).foldl (fun n batch => n.relayToAll (.newTransactions batch) (some id)) n

/-- The blobs asked for, or the first hash the pool does not hold. -/
def suppliedBlobs (pool : TransactionPool cx) : List Hash → Except Hash (List Bytes)
  | [] => .ok []
  | hash :: rest =>
    match pool.get hash with
    | none => .error hash
    | some e => (suppliedBlobs pool rest).map (e.blob :: ·)

def handleNotifyMissingTxs (id : ConnId) (request : Option MissingTxs) : NodeM cx PUnit := do
  let request ← readOr request (malformed "bad missing txs")
  let n ← get
  match suppliedBlobs n.pool request.missingTxs with
  | .error hash =>
    fail { reason := s!"cannot supply the requested transaction {Hex32.toHex hash}" }
  | .ok blobs => set (n.post id (.newTransactions blobs))

def handler (id : ConnId) : Frame → NodeM cx PUnit
  | .handshake request => handleHandshake id request
  | .timedSync sync => handleTimedSync id sync
  | .timedSyncResponse success listTaken sync => handleTimedSyncResponse id success listTaken sync
  | .ping => modify fun n => n.post id .pingResponse
  | .requestChain payload => handleRequestChain id payload
  | .responseChainEntry payload => handleResponseChainEntry id payload
  | .requestGetObjects blocks => handleRequestGetObjects id blocks
  | .responseGetObjects response => handleResponseGetObjects id response
  | .requestTxPool payload => handleRequestTxPool id payload
  | .newBlock block => handleNotifyNewBlock id block
  | .newLiteBlock block => handleNotifyNewLiteBlock id block
  | .newTransactions txs => handleNotifyNewTransactions id txs
  | .missingTxs request => handleNotifyMissingTxs id request
  | .unknown haveToReturnData => do
    if haveToReturnData then modify fun n => n.post id .handlerNotDefined
    fail ⟨"unknown command",some .unsolicited⟩
  | .unexpectedResponse => fail ⟨"unexpected response",some .unsolicited⟩

def allowedEarly : Frame → Bool
  | .handshake _ | .ping => true
  | _ => false

def onFrame (n : Node cx) (id : ConnId) (frame : Frame) : Node cx :=
  match n.ctx? id with
  | none => n
  | some c =>
    let n := n.updateCtx id fun c => { c with lastFrame := n.instant }
    if c.handshakeDone = false ∧ allowedEarly frame = false then
      n.failPeer id ⟨"command before the handshake",some .unsolicited⟩
    else
      match handler id frame n with
      | .ok _ n => n
      | .error e n => n.failPeer id e

structure Established where
  incoming : Bool
  banned : Bool
  pinned : Bool
  /-- An outbound connection has shaken hands already; false when its peer list was refused. -/
  handshake : Option (Handshake × Bool)
  deriving DecidableEq, Repr

def onEstablished (n : Node cx) (id : ConnId) (e : Established) : Node cx :=
  let cap := if e.incoming then n.cfg.maxIncoming else n.cfg.maxOutgoing
  let same := (n.contexts.filter fun c => c.incoming = e.incoming).length
  if e.banned ∨ (cap ≤ same ∧ ¬ (e.pinned ∧ e.incoming = false)) then n
  else
    let n := n.setPeer id { ctx := .new e.incoming n.cfg.tuning n.instant }
    match e.handshake with
    | none => n
    | some (hs,listTaken) =>
      if listTaken = false then n.dropPeer id
      else
        let n := n.updateCtx id fun c => { c with version := hs.version, handshakeDone := true }
        if hs.fromSelf then n.dropPeer id
        else (n.processPayloadSyncData id hs.sync true).pumpState id

inductive Event where
  | established (id : ConnId) (e : Established)
  | frame (id : ConnId) (frame : Frame)
  | badFrame (id : ConnId) (offence : Offence)
  | closed (id : ConnId)
  /-- The writer reports. -/
  | sink (id : ConnId) (sink : Sink)
  | tick
  deriving DecidableEq, Repr

def handleEvent (n : Node cx) : Event → Node cx
  | .established id e => n.onEstablished id e
  | .frame id frame => (n.onFrame id frame).pumpState id
  | .badFrame id offence => (n.penalise id offence).dropPeer id
  | .closed id => n.dropPeer id
  | .sink id sink =>
    match n.peers.lookup id with
    | none => n
    | some p => n.setPeer id { p with sink := sink }
  | .tick => n.onTick

/-- When an event is taken: the instant, and the system clock the rules read. -/
structure Moment where
  instant : Nat
  clock : Nat
  deriving DecidableEq, Repr

def at_ (n : Node cx) (t : Moment) : Node cx :=
  { n with
    instant := t.instant
    chain := n.chain.atClock t.clock
    pool := { n.pool with clock := t.clock } }

def step (n : Node cx) (e : Moment × Event) : Node cx :=
  if n.stop then n else (n.at_ e.1).handleEvent e.2

def run (events : List (Moment × Event)) (n : Node cx) : Node cx := events.foldl step n

def new (chain : ChainState) (pool : TransactionPool cx) (cfg : NodeConfig) : Node cx where
  chain := chain
  pool := pool
  cfg := cfg
  peers := ∅
  instant := 0
  observedHeight := 0
  synchronized := false
  syncClaimed := false
  stop := false
  sent := []
  offences := []

end Node

end Wrkz
