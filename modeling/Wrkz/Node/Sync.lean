import Wrkz.Chain.Alternative
import Wrkz.P2p.Messages

/-!
The state one connection carries, and the rules that read nothing else: the size of the
next batch, how long a peer has to answer, and when it has failed too often. Instants
are milliseconds; the measured throughput is an exact fraction where the source has an
`f32`.
-/

set_option autoImplicit false

namespace Wrkz

open Library

abbrev ConnId := Nat

inductive PeerState where
  | beforeHandshake
  | synchronizing
  | idle
  | normal
  | syncRequired
  | poolSyncRequired
  | shutdown
  deriving DecidableEq, Repr

def PeerState.takesTimedSync (s : PeerState) : Bool := s = .normal ∨ s = .idle

def PeerState.isSyncing (s : PeerState) : Bool := s = .synchronizing ∨ s = .syncRequired

inductive Offence where
  | malformed
  | invalidBlock
  | badProofOfWork
  | unrequestedBlock
  | checkpointMismatch
  | unsolicited
  | oversized
  | invalidTransaction
  deriving DecidableEq, Repr

structure LiteBlock where
  currentBlockchainHeight : Nat
  hop : Nat
  blockTemplate : Bytes
  deriving DecidableEq, Repr

structure PendingLiteBlock where
  request : LiteBlock
  missedTransactions : List Hash
  deriving DecidableEq, Repr

structure CoreSyncData where
  currentHeight : Nat
  topId : Hash
  capabilityFlags : Nat
  prunedNodeHeight : Nat
  liteStartHeight : Nat
  deriving DecidableEq, Repr

def nodeCapabilityFlagPruned : Nat := 1
def nodeCapabilityFlagLite : Nat := 2
def pruneCapabilityForkHeight : Nat := 4500000

structure SyncTuning where
  maxPeers : Nat := 3
  peerFailureThreshold : Nat := 2
  batchMin : Nat := 120
  batchMax : Nat := 600
  blockSyncSize : Nat := 600
  blockSyncBytes : Nat := 16*1024*1024
  deriving DecidableEq, Repr

def syncBlockBudgetMinBytes : Nat := 2*1024*1024
def syncBlockBudgetMaxBytes : Nat := 48*1024*1024
def syncBlockSizeEstimateFloorBytes : Nat := 256
def syncOrphanRetryLimit : Nat := 3
def blocksIdsSynchronizingDefaultCount : Nat := 10000
def objectsTimeoutBytesPerSec : Nat := 128*1024

def SyncTuning.clampedBytes (t : SyncTuning) : Nat :=
  max syncBlockBudgetMinBytes (min t.blockSyncBytes syncBlockBudgetMaxBytes)

def objectsTimeout (blocks avgBlockBytes least most : Nat) : Nat :=
  let bytes := blocks * max avgBlockBytes syncBlockSizeEstimateFloorBytes
  let transfer := bytes / objectsTimeoutBytesPerSec * 1000
  max least (min (least + transfer) (max most least))

structure PeerCtx where
  incoming : Bool
  handshakeDone : Bool := false
  version : Nat := 0
  state : PeerState := .beforeHandshake
  remoteHeight : Nat := 0
  lastResponseHeight : Nat := 0
  neededObjects : List Hash := []
  /-- A set: asked for and not yet delivered. -/
  requestedObjects : List Hash := []
  remoteIsPruned : Bool := false
  remotePrunedHeight : Nat := 0
  remoteIsLite : Bool := false
  remoteLiteStartHeight : Nat := 0
  syncBatchSize : Nat
  syncFailures : Nat := 0
  orphanRetries : Nat := 0
  avgBlockBytes : Nat := 0
  blocksPerSecond : Rat := 0
  chunkStart : Nat
  pipelinedObjectsOutstanding : Bool := false
  discardNextObjectsResponse : Bool := false
  chainRequestDeadline : Option Nat := none
  discardNextChainEntry : Bool := false
  objectsDeadline : Option Nat := none
  timedSyncOutstanding : Bool := false
  deferredObjectsRequest : Option (List Hash) := none
  pendingLiteBlock : Option PendingLiteBlock := none
  connectedAt : Nat
  lastFrame : Nat
  lastTimedSync : Nat
  blocksAdded : Nat := 0
  deriving DecidableEq, Repr

namespace PeerCtx

def new (incoming : Bool) (tuning : SyncTuning) (now : Nat) : PeerCtx where
  incoming := incoming
  syncBatchSize := tuning.batchMin
  chunkStart := now
  connectedAt := now
  lastFrame := now
  lastTimedSync := now

variable (c : PeerCtx)

def resetSyncCounters (tuning : SyncTuning) (now : Nat) : PeerCtx :=
  { c with
    syncBatchSize := tuning.batchMin
    syncFailures := 0
    orphanRetries := 0
    blocksPerSecond := 0
    chunkStart := now
    pipelinedObjectsOutstanding := false
    discardNextObjectsResponse := false }

def recordCapabilities (sync : CoreSyncData) : PeerCtx :=
  { c with
    remoteIsPruned := sync.capabilityFlags &&& nodeCapabilityFlagPruned ≠ 0
    remotePrunedHeight := sync.prunedNodeHeight
    remoteIsLite := sync.capabilityFlags &&& nodeCapabilityFlagLite ≠ 0
    remoteLiteStartHeight := sync.liteStartHeight }

def servingFloor : Nat :=
  max (if c.remoteIsLite then c.remoteLiteStartHeight else 0)
    (if c.remoteIsPruned then c.remotePrunedHeight else 0)

def canServeOurChain (ourHeight : Nat) : Bool := c.servingFloor = 0 ∨ c.servingFloor ≤ ourHeight

def batchSize (tuning : SyncTuning) : Nat :=
  let current := if c.syncBatchSize = 0 then tuning.batchMin else c.syncBatchSize
  let adaptive := max tuning.batchMin (min current tuning.batchMax)
  let countLimited := max 1 (min adaptive tuning.blockSyncSize)
  let avg := max c.avgBlockBytes syncBlockSizeEstimateFloorBytes
  let bytesLimited := max 1 (min (tuning.clampedBytes / avg) (2^32 - 1))
  max 1 (min countLimited bytesLimited)

theorem batchSize_pos (tuning : SyncTuning) : 1 ≤ c.batchSize tuning := Nat.le_max_left _ _

/-- The throughput after a chunk; a chunk that took no time, or far too long, says nothing. -/
def throughput (blocks now : Nat) : Rat :=
  let elapsed : Rat := ((now - c.chunkStart : Nat) : Rat) / 1000
  if 1/20 < elapsed ∧ elapsed < 300 then
    let sample : Rat := (blocks : Rat) / elapsed
    if c.blocksPerSecond = 0 then sample else c.blocksPerSecond * (4/5) + sample * (1/5)
  else c.blocksPerSecond

def onChunkSuccess (blocks bytes : Nat) (tuning : SyncTuning) (now : Nat) : PeerCtx :=
  let c := if 0 < blocks then
      let sample := max 1 (bytes / blocks)
      { c with
        avgBlockBytes :=
          if c.avgBlockBytes = 0 then sample else (c.avgBlockBytes*8 + sample*2) / 10
        blocksPerSecond := c.throughput blocks now }
    else c
  if 0 < c.blocksPerSecond then
    let dynamic := min (c.blocksPerSecond * 30).floor.toNat (2^32 - 1)
    { c with syncBatchSize := max tuning.batchMin (min dynamic tuning.batchMax) }
  else if c.syncBatchSize < tuning.batchMax then
    { c with
      syncBatchSize := min (c.syncBatchSize + max 1 (c.syncBatchSize / 4)) tuning.batchMax }
  else c

def onChunkFailure (tuning : SyncTuning) : Bool × PeerCtx :=
  let c := { c with syncFailures := c.syncFailures + 1 }
  let c := if tuning.batchMin < c.syncBatchSize then
      { c with syncBatchSize := max tuning.batchMin (c.syncBatchSize / 2) }
    else c
  if tuning.peerFailureThreshold ≤ c.syncFailures then (true,{ c with state := .shutdown })
  else (false,c)

def clearSyncLists : PeerCtx := { c with neededObjects := [], requestedObjects := [] }

end PeerCtx

def pruneCapabilityForkActive (localHeight remoteHeight : Nat) : Bool :=
  pruneCapabilityForkHeight ≤ max localHeight remoteHeight

def recalculateObservedHeight (peers : List PeerCtx) : Nat :=
  let claims := (peers.filter (·.handshakeDone)).map fun p => p.remoteHeight - 1
  ((claims.mergeSort)[(claims.length - 1) / 2]?).getD 0

def majorityNotAhead (peers : List PeerCtx) (ourHeight : Nat) : Bool :=
  let shaken := peers.filter (·.handshakeDone)
  let agree := shaken.filter fun p => p.remoteHeight ≤ min (ourHeight + 1) (2^32 - 1)
  0 < shaken.length ∧ shaken.length < agree.length * 2

/-- The chunk rules leave what the requests in flight are told by. -/
structure SameRequests (c c' : PeerCtx) : Prop where
  needed : c'.neededObjects = c.neededObjects
  requested : c'.requestedObjects = c.requestedObjects
  chainDeadline : c'.chainRequestDeadline = c.chainRequestDeadline
  objectsDeadline : c'.objectsDeadline = c.objectsDeadline
  discardChain : c'.discardNextChainEntry = c.discardNextChainEntry
  discardObjects : c'.discardNextObjectsResponse = c.discardNextObjectsResponse
  lastResponse : c'.lastResponseHeight = c.lastResponseHeight

theorem PeerCtx.onChunkSuccess_state (c : PeerCtx) (blocks bytes : Nat) (tuning : SyncTuning)
    (now : Nat) : (c.onChunkSuccess blocks bytes tuning now).state = c.state := by
  unfold PeerCtx.onChunkSuccess
  dsimp only
  split_ifs <;> rfl

theorem PeerCtx.onChunkSuccess_same (c : PeerCtx) (blocks bytes : Nat) (tuning : SyncTuning)
    (now : Nat) : SameRequests c (c.onChunkSuccess blocks bytes tuning now) := by
  unfold PeerCtx.onChunkSuccess
  dsimp only
  split_ifs <;> exact ⟨rfl,rfl,rfl,rfl,rfl,rfl,rfl⟩

end Wrkz
