import Wrkz.Chain.EarlyExit
import Wrkz.Library.Assoc
import Wrkz.Mempool.Priority

/-!
The transaction pool: admission, eviction, the cleaner, and what a new block or a
chain switch does to it. The pool's indexes are kept one by one, as the source keeps
them. Hash maps are association lists; the priority index is the sorted list of its
keys. The clock is read once for a call.
-/

set_option autoImplicit false

namespace Wrkz

open Library

inductive PoolSource where
  | network
  | rpc
  | alternativeBlock
  deriving DecidableEq, Repr

structure PoolConfig where
  maxSizeBytes : Nat := 64*1024*1024
  evictToPercent : Nat := 90
  txLivetime : Nat := 60*60*24
  altBlockTxLivetime : Nat := 60*60*24
  fusionMaxPoolCount : Nat := 60
  rejectionCacheCapacity : Nat := 10000
  rejectionCacheTtl : Nat := 60*60
  deriving DecidableEq, Repr

structure PoolChain extends ChainAccess where
  topIndex : Nat
  blockMedianSize : Nat
  checkpointTable : Checkpoints
  transactionInChain : Hash → Bool

def ChainState.poolChain (s : ChainState) : PoolChain where
  toChainAccess := s.access
  topIndex := s.tip.getD 0
  blockMedianSize := s.blockMedianSize
  checkpointTable := s.checkpoints
  transactionInChain hash := (s.store (.transactionIndex hash)).isSome

structure ParsedTx (cx : Crypto) where
  blob : Bytes
  transaction : Transaction
  hash : Hash
  parsed : Transaction.fromBytes blob = .ok transaction
  hashed : transaction.hash cx = .ok hash

def ParsedTx.ofBytes (cx : Crypto) (blob : Bytes) : Option (ParsedTx cx) :=
  match parsed : Transaction.fromBytes blob with
  | .error _ => none
  | .ok transaction =>
    match hashed : transaction.hash cx with
    | .error _ => none
    | .ok hash => some ⟨blob,transaction,hash,parsed,hashed⟩

theorem ParsedTx.ofBytes_eq {cx : Crypto} {blob : Bytes} {tx : Transaction} {hash : Hash}
    (parsed : Transaction.fromBytes blob = .ok tx) (hashed : tx.hash cx = .ok hash) :
    ParsedTx.ofBytes cx blob = some ⟨blob,tx,hash,parsed,hashed⟩ := by
  unfold ParsedTx.ofBytes
  split
  · next h => rw [parsed] at h; cases h
  · next tx' h =>
    have htx : tx' = tx := Except.ok.inj (h.symm.trans parsed)
    subst htx
    split
    · next h' => rw [hashed] at h'; cases h'
    · next hash' h' =>
      have hhash : hash' = hash := Except.ok.inj (h'.symm.trans hashed)
      subst hhash
      rfl

theorem ParsedTx.blob_length_pos {cx : Crypto} (p : ParsedTx cx) : 0 < p.blob.length := by
  obtain ⟨blob,transaction,hash,parsed,hashed⟩ := p
  cases blob with
  | nil => cases parsed
  | cons b rest => simp

/-- The sum of the inputs, `none` where a base input appears. -/
def keyInputSum : List Input → Nat → Option Nat
  | [], sum => some sum
  | .base _ :: _, _ => none
  | .key amount _ _ :: rest, sum => keyInputSum rest (wrappingAdd sum amount)

def Transaction.transactionFee (tx : Transaction) : Nat :=
  let outputs := (tx.body.outputs.map Output.amount).foldl wrappingAdd 0
  match keyInputSum tx.body.inputs 0 with
  | none => 0
  | some inputs => wrappingSub inputs outputs

def paymentIdOf (tx : Transaction) : Option Hash :=
  match (parseExtraWallet tx.body.extra).paymentId with
  | some (.long id) => some id
  | _ => none

structure PoolEntry (cx : Crypto) extends ParsedTx cx where
  fee : Nat
  amount : Nat
  isFusion : Bool
  receiveTime : Nat
  source : PoolSource
  paymentId : Option Hash

namespace PoolEntry

variable {cx : Crypto}

def size (e : PoolEntry cx) : Nat := e.blob.length

def images (e : PoolEntry cx) : List Hash := e.transaction.body.keyImages

def of (p : ParsedTx cx) (source : PoolSource) (now : Nat) : PoolEntry cx where
  toParsedTx := p
  fee := p.transaction.transactionFee
  amount := p.transaction.body.sumOutputs.getD 0
  isFusion := false
  receiveTime := now
  source := source
  paymentId := paymentIdOf p.transaction

def validated (p : ParsedTx cx) (source : PoolSource) (now : Nat) (v : TxValidation) : PoolEntry cx :=
  { of p source now with isFusion := v.isFusion }

/-- The ratio is a `u64` division; there may be no outputs. -/
def priority (e : PoolEntry cx) : TxPriority where
  fee := e.fee
  size := e.size
  amount := e.amount
  inOutRatio :=
    if e.transaction.body.outputs = [] then 2^64 - 1
    else e.transaction.body.inputs.length / e.transaction.body.outputs.length
  receiveTime := e.receiveTime
  size_pos := e.blob_length_pos

end PoolEntry

inductive PoolStatus where
  | added
  | deserializationFailed
  | alreadyInPool
  | alreadyInBlockchain
  | recentlyDeleted
  | fusionPoolFull
  | rejected (rule : TxRule)
  | keyImageInPool (keyImage holder : Hash)
  | poolFull
  | cachedRejection (rule : TxRule)
  deriving DecidableEq, Repr

def PoolStatus.accepted (status : PoolStatus) : Bool := status = .added

inductive RejectionCategory where
  | malformed
  | invalid
  | invalidSignature
  | invalidAtHeight
  | chainState
  | policy
  deriving DecidableEq, Repr

def RejectionCategory.ofRule : TxRule → RejectionCategory
  | .emptyInputs | .inputUnknownType | .inputIdenticalKeyImages | .inputEmptyOutputUsage
  | .inputInvalidDomainKeyImages | .inputIdenticalOutputIndexes | .inputsAmountOverflow
  | .outputZeroAmount | .outputInvalidKey | .outputsAmountOverflow | .wrongAmount | .zeroInputSum
  | .extraTooLarge _ | .excessiveOutputs _ | .inputInvalidSignaturesCount _ _ => .invalid
  | .inputInvalidSignatures _ => .invalidSignature
  | .sizeTooLarge _ _ | .outputAmountTooLarge _ | .wrongFee _ _ | .unlockTimeTooSmall _ _
  | .invalidMixin _ | .powInvalid _ => .invalidAtHeight
  | .inputKeyImageAlreadySpent _ | .inputInvalidGlobalIndex _ _ | .inputSpendLockedOut _ _ _ =>
    .chainState

structure ContextKey where
  height : Nat
  median : Nat
  timestamp : Nat
  deriving DecidableEq, Repr

def ContextKey.of (chain : PoolChain) : ContextKey :=
  ⟨chain.topIndex,chain.blockMedianSize,chain.topBlockTimestamp⟩

inductive CacheScope where
  | always
  | untilChainSwitch
  | context (key : ContextKey)
  deriving DecidableEq, Repr

structure Remembered where
  rule : TxRule
  scope : CacheScope
  blobLen : Nat
  at_ : Nat
  seq : Nat
  deriving DecidableEq, Repr

/-- Does a refusal given at `since` still stand. -/
def withinTtl (now since ttl : Nat) : Bool := now - since < ttl

def CacheScope.standsIn (context : ContextKey) : CacheScope → Bool
  | .always | .untilChainSwitch => true
  | .context key => key = context

structure RejectionCache where
  entries : AList (fun _ : Hash => Remembered)
  order : List (Hash × Nat)
  nextSeq : Nat

namespace RejectionCache

def new : RejectionCache := ⟨∅,[],0⟩

def lookup (cache : RejectionCache) (hash : Hash) (blobLen now ttl : Nat) (context : ContextKey) :
    Option TxRule × RejectionCache :=
  match cache.entries.lookup hash with
  | none => (none,cache)
  | some entry =>
    if entry.blobLen ≠ blobLen then (none,cache)
    else if withinTtl now entry.at_ ttl ∧ entry.scope.standsIn context then (some entry.rule,cache)
    else (none,{ cache with entries := cache.entries.erase hash })

/-- Pop the oldest until both bounds are met; a stale position removes nothing. -/
def shrink (capacity : Nat) (entries : AList (fun _ : Hash => Remembered)) :
    List (Hash × Nat) → AList (fun _ : Hash => Remembered) × List (Hash × Nat)
  | [] => (entries,[])
  | (old,oldSeq) :: rest =>
    if capacity < entries.keys.length ∨ 2*capacity < rest.length + 1 then
      shrink capacity (if (entries.lookup old).any (fun e => e.seq = oldSeq) then entries.erase old
        else entries) rest
    else (entries,(old,oldSeq) :: rest)

def insert (cache : RejectionCache) (hash : Hash) (blobLen : Nat) (rule : TxRule)
    (scope : CacheScope) (now capacity : Nat) : RejectionCache :=
  if capacity = 0 then cache
  else
    let seq := cache.nextSeq
    let (entries,order) := shrink capacity (cache.entries.insert hash ⟨rule,scope,blobLen,now,seq⟩)
      (cache.order ++ [(hash,seq)])
    ⟨entries,order,cache.nextSeq+1⟩

def expire (cache : RejectionCache) (now ttl : Nat) : RejectionCache :=
  let entries := retain (fun _ e => withinTtl now e.at_ ttl) cache.entries
  { cache with
    entries := entries
    order := cache.order.filter fun p => (entries.lookup p.1).any (fun e => e.seq = p.2) }

def forgetRingDependent (cache : RejectionCache) : RejectionCache :=
  { cache with entries := retain (fun _ e => e.scope ≠ .untilChainSwitch) cache.entries }

end RejectionCache

structure TransactionPool (cx : Crypto) where
  cfg : PoolConfig
  entries : AList (fun _ : Nat => PoolEntry cx)
  priority : List PriorityKey
  byHash : AList (fun _ : Hash => Nat)
  byPaymentId : AList (fun _ : Hash => List Hash)
  keyImages : AList (fun _ : Hash => Hash)
  sizeBytes : Nat
  feeLess : Nat
  nextSeq : Nat
  evicted : List Hash
  recentlyDeleted : AList (fun _ : Hash => Nat)
  rejected : RejectionCache
  clock : Nat

namespace TransactionPool

variable {cx : Crypto}

def new (cx : Crypto) (cfg : PoolConfig) : TransactionPool cx :=
  ⟨cfg,∅,[],∅,∅,∅,0,0,0,[],∅,.new,0⟩

section

variable (pool : TransactionPool cx)

def contains (hash : Hash) : Bool := (pool.byHash.lookup hash).isSome

def get (hash : Hash) : Option (PoolEntry cx) :=
  (pool.byHash.lookup hash).bind fun seq => pool.entries.lookup seq

def byPriority : List (PoolEntry cx) := pool.priority.filterMap fun key => pool.entries.lookup key.seq

def hashes : List Hash := pool.byPriority.map (·.hash)

def keyOf (seq : Nat) (e : PoolEntry cx) : PriorityKey := ⟨e.priority,seq⟩

def insert (entry : PoolEntry cx) (images : List Hash) : TransactionPool cx :=
  let seq := pool.nextSeq
  { pool with
    nextSeq := seq+1
    priority := pool.priority.orderedInsert PriorityKey.le (keyOf seq entry)
    feeLess := if entry.fee = 0 then pool.feeLess+1 else pool.feeLess
    sizeBytes := pool.sizeBytes + entry.size
    byHash := pool.byHash.insert entry.hash seq
    byPaymentId := match entry.paymentId with
      | none => pool.byPaymentId
      | some pid =>
        pool.byPaymentId.insert pid ((pool.byPaymentId.lookup pid).getD [] ++ [entry.hash])
    keyImages := images.foldl (fun map image => map.insert image entry.hash) pool.keyImages
    entries := pool.entries.insert seq entry }

def releaseImage (hash : Hash) (map : AList (fun _ : Hash => Hash)) (image : Hash) :
    AList (fun _ : Hash => Hash) :=
  if map.lookup image = some hash then map.erase image else map

def releasePaymentId (hash pid : Hash) (map : AList (fun _ : Hash => List Hash)) :
    AList (fun _ : Hash => List Hash) :=
  match map.lookup pid with
  | none => map
  | some list =>
    let list := list.filter (· ≠ hash)
    if list = [] then map.erase pid else map.insert pid list

def remove (hash : Hash) : TransactionPool cx :=
  match pool.byHash.lookup hash with
  | none => pool
  | some seq =>
    match pool.entries.lookup seq with
    | none => { pool with byHash := pool.byHash.erase hash }
    | some entry =>
      { pool with
        byHash := pool.byHash.erase hash
        entries := pool.entries.erase seq
        priority := pool.priority.filter fun key => key.cmp (keyOf seq entry) ≠ .eq
        feeLess := if entry.fee = 0 then pool.feeLess-1 else pool.feeLess
        keyImages := entry.images.foldl (releaseImage hash) pool.keyImages
        byPaymentId := match entry.paymentId with
          | none => pool.byPaymentId
          | some pid => releasePaymentId hash pid pool.byPaymentId
        sizeBytes := pool.sizeBytes - entry.size }

def removeAll (hashes : List Hash) : TransactionPool cx := hashes.foldl remove pool

def flush : TransactionPool cx := pool.removeAll pool.hashes

/-- Every round takes one key off the priority index, so its length is fuel enough. -/
def evictLoop (target : Nat) : Nat → TransactionPool cx → TransactionPool cx
  | 0, pool => pool
  | fuel+1, pool =>
    if target < pool.sizeBytes then
      match pool.priority.getLast?.bind fun worst => pool.entries.lookup worst.seq with
      | none => pool
      | some e =>
        let next := pool.remove e.hash
        evictLoop target fuel { next with evicted := next.evicted ++ [e.hash] }
    else pool

def evictToFit : TransactionPool cx :=
  if pool.sizeBytes ≤ pool.cfg.maxSizeBytes then pool
  else evictLoop (pool.cfg.maxSizeBytes / 100 * pool.cfg.evictToPercent) pool.priority.length pool

def isLeastProfitable (candidate : PoolEntry cx) : Bool :=
  match pool.priority.getLast? with
  | none => false
  | some worst => !candidate.priority.prefers worst.priority

def rememberRejection (hash : Hash) (blobLen : Nat) (rule : TxRule) (context : ContextKey) :
    TransactionPool cx :=
  let remember scope :=
    { pool with
      rejected := pool.rejected.insert hash blobLen rule scope pool.clock
        pool.cfg.rejectionCacheCapacity }
  match RejectionCategory.ofRule rule with
  | .invalid => remember .always
  | .invalidSignature => remember .untilChainSwitch
  | .invalidAtHeight => remember (.context context)
  | .chainState | .policy | .malformed => pool

/-- The first image of the transaction that a pooled one spends, and its holder. -/
def conflict (images : List Hash) : Option (Hash × Hash) :=
  images.findSome? fun image => (pool.keyImages.lookup image).map fun holder => (image,holder)

def txContext (chain : PoolChain) : TxContext where
  blockHeight := (ContextKey.of chain).height
  blockMedianSize := (ContextKey.of chain).median
  blockTimestamp := (ContextKey.of chain).timestamp
  isPoolTransaction := true
  checkpoints := chain.checkpointTable

/-- `add_parsed` from the look in the blockchain on. -/
def admission (p : ParsedTx cx) (chain : PoolChain) (source : PoolSource) :
    PoolStatus × TransactionPool cx :=
  let entry := PoolEntry.of p source pool.clock
  if chain.transactionInChain p.hash then (.alreadyInBlockchain,pool)
  else if (pool.recentlyDeleted.lookup p.hash).isSome then (.recentlyDeleted,pool)
  else if entry.fee = 0 ∧ pool.cfg.fusionMaxPoolCount ≤ pool.feeLess then (.fusionPoolFull,pool)
  else
    match pool.conflict entry.images with
    | some (image,holder) => (.keyImageInPool image holder,pool)
    | none =>
      if pool.cfg.maxSizeBytes < pool.sizeBytes + entry.size ∧ pool.isLeastProfitable entry then
        (.poolFull,pool)
      else
        match validateTransactionEarlyExit cx p.transaction p.blob .new chain.toChainAccess
            (txContext chain) with
        | .error rule =>
          (.rejected rule,pool.rememberRejection p.hash p.blob.length rule (ContextKey.of chain))
        | .ok (validation,state) =>
          let pool := (pool.insert (PoolEntry.validated p source pool.clock validation)
            state.spentKeyImages).evictToFit
          (if pool.contains p.hash then .added else .poolFull,pool)

def addParsed (p : ParsedTx cx) (chain : PoolChain) (source : PoolSource) :
    PoolStatus × TransactionPool cx :=
  if pool.contains p.hash then (.alreadyInPool,pool)
  else
    let (remembered,rejected) := pool.rejected.lookup p.hash p.blob.length pool.clock
      pool.cfg.rejectionCacheTtl (ContextKey.of chain)
    let pool := { pool with rejected := rejected }
    match remembered with
    | some rule => (.cachedRejection rule,pool)
    | none => pool.admission p chain source

def add (blob : Bytes) (chain : PoolChain) (source : PoolSource) :
    PoolStatus × TransactionPool cx :=
  match ParsedTx.ofBytes cx blob with
  | none => (.deserializationFailed,pool)
  | some p => pool.addParsed p chain source

def outdated (e : PoolEntry cx) (height : Nat) : Bool :=
  let timeout := match e.source with
    | .alternativeBlock => pool.cfg.altBlockTxLivetime
    | _ => pool.cfg.txLivetime
  timeout ≤ pool.clock - e.receiveTime ∨
    (validateRingSizes e.transaction.body.ringSizes height).isOk = false

def cleanOne (height : Nat) (state : TransactionPool cx × List Hash) (hash : Hash) :
    TransactionPool cx × List Hash :=
  match state.1.get hash with
  | none => state
  | some e =>
    if state.1.outdated e height then
      let pool := { state.1 with
        recentlyDeleted := state.1.recentlyDeleted.insert hash state.1.clock }
      (pool.remove hash,state.2 ++ [hash])
    else state

def clean (height : Nat) : List Hash × TransactionPool cx :=
  let (pool,deleted) := pool.hashes.foldl (cleanOne height) (pool,[])
  (deleted,{ pool with
    recentlyDeleted := retain (fun _ at_ => withinTtl pool.clock at_ pool.cfg.txLivetime)
      pool.recentlyDeleted
    rejected := pool.rejected.expire pool.clock pool.cfg.rejectionCacheTtl })

def forgetDeleted (hash : Hash) : TransactionPool cx :=
  { pool with recentlyDeleted := pool.recentlyDeleted.erase hash }

def forgetRejection (hash : Hash) : TransactionPool cx :=
  { pool with rejected := { pool.rejected with entries := pool.rejected.entries.erase hash } }

def displacedBy (chain : PoolChain) (blockTransactionHashes spentKeyImages : List Hash)
    (e : PoolEntry cx) : Bool :=
  e.hash ∈ blockTransactionHashes ∨ chain.transactionInChain e.hash ∨
    (validateRingSizes e.transaction.body.ringSizes chain.topIndex).isOk = false ∨
    maxTransactionSize chain.blockMedianSize < e.size ∨
    ∃ image ∈ e.images, image ∈ spentKeyImages

def onBlockAdded (chain : PoolChain) (blockTransactionHashes spentKeyImages : List Hash) :
    List Hash × TransactionPool cx :=
  let toRemove := pool.hashes.filter fun hash =>
    (pool.get hash).any (displacedBy chain blockTransactionHashes spentKeyImages)
  (toRemove,pool.removeAll toRemove)

def spendsOnChain (chain : PoolChain) (e : PoolEntry cx) (blockIndex : Nat) : Bool :=
  e.images.any fun image => chain.keyImageSpent image blockIndex

def removeSpentInChain (chain : PoolChain) : List Hash × TransactionPool cx :=
  let pool := { pool with rejected := pool.rejected.forgetRingDependent }
  let spent := (pool.byPriority.filter fun e => spendsOnChain chain e chain.topIndex).map (·.hash)
  (spent,pool.removeAll spent)

def restoreOne (chain : PoolChain) (state : TransactionPool cx × List Hash) (blob : Bytes) :
    TransactionPool cx × List Hash :=
  match ParsedTx.ofBytes cx blob with
  | none => state
  | some p =>
    let (status,pool) := (state.1.forgetDeleted p.hash).addParsed p chain .alternativeBlock
    (pool,if status.accepted then state.2 ++ [p.hash] else state.2)

def copyTransactionsToPool (chain : PoolChain) (blobs : List Bytes) :
    List Hash × TransactionPool cx :=
  let pool := { pool with rejected := pool.rejected.forgetRingDependent }
  let (pool,restored) := blobs.foldl (restoreOne chain) (pool,[])
  (restored,pool)

def takeEvicted : List Hash × TransactionPool cx := (pool.evicted,{ pool with evicted := [] })

end

end TransactionPool

end Wrkz
