import Mathlib
import Wrkz.Chain.Validate

/-!
The chain state and what it reads: block infos, the windows over them, the
block rules and the verdict on a block at the tip or on a branch. Nothing here
writes.
-/

set_option autoImplicit false

namespace Wrkz

open Library

def minPruneDepth : Nat := cryptonoteMaxAltBlockDepth + 1

/-- `open` refuses a configuration without the three bounds. -/
structure Config where
  storeRawBlocks : Bool := true
  liteStartHeight : Nat := 0
  pruneDepth : Option Nat := none
  unwindHistory : Nat := 512
  recentWindow : Nat := 256
  simnet : Bool := false
  pruneDepth_ge : ∀ d, pruneDepth = some d → minPruneDepth ≤ d := by simp
  unwindHistory_ge : minPruneDepth ≤ unwindHistory := by decide
  recentWindow_ge : cryptonoteRewardBlocksWindow ≤ recentWindow := by decide

namespace Config

def keepsBody (cfg : Config) (index tip : Nat) : Bool :=
  cfg.storeRawBlocks &&
    !(decide (cfg.liteStartHeight ≠ 0 ∧ index ≠ 0 ∧ index < cfg.liteStartHeight)) &&
    match cfg.pruneDepth with
    | some depth => decide (tip < index + depth)
    | none => true

def bodyFloor (cfg : Config) (tip : Nat) : Option Nat :=
  if cfg.storeRawBlocks = false then none
  else
    let pruneFloor := match cfg.pruneDepth with
      | some d => tip + 1 - d
      | none => 0
    some (max cfg.liteStartHeight pruneFloor)

/-- A node that keeps every body and checks every proof of work. -/
structure FullBody (cfg : Config) : Prop where
  storeRawBlocks : cfg.storeRawBlocks = true
  liteStartHeight : cfg.liteStartHeight = 0
  pruneDepth : cfg.pruneDepth = none
  simnet : cfg.simnet = false

end Config

structure AltBlock where
  index : Nat
  prevHash : Hash
  info : BlockInfo
  blockBlob : Bytes
  txBlobs : List Bytes
  deriving DecidableEq, Repr

structure UnwoundBlock where
  index : Nat
  hash : Hash
  transactionHashes : List Hash
  transactions : List Bytes
  deriving DecidableEq, Repr

structure PowHint where
  blockHash : Hash
  powHash : Hash
  deriving DecidableEq, Repr

abbrev AltBlocks := AList (fun _ : Hash => AltBlock)

structure ChainState where
  store : Store
  cfg : Config
  checkpoints : Checkpoints
  tip : Option Nat
  /-- The infos of the last blocks, the tip's last. -/
  recent : List BlockInfo
  blockMedianSize : Nat
  altBlocks : AltBlocks
  unwound : List UnwoundBlock
  /-- The reading of the clock during the call. -/
  clock : Nat
  powHint : Option PowHint
  strictTransactionList : Bool

/-- Blocks up to `forkIndex` from the main chain, `branch` above it. -/
structure ChainView where
  forkIndex : Nat
  branch : List BlockInfo

def ChainView.mainChain (tip : Nat) : ChainView := ⟨tip,[]⟩

def ChainView.withBranch (forkIndex : Nat) (branch : List BlockInfo) : ChainView :=
  ⟨forkIndex,branch⟩

def difficultyWindowIndexes (parentIndex : Nat) : List Nat :=
  let nextVersion := blockMajorVersionForIndex (parentIndex+1)
  let count := difficultyBlocksCount nextVersion parentIndex
  let start := max 1 (parentIndex + 1 - count)
  List.range' start (parentIndex + 1 - start)

def difficultyForNextBlockFrom (parentIndex : Nat) (window : List BlockInfo) : Option Nat :=
  let nextVersion := blockMajorVersionForIndex (parentIndex+1)
  (nextDifficulty nextVersion parentIndex (window.map BlockInfo.timestamp)
    (window.map BlockInfo.cumulativeDifficulty)).filter (· ≠ 0)

namespace ChainState

variable (s : ChainState)

def tipInfo : Option BlockInfo := s.recent.getLast?

def blockInfo (index : Nat) : Option BlockInfo :=
  match s.tip with
  | some tip =>
    if index ≤ tip ∧ tip - index < s.recent.length then
      s.recent[s.recent.length - 1 - (tip - index)]?
    else s.store (.blockInfo index)
  | none => s.store (.blockInfo index)

def blockIndexByHash (hash : Hash) : Option Nat := s.store (.hashToIndex hash)

def blockTransactionHashes (index : Nat) : List Hash := (s.store (.blockTxHashes index)).getD []

def rawBlock (index : Nat) : Option RawBlock :=
  if s.cfg.keepsBody index (s.tip.getD index) = false then none else s.store (.rawBlock index)

def paymentIdEntryCount (id : Hash) : Nat := (s.store (.paymentIdCount id)).getD 0

def legacyPaymentIdList (id : Hash) : List Hash := (s.store (.paymentId id)).getD []

def keyImageSpentAt (image : Hash) : Option Nat := s.store (.keyImage image)

def outputCountForAmount (amount : Nat) : Nat := (s.store (.outputCount amount)).getD 0

def hasBlock (hash : Hash) : Bool :=
  (s.altBlocks.lookup hash).isSome || (s.blockIndexByHash hash).isSome

def keyOutput (amount globalIndex : Nat) : Option OutputRecord :=
  if globalIndex < 2^32 then s.store (.output amount globalIndex) else none

/-- `ChainAccess` of the state. -/
def access : ChainAccess where
  keyImageSpent image blockIndex :=
    match s.keyImageSpentAt image with
    | some at' => at' ≤ blockIndex
    | none => false
  keyOutput := s.keyOutput
  topBlockTimestamp := (s.tipInfo.map BlockInfo.timestamp).getD 0
  now := s.clock

def infoInView (view : ChainView) (index : Nat) : Option BlockInfo :=
  if view.forkIndex < index then view.branch[index - view.forkIndex - 1]? else s.blockInfo index

def infoMissing (index : Nat) : ChainError :=
  .corrupt s!"block info for index {index} is missing"

def infosInView (view : ChainView) : List Nat → Except ChainError (List BlockInfo)
  | [] => .ok []
  | index :: rest => do
    let info ← orRefuse (s.infoInView view index) (infoMissing index)
    let infos ← infosInView view rest
    pure (info :: infos)

/-- `getLastUnits` with genesis: the last `count` infos ending at `index`. -/
def lastInfos (view : ChainView) (count index : Nat) : Except ChainError (List BlockInfo) :=
  let start := index + 1 - count
  s.infosInView view (List.range' start (index + 1 - start))

def difficultyForNextBlock (view : ChainView) (parentIndex : Nat) :
    Except ChainError (Option Nat) :=
  if s.cfg.simnet then .ok (some simnetDifficulty)
  else do
    let window ← s.infosInView view (difficultyWindowIndexes parentIndex)
    pure (difficultyForNextBlockFrom parentIndex window)

def timestampMedian (view : ChainView) (parentIndex : Nat) : Except ChainError (Option Nat) := do
  let window := timestampCheckWindow (parentIndex+1)
  let infos ← s.lastInfos view window parentIndex
  if infos.length < window then pure none
  else pure (some (medianValue (infos.map BlockInfo.timestamp)))

def rewardSizeMedian (view : ChainView) (parentIndex : Nat) : Except ChainError Nat := do
  let infos ← s.lastInfos view cryptonoteRewardBlocksWindow parentIndex
  pure (medianValue (infos.map BlockInfo.blockSize))

def checkParentBlock (cx : Crypto) (block : BlockTemplate) : Except ChainError PUnit.{1} :=
  if block.majorVersion < blockMajorVersion2 then pure ⟨⟩
  else do
    let parent ← orRefuse block.parentBlock
      (ChainError.rule (.deserializationFailed "v2+ block without a parent block"))
    refuseIf (block.majorVersion = blockMajorVersion2 ∧ blockMajorVersion1 < parent.majorVersion)
      (ChainError.rule .parentBlockWrongVersion)
    let w ← (parent.write cx block.timestamp block.nonce false false).mapError
      (fun _ => ChainError.rule (.deserializationFailed "parent block does not re-serialize"))
    refuseIf (2048 < w.length) (ChainError.rule .parentBlockSizeTooBig)

def checkTimestamp (block : BlockTemplate) (view : ChainView) (previousIndex : Nat) :
    Except ChainError PUnit.{1} := do
  let limit := saturate64 (s.clock + blockFutureTimeLimit (previousIndex+1))
  refuseIf (limit < block.timestamp) (.rule (.timestampTooFarInFuture block.timestamp limit))
  let median ← s.timestampMedian view previousIndex
  match median with
  | none => pure ⟨⟩
  | some median =>
    refuseIf (block.timestamp < median) (.rule (.timestampTooFarInPast block.timestamp median))

def coinbaseTotal (cx : Crypto) : List Output → Nat → Except ChainError Nat
  | [], total => .ok total
  | output :: rest, total => do
    refuseIf (output.amount = 0) (ChainError.rule .coinbaseOutputZeroAmount)
    refuseIf (cx.checkKey output.key = false) (ChainError.rule .coinbaseOutputInvalidKey)
    let total ← orRefuse (checkedAdd total output.amount)
      (ChainError.rule .coinbaseOutputsAmountOverflow)
    coinbaseTotal cx rest total

/-- The coinbase of the block after `previousIndex`, and what it pays out. The
signature rule goes by the height the coinbase claims. -/
def checkCoinbase (cx : Crypto) (coinbase : Transaction) (claimedIndex previousIndex : Nat) :
    Except ChainError Nat := do
  let index := previousIndex + 1
  refuseIf (coinbase.body.inputs.length ≠ 1)
    (ChainError.rule (.coinbaseInputWrongCount coinbase.body.inputs.length))
  match coinbase.body.inputs with
  | [.base blockIndex] =>
    refuseIf (blockIndex ≠ index) (ChainError.rule (.baseInputWrongBlockIndex index blockIndex))
    let expectedUnlock := index + cryptonoteMinedMoneyUnlockWindow
    refuseIf (coinbase.body.unlockTime ≠ expectedUnlock)
      (ChainError.rule (.coinbaseWrongUnlockTime expectedUnlock coinbase.body.unlockTime))
    refuseIf (transactionSignatureCountValidationHeight ≤ claimedIndex ∧ coinbase.signatures ≠ [])
      (ChainError.rule .coinbaseHasSignatures)
    coinbaseTotal cx coinbase.body.outputs 0
  | _ => .error (.rule .coinbaseInputUnexpectedType)

/-- `validate_block`. Returns the coinbase output total. -/
def validateBlock (cx : Crypto) (block : BlockTemplate) (view : ChainView) (previousIndex : Nat) :
    Except ChainError Nat := do
  let claimedIndex := block.coinbaseHeight.getD 0
  let expectedVersion := blockMajorVersionForIndex claimedIndex
  refuseIf (expectedVersion ≠ block.majorVersion)
    (ChainError.rule (.wrongVersion expectedVersion block.majorVersion))
  checkParentBlock cx block
  s.checkTimestamp block view previousIndex
  checkCoinbase cx block.baseTransaction claimedIndex previousIndex

def proofOfWorkPasses (cx : Crypto) (block : BlockTemplate) (hash : Hash) (difficulty : Nat) :
    Except ChainError Bool :=
  if s.cfg.simnet then .ok true
  else
    let passes := match s.powHint.filter (fun h => h.blockHash = hash) with
      | some hint => block.checkProofOfWorkWith cx hint.powHash difficulty
      | none => block.checkProofOfWork cx difficulty
    passes.mapError (fun _ => .rule (.deserializationFailed "proof of work input"))

def checkpointOrProofOfWork (cx : Crypto) (block : BlockTemplate) (claimedIndex : Nat)
    (hash : Hash) (difficulty : Nat) : Except ChainError PUnit.{1} :=
  if s.checkpoints.isInCheckpointZone claimedIndex then
    refuseIf (s.checkpoints.checkBlock claimedIndex hash = false)
      (.rule (.checkpointBlockHashMismatch ((s.checkpoints.get claimedIndex).getD hash) hash))
  else do
    let passes ← s.proofOfWorkPasses cx block hash difficulty
    refuseIf (passes = false) (ChainError.rule (.proofOfWorkTooWeak difficulty))

end ChainState

/-- Every blob must deserialize, and there is one for each hash of the template. -/
def parseTransactionBlobs : List Bytes → Except ChainError (List Transaction)
  | [] => .ok []
  | blob :: rest => do
    let tx ← (Transaction.fromBytes blob).mapError
      (fun _ => ChainError.rule (.deserializationFailed "transaction"))
    let txs ← parseTransactionBlobs rest
    pure (tx :: txs)

def parseTransactions (block : BlockTemplate) (txBlobs : List Bytes) :
    Except ChainError (List Transaction) := do
  refuseIf (txBlobs.length ≠ block.transactionHashes.length)
    (ChainError.rule (.deserializationFailed "transaction count does not match tx_hashes"))
  parseTransactionBlobs txBlobs

def hashFailed : ChainError := .rule (.deserializationFailed "transaction hash")

def checkNamedHashes (cx : Crypto) : List Transaction → List Hash → Except ChainError PUnit.{1}
  | tx :: txs, named :: hashes => do
    let hash ← (tx.hash cx).mapError (fun _ => hashFailed)
    refuseIf (hash ≠ named) (ChainError.rule .transactionInconsistency)
    checkNamedHashes cx txs hashes
  | _, _ => pure ⟨⟩

def suppliedHashes (cx : Crypto) : List Transaction → Except ChainError (List Hash)
  | [] => .ok []
  | tx :: txs => do
    let hash ← (tx.hash cx).mapError (fun _ => hashFailed)
    let hashes ← suppliedHashes cx txs
    pure (hash :: hashes)

/-- `check_transaction_list`: below the shuffle height only `strict` holds each
blob to the hash named at its place. -/
def checkTransactionList (cx : Crypto) (block : BlockTemplate) (transactions : List Transaction)
    (claimedIndex : Nat) (strict : Bool) : Except ChainError PUnit.{1} :=
  if claimedIndex < blockBlobShuffleCheckHeight then
    if strict = false then pure ⟨⟩
    else checkNamedHashes cx transactions block.transactionHashes
  else do
    let template := block.transactionHashes
    refuseIf (¬ template.Nodup) (ChainError.rule .transactionDuplicates)
    let supplied ← suppliedHashes cx transactions
    refuseIf (¬ supplied.Nodup) (ChainError.rule .transactionDuplicates)
    refuseIf (∃ h ∈ supplied, h ∉ template) (ChainError.rule .transactionInconsistency)
    refuseIf (template ≠ supplied) (ChainError.rule .transactionInconsistency)

/-- Run the gathered checks; a failure is named against its transaction. -/
def settleBatch (cx : Crypto) (block : BlockTemplate) (batch : List PureCheck) :
    Except ChainError PUnit.{1} :=
  match firstInvalid cx batch with
  | none => pure ⟨⟩
  | some (txIndex,rule) =>
    .error (.rule (.transaction (block.transactionHashes.getD txIndex default) txIndex rule))

/-- Every transaction at the previous index, with the fees added up. The batch is
settled at the end, at the first failure, and whenever it grows too large. -/
def validateTransactionsLoop (cx : Crypto) (block : BlockTemplate) (chain : ChainAccess)
    (ctx : TxContext) : List (Transaction × Bytes) → Nat → ValidatorState → List PureCheck → Nat →
      Except ChainError (ValidatorState × Nat)
  | [], _, state, batch, fee => do
    settleBatch cx block batch
    pure (state,fee)
  | (tx,blob) :: rest, i, state, batch, fee =>
    let outcome := validateTransactionDeferred cx tx blob state chain ctx i
    let batch := batch ++ outcome.1
    match outcome.2 with
    | .error rule => do
      settleBatch cx block batch
      .error (.rule (.transaction (block.transactionHashes.getD i default) i rule))
    | .ok (v,state) =>
      let fee := saturate64 (fee + v.fee)
      if ringBatchMemberLimit ≤ (batch.map PureCheck.members).sum then do
        settleBatch cx block batch
        validateTransactionsLoop cx block chain ctx rest (i+1) state [] fee
      else validateTransactionsLoop cx block chain ctx rest (i+1) state batch fee

/-- The fees of an alternative block's transactions, which are not validated yet. -/
def alternativeFees (block : BlockTemplate) : List Transaction → Nat → Nat →
    Except ChainError Nat
  | [], _, fee => .ok fee
  | tx :: rest, i, fee => do
    let failed := fun rule =>
      ChainError.rule (.transaction (block.transactionHashes.getD i default) i rule)
    let sumIn ← orRefuse tx.body.sumInputs (failed .inputsAmountOverflow)
    let sumOut ← orRefuse tx.body.sumOutputs (failed .outputsAmountOverflow)
    refuseIf (sumIn < sumOut) (failed .wrongAmount)
    alternativeFees block rest (i+1) (saturate64 (fee + (sumIn - sumOut)))

structure BlockHead where
  transactions : List Transaction
  cumulativeBlockSize : Nat
  minerReward : Nat
  difficulty : Nat
  deriving DecidableEq, Repr

structure Accepted where
  transactions : List Transaction
  info : BlockInfo
  validatorState : ValidatorState
  difficulty : Nat
  deriving DecidableEq, Repr

namespace ChainState

variable (s : ChainState)

/-- Steps 3 to 7 of `addBlock`, the same for the main chain and for a branch. -/
def checkHead (cx : Crypto) (view : ChainView) (block : BlockTemplate) (txBlobs : List Bytes)
    (previousIndex : Nat) : Except ChainError BlockHead := do
  let transactions ← parseTransactions block txBlobs
  let coinbase ← block.baseTransaction.toBytes.mapError
    (fun _ => ChainError.rule (.deserializationFailed "coinbase does not re-serialize"))
  let size := coinbase.length + (txBlobs.map List.length).sum
  let limit := maxBlockCumulativeSize (previousIndex+1)
  refuseIf (limit < size) (ChainError.rule (.cumulativeBlockSizeTooBig size limit))
  let minerReward ← s.validateBlock cx block view previousIndex
  let difficulty ← s.difficultyForNextBlock view previousIndex
  let difficulty ← orRefuse difficulty (ChainError.rule .difficultyOverhead)
  checkTransactionList cx block transactions (block.coinbaseHeight.getD 0) s.strictTransactionList
  pure ⟨transactions,size,minerReward,difficulty⟩

def checkReward (view : ChainView) (block : BlockTemplate) (head : BlockHead)
    (previousIndex fee : Nat) : Except ChainError (BlockInfo × Reward) := do
  let parentInfo ← orRefuse (s.infoInView view previousIndex) (infoMissing previousIndex)
  let sizeMedian ← s.rewardSizeMedian view previousIndex
  let reward ← orRefuse
    (getBlockReward block.majorVersion sizeMedian head.cumulativeBlockSize
      parentInfo.alreadyGeneratedCoins fee (block.coinbaseHeight.getD 0))
    (ChainError.rule (.cumulativeBlockSizeTooBig head.cumulativeBlockSize
      (2*max sizeMedian (fullRewardZone block.majorVersion))))
  refuseIf (head.minerReward ≠ reward.reward)
    (ChainError.rule (.blockRewardMismatch reward.reward head.minerReward))
  pure (parentInfo,reward)

end ChainState

/-- The info of a block on top of `parent`. -/
def nextInfo (parent : BlockInfo) (reward : Reward) (block : BlockTemplate) (hash : Hash)
    (head : BlockHead) : Except ChainError BlockInfo := do
  refuseIf (2^32 ≤ head.cumulativeBlockSize)
    (ChainError.corrupt "cumulative block size exceeds uint32")
  pure {
    blockHash := hash
    timestamp := block.timestamp
    blockSize := head.cumulativeBlockSize
    cumulativeDifficulty := wrappingAdd parent.cumulativeDifficulty head.difficulty
    alreadyGeneratedCoins := wrappingAdd parent.alreadyGeneratedCoins (toU64 reward.emissionChange)
    alreadyGeneratedTransactions :=
      parent.alreadyGeneratedTransactions + head.transactions.length + 1 }

namespace ChainState

variable (s : ChainState)

def txContext (block : BlockTemplate) (previousIndex : Nat) : TxContext where
  blockHeight := previousIndex
  blockMedianSize := s.blockMedianSize
  blockTimestamp := block.timestamp
  isPoolTransaction := false
  checkpoints := s.checkpoints

/-- The verdict of `add_to_main` before it pushes. A block with transactions has
its work checked before them, one without keeps the order of the C++. -/
def checkMain (cx : Crypto) (block : BlockTemplate) (txBlobs : List Bytes) (hash : Hash)
    (previousIndex : Nat) : Except ChainError Accepted := do
  let view := ChainView.mainChain previousIndex
  let claimedIndex := block.coinbaseHeight.getD 0
  let head ← s.checkHead cx view block txBlobs previousIndex
  if head.transactions ≠ [] then
    s.checkpointOrProofOfWork cx block claimedIndex hash head.difficulty
  let (validatorState,fee) ← validateTransactionsLoop cx block s.access
    (s.txContext block previousIndex) (head.transactions.zip txBlobs) 0 .new [] 0
  let (parentInfo,reward) ← s.checkReward view block head previousIndex fee
  if head.transactions = [] then
    s.checkpointOrProofOfWork cx block claimedIndex hash head.difficulty
  let info ← nextInfo parentInfo reward block hash head
  pure ⟨head.transactions,info,validatorState,head.difficulty⟩

/-- The verdict of `add_to_alternative` before the block is kept. -/
def checkAlternative (cx : Crypto) (view : ChainView) (block : BlockTemplate)
    (txBlobs : List Bytes) (hash : Hash) (previousIndex : Nat) :
    Except ChainError (BlockInfo × Nat) := do
  let claimedIndex := block.coinbaseHeight.getD 0
  let head ← s.checkHead cx view block txBlobs previousIndex
  let fee ← alternativeFees block head.transactions 0 0
  let (parentInfo,reward) ← s.checkReward view block head previousIndex fee
  s.checkpointOrProofOfWork cx block claimedIndex hash head.difficulty
  let info ← nextInfo parentInfo reward block hash head
  pure (info,head.difficulty)

end ChainState

end Wrkz
