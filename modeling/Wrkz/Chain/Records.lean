import Wrkz.Chain.Reward
import Wrkz.Primitives.Block
import Wrkz.Library.KeyValue

/-!
The records of the chain state, the keys they are stored under, the checkpoint
table, and the rules a block can fail.
-/

set_option autoImplicit false

namespace Wrkz

structure BlockInfo where
  blockHash : Hash
  timestamp : Nat
  blockSize : Nat
  cumulativeDifficulty : Nat
  alreadyGeneratedCoins : Nat
  alreadyGeneratedTransactions : Nat
  deriving DecidableEq, Repr

structure OutputRecord where
  publicKey : Hash
  unlockTime : Nat
  transactionHash : Hash
  outputIndex : Nat
  blockIndex : Nat
  deriving DecidableEq, Repr

/-- The keys of the state's store. Each function of `keys.rs` writes its own tag
and a fixed layout, so two keys are equal only if they are the same key here. -/
inductive Key where
  | metaVersion
  | metaTip
  | metaLiteHeight
  | metaPruneDepth
  | metaNetwork
  | blockInfo (index : Nat)
  | hashToIndex (hash : Hash)
  | blockTxHashes (index : Nat)
  | transactionIndex (hash : Hash)
  | keyImage (image : Hash)
  | blockKeyImages (index : Nat)
  | output (amount globalIndex : Nat)
  | outputCount (amount : Nat)
  | blockOutputs (index : Nat)
  | rawBlock (index : Nat)
  | paymentId (id : Hash)
  | paymentIdEntry (id : Hash) (n : Nat)
  | paymentIdCount (id : Hash)
  | blockPaymentIds (index : Nat)
  deriving DecidableEq, Repr

@[reducible] def Key.Record : Key → Type
  | .metaVersion => Nat
  | .metaTip => Nat
  | .metaLiteHeight => Nat
  | .metaPruneDepth => Nat
  | .metaNetwork => Unit
  | .blockInfo _ => BlockInfo
  | .hashToIndex _ => Nat
  | .blockTxHashes _ => List Hash
  | .transactionIndex _ => Nat
  | .keyImage _ => Nat
  | .blockKeyImages _ => List Hash
  | .output _ _ => OutputRecord
  | .outputCount _ => Nat
  | .blockOutputs _ => List (Nat × Nat)
  | .rawBlock _ => RawBlock
  | .paymentId _ => List Hash
  | .paymentIdEntry _ _ => Hash
  | .paymentIdCount _ => Nat
  | .blockPaymentIds _ => List (Hash × Hash)

abbrev Store := Library.KeyValue Key.Record

abbrev WriteOp := Library.WriteOp Key.Record

def stateSchemaVersion : Nat := 4

structure Checkpoints where
  /-- The table, one entry at most for an index. -/
  points : List (Nat × Hash)
  disabledFrom : Nat
  deriving DecidableEq, Repr

namespace Checkpoints

def none : Checkpoints := ⟨[],2^64 - 1⟩

def topIndex (c : Checkpoints) : Option Nat :=
  ((c.points.map Prod.fst).filter (· < min c.disabledFrom (2^32 - 1))).max?

def isInCheckpointZone (c : Checkpoints) (index : Nat) : Bool :=
  if c.disabledFrom ≤ index then false
  else
    match c.topIndex with
    | some top => index ≤ top
    | .none => false

def get (c : Checkpoints) (index : Nat) : Option Hash :=
  if c.disabledFrom ≤ index then .none else c.points.lookup index

def checkBlock (c : Checkpoints) (index : Nat) (hash : Hash) : Bool :=
  match c.get index with
  | some expected => expected = hash
  | .none => true

@[simp] theorem none_isInCheckpointZone (index : Nat) : none.isInCheckpointZone index = false := by
  simp [none, isInCheckpointZone, topIndex]

end Checkpoints

inductive TxRule where
  | sizeTooLarge (size limit : Nat)
  | emptyInputs
  | inputUnknownType
  | inputIdenticalKeyImages
  | inputEmptyOutputUsage
  | inputInvalidDomainKeyImages
  | inputIdenticalOutputIndexes
  | inputKeyImageAlreadySpent (keyImage : Hash)
  | inputsAmountOverflow
  | outputZeroAmount
  | outputAmountTooLarge (amount : Nat)
  | outputInvalidKey
  | outputsAmountOverflow
  | wrongAmount
  | wrongFee (fee minimum : Nat)
  | extraTooLarge (size : Nat)
  | unlockTimeTooSmall (unlockTime minimum : Nat)
  | excessiveOutputs (count : Nat)
  | invalidMixin (e : MixinError)
  | powInvalid (difficulty : Nat)
  | inputInvalidGlobalIndex (amount globalIndex : Nat)
  | inputSpendLockedOut (amount globalIndex unlockTime : Nat)
  | inputInvalidSignaturesCount (expected got : Nat)
  | inputInvalidSignatures (input : Nat)
  | zeroInputSum
  deriving DecidableEq, Repr

inductive Rule where
  | alreadyExists
  | rejectedAsOrphaned
  | deserializationFailed (what : String)
  | cumulativeBlockSizeTooBig (size limit : Nat)
  | wrongVersion (expected got : Nat)
  | parentBlockWrongVersion
  | parentBlockSizeTooBig
  | timestampTooFarInFuture (timestamp limit : Nat)
  | timestampTooFarInPast (timestamp median : Nat)
  | coinbaseInputWrongCount (count : Nat)
  | coinbaseInputUnexpectedType
  | baseInputWrongBlockIndex (expected got : Nat)
  | coinbaseWrongUnlockTime (expected got : Nat)
  | coinbaseHasSignatures
  | coinbaseOutputZeroAmount
  | coinbaseOutputInvalidKey
  | coinbaseOutputsAmountOverflow
  | difficultyOverhead
  | transactionDuplicates
  | transactionInconsistency
  | blockRewardMismatch (expected got : Nat)
  | checkpointBlockHashMismatch (expected got : Hash)
  | proofOfWorkTooWeak (difficulty : Nat)
  | transaction (hash : Hash) (index : Nat) (rule : TxRule)
  | reorganisationUnavailable (atIndex : Nat)
  | reorganisationBelowBodyFloor (atIndex floor : Nat)
  deriving DecidableEq, Repr

/-- A rule the block failed, or records that do not fit together. The store
itself does not fail here. -/
inductive ChainError where
  | rule (r : Rule)
  | corrupt (what : String)
  deriving DecidableEq, Repr

end Wrkz
