import Wrkz.Chain.Records
import Wrkz.Library.Settling

/-!
Transaction validation. The checks that read nothing but the transaction are
gathered into a batch and run for a whole block at once; what the batch holds
when a transaction fails decides which failure is reported.
-/

set_option autoImplicit false

namespace Wrkz

open Library Logged

structure ChainAccess where
  keyImageSpent : Hash → Nat → Bool
  keyOutput : Nat → Nat → Option OutputRecord
  topBlockTimestamp : Nat
  now : Nat

def isSpendTimeUnlocked (chain : ChainAccess) (unlockTime blockIndex : Nat) : Bool :=
  if unlockTime < cryptonoteMaxBlockNumber then
    unlockTime ≤ blockIndex + cryptonoteLockedTxAllowedDeltaBlocks
  else if transactionInputBlocktimeValidationHeight ≤ blockIndex then
    unlockTime ≤ chain.topBlockTimestamp + cryptonoteLockedTxAllowedDeltaSeconds
  else unlockTime ≤ chain.now + cryptonoteLockedTxAllowedDeltaSeconds

/-- The same reads where they may fail. -/
structure ChainReads (ε : Type) where
  keyImageSpent : Hash → Nat → Except ε Bool
  keyOutputs : Nat → List Nat → Except ε (List (Option OutputRecord))
  topBlockTimestamp : Nat
  now : Nat

def ChainAccess.reads {ε : Type} (chain : ChainAccess) : ChainReads ε where
  keyImageSpent image height := .ok (chain.keyImageSpent image height)
  keyOutputs amount indexes := .ok (indexes.map (chain.keyOutput amount))
  topBlockTimestamp := chain.topBlockTimestamp
  now := chain.now

/-- `spent_key_images`, the latest first. -/
structure ValidatorState where
  spentKeyImages : List Hash
  deriving DecidableEq, Repr

def ValidatorState.new : ValidatorState := ⟨[]⟩

structure TxContext where
  blockHeight : Nat
  blockMedianSize : Nat
  blockTimestamp : Nat
  isPoolTransaction : Bool
  checkpoints : Checkpoints

structure TxValidation where
  fee : Nat
  isFusion : Bool
  deriving DecidableEq, Repr

structure GatheredRing where
  txIndex : Nat
  inputIndex : Nat
  prefixHash : Hash
  image : Hash
  ring : List Hash
  signatures : List Signature
  deriving DecidableEq, Repr

inductive PureCheck where
  | keyImageDomain (txIndex inputIndex : Nat) (image : Hash)
  | outputKey (txIndex outputIndex : Nat) (key : Hash)
  | txPow (txIndex : Nat) (txPrefix : Bytes) (difficulty : Nat)
  | ring (r : GatheredRing)
  deriving DecidableEq, Repr

namespace PureCheck

def verify (cx : Crypto) : PureCheck → Bool
  | .keyImageDomain _ _ image => cx.keyImageInDomain image
  | .outputKey _ _ key => cx.checkKey key
  | .txPow _ txPrefix difficulty => checkHash (cx.cnUpx txPrefix) difficulty
  | .ring r => cx.checkRingSignature r.prefixHash r.image r.ring r.signatures

def failure : PureCheck → Nat × TxRule
  | .keyImageDomain txIndex _ _ => (txIndex,.inputInvalidDomainKeyImages)
  | .outputKey txIndex _ _ => (txIndex,.outputInvalidKey)
  | .txPow txIndex _ difficulty => (txIndex,.powInvalid difficulty)
  | .ring r => (r.txIndex,.inputInvalidSignatures r.inputIndex)

def members : PureCheck → Nat
  | .ring r => r.ring.length
  | _ => 1

end PureCheck

/-- `first_invalid`: the first check in visit order that does not verify. -/
def firstInvalid (cx : Crypto) (checks : List PureCheck) : Option (Nat × TxRule) :=
  (checks.find? (fun c => c.verify cx = false)).map PureCheck.failure

def ringBatchMemberLimit : Nat := 2^20

abbrev TxStep := Logged PureCheck TxRule

def settleCheck (atOnce : Option Crypto) (c : PureCheck) : TxStep PUnit.{1} :=
  match atOnce with
  | none => log [c]
  | some cx => lift (refuseIf (c.verify cx = false) c.failure.2)

/-- The inputs from `inputIndex` on; `seen` holds this transaction's images. -/
def validateInputsLoop (atOnce : Option Crypto) (txIndex : Nat) :
    List Input → Nat → List Hash → ValidatorState → Nat → TxStep (Nat × ValidatorState)
  | [], _, _, state, sum => pure (sum,state)
  | .base _ :: _, _, _, _, _ => lift (.error .inputUnknownType)
  | .key amount keyOffsets keyImage :: rest, inputIndex, seen, state, sum => do
    lift (refuseIf (keyImage ∈ seen) .inputIdenticalKeyImages)
    lift (refuseIf (keyOffsets = []) .inputEmptyOutputUsage)
    settleCheck atOnce (.keyImageDomain txIndex inputIndex keyImage)
    lift (refuseIf (0 ∈ keyOffsets.tail) .inputIdenticalOutputIndexes)
    lift (refuseIf (keyImage ∈ state.spentKeyImages) (.inputKeyImageAlreadySpent keyImage))
    let sum ← lift (orRefuse (checkedAdd sum amount) TxRule.inputsAmountOverflow)
    validateInputsLoop atOnce txIndex rest (inputIndex+1) (keyImage :: seen)
      ⟨keyImage :: state.spentKeyImages⟩ sum

def validateInputs (atOnce : Option Crypto) (tx : Transaction) (state : ValidatorState)
    (txIndex : Nat) : TxStep (Nat × ValidatorState) := do
  lift (refuseIf (tx.body.inputs = []) .emptyInputs)
  validateInputsLoop atOnce txIndex tx.body.inputs 0 [] state 0

def validateOutputsLoop (atOnce : Option Crypto) (blockHeight txIndex : Nat) :
    List Output → Nat → Nat → TxStep Nat
  | [], _, sum => pure sum
  | output :: rest, outputIndex, sum => do
    lift (refuseIf (output.amount = 0) .outputZeroAmount)
    lift (refuseIf (maxOutputSizeHeight ≤ blockHeight ∧ maxOutputSizeNode < output.amount)
      (.outputAmountTooLarge output.amount))
    settleCheck atOnce (.outputKey txIndex outputIndex output.key)
    let sum ← lift (orRefuse (checkedAdd sum output.amount) TxRule.outputsAmountOverflow)
    validateOutputsLoop atOnce blockHeight txIndex rest (outputIndex+1) sum

def validateOutputs (atOnce : Option Crypto) (tx : Transaction) (blockHeight txIndex : Nat) :
    TxStep Nat :=
  validateOutputsLoop atOnce blockHeight txIndex tx.body.outputs 0 0

def validateFee (tx : Transaction) (blob : Bytes) (sumOfInputs sumOfOutputs blockHeight : Nat) :
    Except TxRule TxValidation := do
  refuseIf (sumOfInputs = 0) .zeroInputSum
  refuseIf (sumOfInputs < sumOfOutputs) .wrongAmount
  let fee := sumOfInputs - sumOfOutputs
  let isFusion := isFusionTransaction tx.body blob.length blockHeight
  if isFusion then
    refuseIf (isValidFusionFee fee blockHeight = false) (TxRule.wrongFee fee fusionFeeV1)
  else
    refuseIf (isValidNormalFee fee blob.length blockHeight = false)
      (TxRule.wrongFee fee (requiredMinimumFee blob.length blockHeight))
  pure ⟨fee,isFusion⟩

def validateExtra (tx : Transaction) (blockHeight : Nat) (isPoolTransaction : Bool) :
    Except TxRule PUnit.{1} :=
  let enforceFrom := maxExtraSizeV2Height + cryptonoteMinedMoneyUnlockWindow
  refuseIf ((isPoolTransaction ∨ enforceFrom ≤ blockHeight) ∧ maxExtraSizeV2 ≤ tx.body.extra.length)
    (.extraTooLarge tx.body.extra.length)

def minimumUnlockTime (unlockTime blockHeight blockTimestamp : Nat) : Nat :=
  if cryptonoteMaxBlockNumber < unlockTime then
    saturate64 (blockTimestamp + minimumUnlockTimeBlocks*difficultyTarget)
  else blockHeight + minimumUnlockTimeBlocks

def validateUnlockTime (tx : Transaction) (blockHeight blockTimestamp : Nat) :
    Except TxRule PUnit.{1} :=
  let minimum := minimumUnlockTime tx.body.unlockTime blockHeight blockTimestamp
  refuseIf (unlockTimeHeight < blockHeight ∧ tx.body.unlockTime < minimum)
    (.unlockTimeTooSmall tx.body.unlockTime minimum)

def validateInputOutputRatio (tx : Transaction) (ctx : TxContext) : Except TxRule PUnit.{1} :=
  refuseIf ((ctx.isPoolTransaction ∨ normalTxMaxOutputCountV1Height ≤ ctx.blockHeight) ∧
    normalTxMaxOutputCountV1 < tx.body.outputs.length) (.excessiveOutputs tx.body.outputs.length)

def validateMixin (tx : Transaction) (blockHeight : Nat) : Except TxRule Unit :=
  (validateRingSizes tx.body.ringSizes blockHeight).mapError .invalidMixin

def powWaivedByFee (fee : Nat) (isFusion : Bool) (blockHeight : Nat) : Prop :=
  transactionPowPassWithFeeHeight ≤ blockHeight ∧ isFusion = false ∧ transactionPowPassWithFee ≤ fee

instance (fee : Nat) (isFusion : Bool) (blockHeight : Nat) :
    Decidable (powWaivedByFee fee isFusion blockHeight) := inferInstanceAs (Decidable (_ ∧ _))

/-- The work asked of a transaction; it is only asked from `transactionPowHeight` on. -/
def requiredPow (tx : Transaction) (isFusion : Bool) (blockHeight : Nat) : Nat :=
  (transactionPowDifficulty blockHeight isFusion tx.body.inputs.length
    tx.body.outputs.length).getD 0

def validateTransactionPow (cx : Crypto) (tx : Transaction) (fee : Nat) (isFusion : Bool)
    (blockHeight : Nat) : Except TxRule PUnit.{1} :=
  let difficulty := requiredPow tx isFusion blockHeight
  refuseIf (checkHash (cx.cnUpx tx.body.write) difficulty = false ∧
    ¬ powWaivedByFee fee isFusion blockHeight) (.powInvalid difficulty)

def gatherTransactionPow (tx : Transaction) (fee : Nat) (isFusion : Bool)
    (blockHeight txIndex : Nat) : TxStep PUnit.{1} :=
  if powWaivedByFee fee isFusion blockHeight then pure ⟨⟩
  else log [.txPow txIndex tx.body.write (requiredPow tx isFusion blockHeight)]

def ChainReads.clocks {ε : Type} (reads : ChainReads ε) : ChainAccess :=
  ⟨fun _ _ => false,fun _ _ => none,reads.topBlockTimestamp,reads.now⟩

def unlockedMembers (clocks : ChainAccess) (ctx : TxContext) (amount : Nat) :
    List (Nat × Option OutputRecord) → Except TxRule (List Hash)
  | [] => .ok []
  | (globalIndex,found) :: rest => do
    let record ← orRefuse found (TxRule.inputInvalidGlobalIndex amount globalIndex)
    refuseIf (isSpendTimeUnlocked clocks record.unlockTime ctx.blockHeight = false)
      (TxRule.inputSpendLockedOut amount globalIndex record.unlockTime)
    let ring ← unlockedMembers clocks ctx amount rest
    pure (record.publicKey :: ring)

def checkSignatureCount (ctx : TxContext) (expected got : Nat) : Except TxRule PUnit.{1} :=
  if ctx.isPoolTransaction ∨ transactionSignatureCountValidationHeight ≤ ctx.blockHeight then
    refuseIf (expected ≠ got) (.inputInvalidSignaturesCount expected got)
  else refuseIf (got < expected) (.inputInvalidSignaturesCount expected got)

def maxTransactionSize (blockMedianSize : Nat) : Nat :=
  blockMedianSize*2 - cryptonoteCoinbaseBlobReservedSize

/-- Work is asked of a pool transaction always, of a mined one outside the zone. -/
def powApplies (ctx : TxContext) : Prop :=
  transactionPowHeight ≤ ctx.blockHeight ∧
    (ctx.isPoolTransaction ∨ ctx.checkpoints.isInCheckpointZone (ctx.blockHeight+1) = false)

instance (ctx : TxContext) : Decidable (powApplies ctx) := inferInstanceAs (Decidable (_ ∧ _))

/-- A pool transaction's work is checked at once, a mined one's with the batch. -/
def settlePow (cx : Crypto) (tx : Transaction) (v : TxValidation) (ctx : TxContext)
    (txIndex : Nat) : TxStep PUnit.{1} :=
  if powApplies ctx then
    if ctx.isPoolTransaction then
      lift (validateTransactionPow cx tx v.fee v.isFusion ctx.blockHeight)
    else gatherTransactionPow tx v.fee v.isFusion ctx.blockHeight txIndex
  else pure ⟨⟩

def gatherBeforeRings (cx : Crypto) (tx : Transaction) (blob : Bytes) (state : ValidatorState)
    (ctx : TxContext) (txIndex : Nat) : TxStep (TxValidation × ValidatorState) := do
  let maxSize := maxTransactionSize ctx.blockMedianSize
  lift (refuseIf (maxSize < blob.length) (.sizeTooLarge blob.length maxSize))
  let (sumOfInputs,state) ← validateInputs none tx state txIndex
  let sumOfOutputs ← validateOutputs none tx ctx.blockHeight txIndex
  let v ← lift (validateFee tx blob sumOfInputs sumOfOutputs ctx.blockHeight)
  lift (validateExtra tx ctx.blockHeight ctx.isPoolTransaction)
  lift (validateUnlockTime tx ctx.blockHeight ctx.blockTimestamp)
  lift (validateInputOutputRatio tx ctx)
  lift (validateMixin tx ctx.blockHeight)
  settlePow cx tx v ctx txIndex
  pure (v,state)

namespace ChainReads

variable {ε δ : Type} (rule : TxRule → δ) (failed : ε → δ) (cx : Crypto) (tx : Transaction)
  (reads : ChainReads ε) (ctx : TxContext)

/-- `gather_ring`. A broken rule is told as `rule`, a failed read as `failed`. -/
def gatherRing (input : Input) (inputIndex : Nat) :
    Except δ (Hash × List Hash × List Signature) :=
  match input with
  | .base _ => .error (rule .inputUnknownType)
  | .key amount keyOffsets keyImage => do
    let spent ← (reads.keyImageSpent keyImage ctx.blockHeight).mapError failed
    refuseIf (spent = true) (rule (.inputKeyImageAlreadySpent keyImage))
    let absolute ← orRefuse (relativeOffsetsToAbsolute keyOffsets)
      (rule (.inputInvalidGlobalIndex amount (2^64 - 1)))
    let found ← (reads.keyOutputs amount absolute).mapError failed
    let ring ← (unlockedMembers reads.clocks ctx amount (absolute.zip found)).mapError rule
    let signatures := tx.signatures.getD inputIndex []
    (checkSignatureCount ctx ring.length signatures.length).mapError rule
    pure (keyImage,ring,signatures.take ring.length)

def gatherInputsExpensive (txIndex : Nat) : List Input → Nat → Logged PureCheck δ PUnit.{1}
  | [], _ => pure ⟨⟩
  | input :: rest, inputIndex => do
    let (image,ring,signatures) ← lift (gatherRing rule failed tx reads ctx input inputIndex)
    log [.ring ⟨txIndex,inputIndex,tx.body.hash cx,image,ring,signatures⟩]
    gatherInputsExpensive txIndex rest (inputIndex+1)

def settleRings (txIndex : Nat) : Logged PureCheck δ PUnit.{1} :=
  if ctx.checkpoints.isInCheckpointZone (ctx.blockHeight+1) then pure ⟨⟩
  else gatherInputsExpensive rule failed cx tx reads ctx txIndex tx.body.inputs 0

def validateTransactionDeferred (blob : Bytes) (state : ValidatorState) (txIndex : Nat) :
    Logged PureCheck δ (TxValidation × ValidatorState) := do
  let passed ← (gatherBeforeRings cx tx blob state ctx txIndex).mapError rule
  settleRings rule failed cx tx reads ctx txIndex
  pure passed

end ChainReads

section

variable (cx : Crypto) (tx : Transaction)

def gatherMembers (chain : ChainAccess) (ctx : TxContext) (amount : Nat) (indexes : List Nat) :
    Except TxRule (List Hash) :=
  unlockedMembers chain ctx amount (indexes.map fun i => (i,chain.keyOutput amount i))

def gatherRing (input : Input) (inputIndex : Nat) (chain : ChainAccess) (ctx : TxContext) :
    Except TxRule (Hash × List Hash × List Signature) :=
  ChainReads.gatherRing id id tx chain.reads ctx input inputIndex

def gatherInputsExpensive (chain : ChainAccess) (ctx : TxContext) (txIndex : Nat) :
    List Input → Nat → TxStep PUnit.{1} :=
  ChainReads.gatherInputsExpensive id id cx tx chain.reads ctx txIndex

def settleRings (chain : ChainAccess) (ctx : TxContext) (txIndex : Nat) : TxStep PUnit.{1} :=
  ChainReads.settleRings id id cx tx chain.reads ctx txIndex

def validateTransactionDeferred (blob : Bytes) (state : ValidatorState) (chain : ChainAccess)
    (ctx : TxContext) (txIndex : Nat) : TxStep (TxValidation × ValidatorState) :=
  ChainReads.validateTransactionDeferred id id cx tx chain.reads ctx blob state txIndex

end

section

variable {cx : Crypto} {tx : Transaction} {chain : ChainAccess} {ctx : TxContext}

theorem unlockedMembers_reads {ε : Type} (amount : Nat) (indexes : List Nat) :
    unlockedMembers (chain.reads : ChainReads ε).clocks ctx amount
        (indexes.zip (indexes.map (chain.keyOutput amount))) =
      gatherMembers chain ctx amount indexes := by
  induction indexes with
  | nil => rfl
  | cons index rest ih =>
    simp only [List.map_cons, List.zip_cons_cons, unlockedMembers, ih]
    rfl

theorem gatherRing_ok_iff {amount inputIndex : Nat} {offsets : List Nat} {image : Hash}
    {r : Hash × List Hash × List Signature} :
    gatherRing tx (.key amount offsets image) inputIndex chain ctx = .ok r ↔
      chain.keyImageSpent image ctx.blockHeight = false ∧
      ∃ absolute, relativeOffsetsToAbsolute offsets = some absolute ∧
      ∃ ring, gatherMembers chain ctx amount absolute = .ok ring ∧
        checkSignatureCount ctx ring.length (tx.signatures.getD inputIndex []).length = .ok ⟨⟩ ∧
        r = (image,ring,(tx.signatures.getD inputIndex []).take ring.length) := by
  unfold gatherRing ChainReads.gatherRing
  simp only [bind_ok_iff, refuseIf_ok_iff, orRefuse_ok_iff, mapError_ok_iff, pure_ok_iff]
  constructor
  · rintro ⟨_,⟨⟩,⟨⟩,hspent,absolute,habsolute,_,⟨⟩,ring,hring,⟨⟩,hcount,rfl⟩
    rw [unlockedMembers_reads] at hring
    exact ⟨by simpa using hspent,absolute,habsolute,ring,hring,hcount,rfl⟩
  · rintro ⟨hspent,absolute,habsolute,ring,hring,hcount,rfl⟩
    exact ⟨_,rfl,⟨⟩,by simp [hspent],absolute,habsolute,_,rfl,ring,
      (unlockedMembers_reads ..).trans hring,⟨⟩,hcount,rfl⟩

theorem gatherInputsExpensive_cons (input : Input) (rest : List Input) (txIndex inputIndex : Nat) :
    gatherInputsExpensive cx tx chain ctx txIndex (input :: rest) inputIndex = (do
      let (image,ring,signatures) ← lift (gatherRing tx input inputIndex chain ctx)
      log [.ring ⟨txIndex,inputIndex,tx.body.hash cx,image,ring,signatures⟩]
      gatherInputsExpensive cx tx chain ctx txIndex rest (inputIndex+1)) := rfl

theorem settleRings_def (txIndex : Nat) : settleRings cx tx chain ctx txIndex =
    if ctx.checkpoints.isInCheckpointZone (ctx.blockHeight+1) then pure ⟨⟩
    else gatherInputsExpensive cx tx chain ctx txIndex tx.body.inputs 0 := rfl

theorem validateTransactionDeferred_def {blob : Bytes} {state : ValidatorState} {txIndex : Nat} :
    validateTransactionDeferred cx tx blob state chain ctx txIndex = (do
      let passed ← gatherBeforeRings cx tx blob state ctx txIndex
      settleRings cx tx chain ctx txIndex
      pure passed) := by
  unfold validateTransactionDeferred ChainReads.validateTransactionDeferred
  rw [mapError_id]
  rfl

end

structure RevalidateContext where
  blockHeight : Nat
  blockMedianSize : Nat
  blockTimestamp : Nat
  deriving DecidableEq, Repr

def revalidateAfterHeightChange (cx : Crypto) (tx : Transaction) (blob : Bytes)
    (ctx : RevalidateContext) : Except TxRule TxValidation := do
  let maxSize := maxTransactionSize ctx.blockMedianSize
  refuseIf (maxSize < blob.length) (.sizeTooLarge blob.length maxSize)
  validateExtra tx ctx.blockHeight true
  validateMixin tx ctx.blockHeight
  let (sumOfInputs,_) ← (validateInputs (some cx) tx .new 0).2
  let sumOfOutputs ← (validateOutputs (some cx) tx ctx.blockHeight 0).2
  validateUnlockTime tx ctx.blockHeight ctx.blockTimestamp
  let v ← validateFee tx blob sumOfInputs sumOfOutputs ctx.blockHeight
  if transactionPowHeight ≤ ctx.blockHeight ∧ ctx.blockHeight ≤ transactionPowHeight + 100 then
    validateTransactionPow cx tx v.fee v.isFusion ctx.blockHeight
  else pure ⟨⟩
  pure v

end Wrkz
