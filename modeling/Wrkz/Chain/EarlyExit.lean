import Wrkz.Chain.TxVerdict

/-!
Validation of a transaction offered to the pool: the checks of a block's transaction
in the same order, each run where it stands. Up to the rings nothing is read but the
transaction, the length of its blob and the context.
-/

set_option autoImplicit false

namespace Wrkz

open Library

def validateBeforeRings (cx : Crypto) (tx : Transaction) (blob : Bytes) (state : ValidatorState)
    (ctx : TxContext) : Except TxRule (TxValidation × ValidatorState) := do
  let maxSize := maxTransactionSize ctx.blockMedianSize
  refuseIf (maxSize < blob.length) (.sizeTooLarge blob.length maxSize)
  let (sumOfInputs,state) ← (validateInputs (some cx) tx state 0).2
  let sumOfOutputs ← (validateOutputs (some cx) tx ctx.blockHeight 0).2
  let v ← validateFee tx blob sumOfInputs sumOfOutputs ctx.blockHeight
  validateExtra tx ctx.blockHeight ctx.isPoolTransaction
  validateUnlockTime tx ctx.blockHeight ctx.blockTimestamp
  validateInputOutputRatio tx ctx
  validateMixin tx ctx.blockHeight
  if powApplies ctx then validateTransactionPow cx tx v.fee v.isFusion ctx.blockHeight
  else pure ⟨⟩
  pure (v,state)

namespace ChainReads

variable {ε δ : Type} (rule : TxRule → δ) (failed : ε → δ) (cx : Crypto) (tx : Transaction)
  (reads : ChainReads ε) (ctx : TxContext)

/-- The rings from input `inputIndex` on, one at a time. -/
def checkRings : List Input → Nat → Except δ PUnit.{1}
  | [], _ => .ok ⟨⟩
  | input :: rest, inputIndex => do
    let (image,ring,signatures) ← gatherRing rule failed tx reads ctx input inputIndex
    refuseIf (cx.checkRingSignature (tx.body.hash cx) image ring signatures = false)
      (rule (.inputInvalidSignatures inputIndex))
    checkRings rest (inputIndex+1)

def validateTransactionEarlyExit (blob : Bytes) (state : ValidatorState) :
    Except δ (TxValidation × ValidatorState) := do
  let passed ← (validateBeforeRings cx tx blob state ctx).mapError rule
  if ctx.checkpoints.isInCheckpointZone (ctx.blockHeight+1) then pure ⟨⟩
  else checkRings rule failed cx tx reads ctx tx.body.inputs 0
  pure passed

end ChainReads

def validateTransactionEarlyExit (cx : Crypto) (tx : Transaction) (blob : Bytes)
    (state : ValidatorState) (chain : ChainAccess) (ctx : TxContext) :
    Except TxRule (TxValidation × ValidatorState) :=
  ChainReads.validateTransactionEarlyExit id id cx tx chain.reads ctx blob state

variable {cx : Crypto} {tx : Transaction} {blob : Bytes} {state state' : ValidatorState}
  {chain : ChainAccess} {ctx : TxContext} {v : TxValidation}

theorem validateBeforeRings_images (h : validateBeforeRings cx tx blob state ctx = .ok (v,state')) :
    state'.spentKeyImages = tx.body.keyImages.reverse ++ state.spentKeyImages ∧
      (state.spentKeyImages.Nodup → state'.spentKeyImages.Nodup) := by
  unfold validateBeforeRings at h
  obtain ⟨_,_,h⟩ := bind_ok_iff.1 h
  obtain ⟨⟨sumIn,state₁⟩,hinputs,h⟩ := bind_ok_iff.1 h
  obtain ⟨sumOut,_,h⟩ := bind_ok_iff.1 h
  obtain ⟨v₁,_,h⟩ := bind_ok_iff.1 h
  obtain ⟨_,_,h⟩ := bind_ok_iff.1 h
  obtain ⟨_,_,h⟩ := bind_ok_iff.1 h
  obtain ⟨_,_,h⟩ := bind_ok_iff.1 h
  obtain ⟨_,_,h⟩ := bind_ok_iff.1 h
  have hlast : state₁ = state' := by
    split at h
    · obtain ⟨_,_,h⟩ := bind_ok_iff.1 h
      exact congrArg Prod.snd (Except.ok.inj h)
    · exact congrArg Prod.snd (Except.ok.inj h)
  subst hlast
  obtain ⟨_,_,hloop⟩ := Logged.bind_snd_ok_iff.1 hinputs
  have hpass := validateInputsLoop_ok hloop
  exact ⟨hpass.images,hpass.nodup⟩

/-- A transaction that passes leaves its key images in the state, each once. -/
theorem validateTransactionEarlyExit_images
    (h : validateTransactionEarlyExit cx tx blob .new chain ctx = .ok (v,state')) :
    state'.spentKeyImages = tx.body.keyImages.reverse ∧ tx.body.keyImages.Nodup := by
  unfold validateTransactionEarlyExit ChainReads.validateTransactionEarlyExit at h
  obtain ⟨passed,hpassed,h⟩ := bind_ok_iff.1 h
  rw [mapError_ok_iff] at hpassed
  have hlast : passed = (v,state') := by
    split at h
    · exact Except.ok.inj h
    · obtain ⟨_,_,h⟩ := bind_ok_iff.1 h
      exact Except.ok.inj h
  subst hlast
  obtain ⟨himages,hnodup⟩ := validateBeforeRings_images hpassed
  have himages' : state'.spentKeyImages = tx.body.keyImages.reverse := by
    rw [himages]
    exact List.append_nil _
  have hall := hnodup List.nodup_nil
  rw [himages', List.nodup_reverse] at hall
  exact ⟨himages',hall⟩

end Wrkz
