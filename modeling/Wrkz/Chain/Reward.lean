import Wrkz.Primitives.Transaction
import Wrkz.Primitives.Difficulty

/-!
The money rules: block reward and penalty, minimum fees, ring sizes, fusion
transactions.
-/

set_option autoImplicit false

namespace Wrkz

def medianValue (v : List Nat) : Nat :=
  match v with
  | [] => 0
  | [x] => x
  | _ =>
    let n := v.length / 2
    let s := sortNat v
    if v.length % 2 = 1 then s.getD n 0 else (s.getD (n-1) 0 + s.getD n 0) / 2

def getPenalizedAmount (amount medianSize currentBlockSize : Nat) : Nat :=
  if amount = 0 then 0
  else if currentBlockSize ≤ medianSize then amount
  else
    let factor := currentBlockSize*(2*medianSize - currentBlockSize)
    (amount*factor / medianSize / medianSize) % 2^64

structure Reward where
  reward : Nat
  emissionChange : Int
  deriving DecidableEq, Repr

def baseReward (alreadyGeneratedCoins blockHeight : Nat) : Nat :=
  if fixedRewardV1Height ≤ blockHeight then fixedRewardV1
  else (moneySupply - alreadyGeneratedCoins) >>> emissionSpeedFactor

def getBlockReward (blockMajorVersion medianSize currentBlockSize alreadyGeneratedCoins fee
    blockHeight : Nat) : Option Reward :=
  let base := baseReward alreadyGeneratedCoins blockHeight
  let medianSize := max medianSize (fullRewardZone blockMajorVersion)
  if 2*medianSize < currentBlockSize then none
  else
    let penalizedBaseReward := getPenalizedAmount base medianSize currentBlockSize
    let penalizedFee :=
      if 2 ≤ blockMajorVersion then getPenalizedAmount fee medianSize currentBlockSize else fee
    some ⟨(penalizedBaseReward + penalizedFee) % 2^64,
      toI64 (penalizedBaseReward - ((fee : Int) - penalizedFee))⟩

structure FeeRate where
  num : Nat
  den : Nat
  deriving DecidableEq, Repr

def minimumFeePerByteV1 : FeeRate := ⟨500,256⟩
def minimumFeePerByteV2 : FeeRate := ⟨10,128⟩

def transactionFee (size h : Nat) (rate : FeeRate) : Nat :=
  if h ≤ 678500 + 1 then 5
  else if h < 832000 then 50000
  else if h < 1500000 then divCeil size 256*rate.num*256 / rate.den
  else divCeil size 128*rate.num*128 / rate.den

/-- The height is compared with the first rate itself, so any height above one
takes the second. -/
def minimumTransactionFee (size h : Nat) : Nat :=
  transactionFee size h
    (if minimumFeePerByteV1.num < h*minimumFeePerByteV1.den then minimumFeePerByteV2
     else minimumFeePerByteV1)

def requiredMinimumFee (size h : Nat) : Nat :=
  if 832000 ≤ h then minimumTransactionFee size h
  else if 678500 + 1 < h then 50000
  else 5

def isValidNormalFee (fee size h : Nat) : Bool := fee ≠ 0 ∧ requiredMinimumFee size h ≤ fee

def fusionFeeV1 : Nat := 10000

def isValidFusionFee (fee h : Nat) : Bool :=
  if 864864 ≤ h ∧ h < 1123000 then fusionFeeV1 ≤ fee else true

structure MixinRange where
  min : Nat
  max : Nat
  deriving DecidableEq, Repr

def mixinAllowableRange (height : Nat) : MixinRange :=
  if 4300000 ≤ height then ⟨1,7⟩
  else if 1000000 ≤ height then ⟨1,1⟩
  else if 658500 ≤ height then ⟨1,3⟩
  else if 430000 ≤ height then ⟨0,7⟩
  else if 302400 ≤ height then ⟨3,7⟩
  else if 10000 ≤ height then ⟨0,30⟩
  else ⟨0,2^64 - 1⟩

inductive MixinError where
  | tooLarge (largestMixin max : Nat)
  | tooSmall (smallestMixin min : Nat)
  deriving DecidableEq, Repr

def validateRingSizes (ringSizes : List Nat) (height : Nat) : Except MixinError Unit :=
  let range := mixinAllowableRange height
  let largestRing := ringSizes.foldl max 1
  let smallest := ringSizes.foldl min (2^64 - 1)
  let smallestRing :=
    if ringSizes = [] then largestRing else if smallest < 1 then 1 else smallest
  let largestMixin := largestRing - 1
  let smallestMixin := if 4300000 ≤ height then smallestRing - 1 else largestMixin
  if range.max < largestMixin then .error (.tooLarge largestMixin range.max)
  else if smallestMixin < range.min then .error (.tooSmall smallestMixin range.min)
  else .ok ()

/-- `decompose_amount`: one chunk per decimal digit, small chunks gathered as dust. -/
def decomposeLoop (dustThreshold : Nat) : Nat → Nat → Nat → Nat → Bool → List Nat → List Nat
  | 0, _, _, dust, dustHandled, out =>
    if dustHandled = false ∧ dust ≠ 0 then out ++ [dust] else out
  | fuel+1, a, order, dust, dustHandled, out =>
    if a = 0 then
      if dustHandled = false ∧ dust ≠ 0 then out ++ [dust] else out
    else
      let chunk := a % 10*order
      let order' := order*10 % 2^64
      if dust + chunk ≤ dustThreshold then
        decomposeLoop dustThreshold fuel (a / 10) order' (dust+chunk) dustHandled out
      else
        let handle := dustHandled = false ∧ dust ≠ 0
        let out := if handle then out ++ [dust] else out
        let out := if chunk ≠ 0 then out ++ [chunk] else out
        decomposeLoop dustThreshold fuel (a / 10) order' dust (dustHandled || decide handle) out

def decomposeAmount (amount dustThreshold : Nat) : List Nat :=
  decomposeLoop dustThreshold 20 amount 1 0 false []

def fusionInputAmount : Input → Nat
  | .key amount _ _ => amount
  | .base _ => 0

def isFusionTransaction (p : TransactionPrefix) (size height : Nat) : Bool :=
  let threshold := defaultFusionDustThreshold height
  let amounts := p.inputs.map fusionInputAmount
  let total := amounts.foldl wrappingAdd 0
  let inputAmount :=
    if 864864 ≤ height ∧ height < 1123000 then wrappingSub total fusionFeeV1 else total
  size ≤ fusionTxMaxSize && fusionTxMinInputCount ≤ p.inputs.length &&
    p.outputs.length*fusionTxMinInOutCountRatio ≤ p.inputs.length &&
    amounts.all (fun a => decide (threshold ≤ a)) &&
    sortNat (decomposeAmount inputAmount threshold) = p.outputs.map Output.amount

end Wrkz
