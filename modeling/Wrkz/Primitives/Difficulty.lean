import Mathlib
import Wrkz.Primitives.Constants

/-!
The difficulty of the next block, from the timestamps and the cumulative
difficulties of the window before it. `i64` arithmetic wraps, as the release
build does.
-/

set_option autoImplicit false

namespace Wrkz

/-- The `i64` of the low 64 bits. -/
def toI64 (x : Int) : Int := Int.bmod x (2^64)

/-- `as u64` of an `i64`. -/
def toU64 (x : Int) : Nat := (x % 2^64).toNat

/-- `wrapping_sub` of `u64`. -/
def wrappingSub (a b : Nat) : Nat := (a + 2^64 - b % 2^64) % 2^64

/-- `wrapping_add` of `u64`. -/
def wrappingAdd (a b : Nat) : Nat := (a + b) % 2^64

def clampI64 (low high x : Int) : Int := max low (min high x)

def i64Max : Int := 2^63 - 1

/-- The weighted solve times `1..=n`, and the sum of the last three. -/
def lwmaSums (timestamps : List Nat) (clampLow clampHigh : Int) : Nat → Int × Int
  | 0 => (0,0)
  | i+1 =>
    let (l,sum3) := lwmaSums timestamps clampLow clampHigh i
    let st := clampI64 clampLow clampHigh
      (toI64 (toI64 (timestamps.getD (i+1) 0) - toI64 (timestamps.getD i 0)))
    (toI64 (l + toI64 (st*(i+1))),
      if difficultyWindowV3 < i + 1 + 3 then toI64 (sum3 + st) else sum3)

def lwmaCommon (timestamps cum : List Nat) (clampLow clampHigh bandLow bandHigh : Int) :
    Option (Int × Int × Int) :=
  let t : Int := difficultyTarget
  let n := difficultyWindowV3
  let (l,sum3) := lwmaSums timestamps clampLow clampHigh n
  if l = 0 then none
  else
    let total := toI64 (wrappingSub (cum.getD n 0) (cum.getD 0 0))
    let scaled := toI64 (toI64 (toI64 (total*t) * (n+1)) * 99)
    let nextD := scaled.tdiv (toI64 (100*2*l))
    let prevD := toI64 (wrappingSub (cum.getD n 0) (cum.getD (n-1) 0))
    let low := (toI64 (prevD*bandLow)).tdiv 100
    let high := (toI64 (prevD*bandHigh)).tdiv 100
    some (max low (min nextD high), prevD, sum3)

def windowsLongEnough (timestamps cum : List Nat) : Bool :=
  difficultyWindowV3 + 1 ≤ timestamps.length && difficultyWindowV3 + 1 ≤ cum.length

def nextDifficultyV5 (timestamps cum : List Nat) : Option Nat :=
  if windowsLongEnough timestamps cum = false then some 10000
  else
    let t : Int := difficultyTarget
    (lwmaCommon timestamps cum (-4*t) (6*t) 67 150).map fun (nextD,prevD,sum3) =>
      toU64 (if sum3 < 8*t / 10 then max nextD ((toI64 (prevD*108)).tdiv 100) else nextD)

def nextDifficultyV4 (timestamps cum : List Nat) : Option Nat :=
  if windowsLongEnough timestamps cum = false then some 1000
  else
    let t : Int := difficultyTarget
    (lwmaCommon timestamps cum (-6*t) i64Max 67 150).map fun (nextD,prevD,sum3) =>
      toU64 (if sum3 < 8*t / 10 then max nextD ((toI64 (prevD*110)).tdiv 100) else nextD)

/-- Here the last three solve times replace the result instead of raising it. -/
def nextDifficultyV3 (timestamps cum : List Nat) : Option Nat :=
  if windowsLongEnough timestamps cum = false then some 1000
  else
    let t : Int := difficultyTarget
    let ftl : Int := cryptonoteBlockFutureTimeLimitV3
    (lwmaCommon timestamps cum (-ftl) (6*t) 70 107).map fun (nextD,prevD,sum3) =>
      toU64 (if sum3 < 8*t / 10 then (toI64 (prevD*110)).tdiv 100 else nextD)

def divCeil (a b : Nat) : Nat := (a + b - 1) / b

/-- `sort_unstable` of integers. -/
def sortNat (xs : List Nat) : List Nat := xs.insertionSort (· ≤ ·)

def timeSpan (first last : Nat) : Nat := if last - first = 0 then 1 else last - first

def nextDifficultyLegacy (version parentIndex : Nat) (timestampsIn cumIn : List Nat) :
    Option Nat :=
  let window := difficultyWindow version
  let cut := difficultyCut version
  let length := min timestampsIn.length window
  if length ≤ 1 then some 1
  else if cumIn.length < length then none
  else
    let timestampsO := timestampsIn.take length
    let cum := cumIn.take length
    let timestamps := sortNat timestampsO
    let (cutBegin,cutEnd) :=
      if length ≤ window - 2*cut then (0,length)
      else
        let b := divCeil (length - (window - 2*cut)) 2
        (b, b + (window - 2*cut))
    let span := timeSpan (timestamps.getD cutBegin 0) (timestamps.getD (cutEnd-1) 0)
    let totalWork := wrappingSub (cum.getD (cutEnd-1) 0) (cum.getD cutBegin 0)
    let product := totalWork*difficultyTarget
    let low := product % 2^64
    if product / 2^64 ≠ 0 ∨ 2^64 - 1 - low < span - 1 then some 0
    else if zawyDifficultyDifficultyBlockVersion ≤ version then some (low / span)
    else if 20160 ≤ parentIndex then
      let tWindow := min 17 timestampsO.length
      let ts := sortNat (timestampsO.drop (timestampsO.length - tWindow))
      let cd := cum.drop (cum.length - tWindow)
      let span := timeSpan (ts.getD 0 0) (ts.getD (tWindow-1) 0)
      let p := wrappingSub (cd.getD (tWindow-1) 0) (cd.getD 0 0) * difficultyTarget
      if p / 2^64 ≠ 0 then some 0 else some (max (p / span) 100)
    else some (divCeil low span)

def nextDifficulty (nextVersion parentIndex : Nat) (timestamps cumulativeDifficulties : List Nat) :
    Option Nat :=
  if lwma2DifficultyBlockIndexV3 ≤ parentIndex then
    nextDifficultyV5 timestamps cumulativeDifficulties
  else if lwma2DifficultyBlockIndexV2 ≤ parentIndex then
    nextDifficultyV4 timestamps cumulativeDifficulties
  else if lwma2DifficultyBlockIndex ≤ parentIndex then
    nextDifficultyV3 timestamps cumulativeDifficulties
  else nextDifficultyLegacy nextVersion parentIndex timestamps cumulativeDifficulties

end Wrkz
