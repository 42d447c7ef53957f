import Wrkz.Primitives.Serial
import Wrkz.Library.Fallible

/-!
Transactions: the prefix, the ring signatures, and the `extra` field as the
node and the wallet each parse it.
-/

set_option autoImplicit false

namespace Wrkz

open Library Reader Writer

/-- The cryptographic functions the node calls. They stand for the vendored C
code and are never unfolded. -/
structure Crypto where
  cnFastHash : Bytes → Hash
  /-- `pow_hash_for_block_version`, for the versions that have one. -/
  slowHash : Nat → Bytes → Hash
  cnUpx : Bytes → Hash
  checkKey : Hash → Bool
  /-- The key image is in the prime-order subgroup. -/
  keyImageInDomain : Hash → Bool
  checkRingSignature : Hash → Hash → List Hash → List Signature → Bool

inductive Input where
  | base (blockIndex : Nat)
  | key (amount : Nat) (keyOffsets : List Nat) (keyImage : Hash)
  deriving DecidableEq, Repr

structure Output where
  amount : Nat
  key : Hash
  deriving DecidableEq, Repr

structure TransactionPrefix where
  version : Nat
  unlockTime : Nat
  inputs : List Input
  outputs : List Output
  extra : Bytes
  deriving DecidableEq, Repr

structure Transaction where
  body : TransactionPrefix
  signatures : List (List Signature)
  deriving DecidableEq, Repr

def currentTransactionVersion : Nat := 1
def tagBaseInput : UInt8 := 0xff
def tagKeyInput : UInt8 := 0x02
def tagKeyOutput : UInt8 := 0x02

/-- `checked_add` of `u64`. -/
def checkedAdd (a b : Nat) : Option Nat := if a + b < 2^64 then some (a+b) else none

/-- `Iterator::try_fold` with `checked_add`. -/
def checkedSum (start : Nat) (xs : List Nat) : Option Nat :=
  xs.foldlM checkedAdd start

namespace Input

def ringSize : Input → Nat
  | .base _ => 0
  | .key _ offsets _ => offsets.length

def amount? : Input → Option Nat
  | .base _ => none
  | .key amount _ _ => some amount

def keyImage? : Input → Option Hash
  | .base _ => none
  | .key _ _ image => some image

def write : Input → Bytes
  | .base blockIndex => tagBaseInput :: varint blockIndex
  | .key amount offsets image =>
    tagKeyInput :: (varint amount ++ varint offsets.length ++
      offsets.flatMap varint ++ image.bytes)

def read : Reader Input := do
  let tag ← u8Raw
  if tag = tagBaseInput then
    let blockIndex ← varintBits 32
    pure (.base blockIndex)
  else if tag = tagKeyInput then
    let amount ← varint
    let n ← count 1
    let offsets ← repeatN (varintBits 32) n
    let image ← hash
    pure (.key amount offsets image)
  else fail (.malformed "input tag")

end Input

namespace Output

def write (o : Output) : Bytes := varint o.amount ++ tagKeyOutput :: o.key.bytes

def read : Reader Output := do
  let amount ← varint
  let tag ← u8Raw
  if tag ≠ tagKeyOutput then fail (.malformed "output tag")
  else
    let key ← hash
    pure ⟨amount,key⟩

end Output

namespace TransactionPrefix

def write (p : TransactionPrefix) : Bytes :=
  varint p.version ++ varint p.unlockTime ++
    Writer.varint p.inputs.length ++ p.inputs.flatMap Input.write ++
    Writer.varint p.outputs.length ++ p.outputs.flatMap Output.write ++
    Writer.bytes p.extra

def readAnyVersion : Reader TransactionPrefix := do
  let version ← varintBits 8
  let unlockTime ← varint
  let nIn ← count 2
  let inputs ← repeatN Input.read nIn
  let nOut ← count 34
  let outputs ← repeatN Output.read nOut
  let extra ← bytes
  pure ⟨version,unlockTime,inputs,outputs,extra⟩

def read : Reader TransactionPrefix := do
  let p ← readAnyVersion
  if currentTransactionVersion < p.version then fail (.malformed "transaction version")
  else pure p

def hash (cx : Crypto) (p : TransactionPrefix) : Hash := cx.cnFastHash p.write

def isCoinbase (p : TransactionPrefix) : Bool :=
  match p.inputs with
  | [.base _] => true
  | _ => false

def ringSizes (p : TransactionPrefix) : List Nat :=
  p.inputs.filterMap fun
    | .key _ offsets _ => some offsets.length
    | .base _ => none

def inputAmounts (p : TransactionPrefix) : List Nat := p.inputs.filterMap Input.amount?

def keyImages (p : TransactionPrefix) : List Hash := p.inputs.filterMap Input.keyImage?

def sumInputs (p : TransactionPrefix) : Option Nat := checkedSum 0 p.inputAmounts

def sumOutputs (p : TransactionPrefix) : Option Nat := checkedSum 0 (p.outputs.map Output.amount)

end TransactionPrefix

namespace Transaction

/-- The signatures must follow the rings; an empty list stands for rings without
members. -/
def writeSignatures : List Input → List (List Signature) → Except Error Bytes
  | [], [] => .ok []
  | input :: inputs, sigs :: rest => do
    refuseIf (sigs.length ≠ input.ringSize) (.malformed "signature count != ring size")
    let tail ← writeSignatures inputs rest
    pure (sigs.flatMap ByteVec.bytes ++ tail)
  | _, _ => .error (.malformed "signature vector count != input count")

def toBytes (t : Transaction) : Except Error Bytes :=
  if t.signatures = [] then do
    refuseIf (t.body.inputs.any (fun i => i.ringSize ≠ 0) = true)
      (.malformed "signatures missing for a key input")
    pure t.body.write
  else do
    refuseIf (t.signatures.length ≠ t.body.inputs.length)
      (.malformed "signature vector count != input count")
    let sigs ← writeSignatures t.body.inputs t.signatures
    pure (t.body.write ++ sigs)

def readSignatures : List Input → Reader (List (List Signature))
  | [] => pure []
  | input :: inputs => do
    let sigs ← repeatN (raw 64) input.ringSize
    let rest ← readSignatures inputs
    pure (sigs :: rest)

def read : Reader Transaction := do
  let body ← TransactionPrefix.read
  let signatures ← readSignatures body.inputs
  pure ⟨body, if body.isCoinbase then [] else signatures⟩

def fromBytes (data : Bytes) : Except Error Transaction := finish read data

def hash (cx : Crypto) (t : Transaction) : Except Error Hash := do
  let data ← t.toBytes
  pure (cx.cnFastHash data)

end Transaction

/-- The base transaction of a parent block, which may be of any version. -/
structure BaseTransaction where
  body : TransactionPrefix
  deriving DecidableEq, Repr

namespace BaseTransaction

def write (t : BaseTransaction) : Bytes :=
  t.body.write ++ if 2 ≤ t.body.version then varint 0 else []

def read : Reader BaseTransaction := do
  let body ← TransactionPrefix.readAnyVersion
  if 2 ≤ body.version then
    let _ignored ← varint
    pure ⟨body⟩
  else pure ⟨body⟩

def hash (cx : Crypto) (t : BaseTransaction) : Hash :=
  if t.body.version < 2 then cx.cnFastHash t.body.write
  else cx.cnFastHash ((cx.cnFastHash t.body.write).bytes ++ (cx.cnFastHash [0]).bytes ++
    (ByteVec.zero 32).bytes)

end BaseTransaction

def relativeOffsetsToAbsolute : List Nat → Option (List Nat)
  | [] => some []
  | first :: rest => do
    let tail ← go first rest
    pure (first :: tail)
where
  go (acc : Nat) : List Nat → Option (List Nat)
    | [] => some []
    | o :: rest => do
      let acc ← checkedAdd acc o
      let tail ← go acc rest
      pure (acc :: tail)

end Wrkz
