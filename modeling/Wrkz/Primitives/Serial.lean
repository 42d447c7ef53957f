import Mathlib

/-!
The binary encoding shared by transactions and blocks: varints, raw fields and
counted fields, read from a byte string and written back to one. A reader takes
the bytes not yet consumed and returns the rest.
-/

set_option autoImplicit false

namespace Wrkz

abbrev Bytes := List UInt8

structure ByteVec (n : Nat) where
  bytes : Bytes
  length_eq : bytes.length = n
  deriving DecidableEq, Repr

abbrev Hash := ByteVec 32

instance : LawfulBEq Hash := inferInstanceAs (LawfulBEq (ByteVec 32))

abbrev Signature := ByteVec 64

namespace ByteVec

variable {n : Nat}

@[ext] theorem ext {a b : ByteVec n} (h : a.bytes = b.bytes) : a = b := by
  cases a; cases b; simp_all

def zero (n : Nat) : ByteVec n := ⟨List.replicate n 0, by simp⟩

instance : Inhabited (ByteVec n) := ⟨zero n⟩

/-- The first `n` bytes, when there are that many. -/
def ofBytes? (n : Nat) (b : Bytes) : Option (ByteVec n) :=
  if h : (b.take n).length = n then some ⟨b.take n, h⟩ else none

def lt (a b : ByteVec n) : Bool := List.lex a.bytes b.bytes (fun x y => decide (x < y))

end ByteVec

/-- `Error` of the parsers. -/
inductive Error where
  | truncated
  | trailingBytes (n : Nat)
  | badVarint
  | malformed (what : String)
  deriving DecidableEq, Repr

namespace Varint

/-- `write`. A `u64` needs ten bytes at most, which bounds the loop. -/
def writeLoop : Nat → Nat → Bytes
  | 0, v => [UInt8.ofNat v]
  | fuel+1, v =>
    if 0x80 ≤ v then UInt8.ofNat (v % 0x80 + 0x80) :: writeLoop fuel (v / 0x80)
    else [UInt8.ofNat v]

def encode (v : Nat) : Bytes := writeLoop 10 v

/-- `read_bits`, from the byte at `shift` on. -/
def readBitsFrom (bits : Nat) : Nat → Nat → Bytes → Except Error (Nat × Bytes)
  | _, _, [] => .error .truncated
  | shift, value, b :: rest =>
    if bits ≤ shift then .error .badVarint
    else if b = 0 ∧ shift ≠ 0 then .error .badVarint
    else
      let piece := b.toNat % 0x80
      if bits < shift + 7 ∧ piece >>> (bits - shift) ≠ 0 then .error .badVarint
      else
        let value := value ||| (piece <<< shift)
        if b.toNat < 0x80 then .ok (value,rest)
        else readBitsFrom bits (shift+7) value rest

def readBits (bits : Nat) (input : Bytes) : Except Error (Nat × Bytes) :=
  readBitsFrom bits 0 0 input

def read (input : Bytes) : Except Error (Nat × Bytes) := readBits 64 input

end Varint

abbrev Reader := StateT Bytes (Except Error)

namespace Reader

def varintBits (bits : Nat) : Reader Nat := fun data => Varint.readBits bits data

def varint : Reader Nat := varintBits 64

def u8Raw : Reader UInt8
  | [] => .error .truncated
  | b :: rest => .ok (b,rest)

def raw (n : Nat) : Reader (ByteVec n) := fun data =>
  match ByteVec.ofBytes? n data with
  | none => .error .truncated
  | some v => .ok (v, data.drop n)

def hash : Reader Hash := raw 32

def u32Le : Reader Nat := do
  let v ← raw 4
  pure (v.bytes.foldr (fun b acc => b.toNat + 256*acc) 0)

def bytes : Reader Bytes := fun data => do
  let (n,rest) ← varint data
  if rest.length < n then .error .truncated else .ok (rest.take n, rest.drop n)

/-- A count of elements of at least `minElemSize` bytes each, bounded by what is left. -/
def count (minElemSize : Nat) : Reader Nat := fun data => do
  let (n,rest) ← varint data
  if rest.length / max minElemSize 1 < n then .error .truncated else .ok (n,rest)

def repeatN {α : Type} (r : Reader α) : Nat → Reader (List α)
  | 0 => pure []
  | n+1 => do
    let a ← r
    let rest ← repeatN r n
    pure (a :: rest)

def fail {α : Type} (e : Error) : Reader α := fun _ => .error e

def finish {α : Type} (r : Reader α) (data : Bytes) : Except Error α :=
  match r data with
  | .error e => .error e
  | .ok (a,[]) => .ok a
  | .ok (_,rest) => .error (.trailingBytes rest.length)

end Reader

namespace Writer

def varint (v : Nat) : Bytes := Varint.encode v

def bytes (b : Bytes) : Bytes := varint b.length ++ b

def u32Le (v : Nat) : Bytes :=
  [UInt8.ofNat v, UInt8.ofNat (v / 0x100), UInt8.ofNat (v / 0x10000), UInt8.ofNat (v / 0x1000000)]

def hashes (hs : List Hash) : Bytes := hs.flatMap ByteVec.bytes

end Writer

namespace Hex32

def fromDigit (n : Nat) : Char :=
  if n < 10 then Char.ofNat ('0'.toNat + n) else Char.ofNat ('a'.toNat + (n - 10))

def digits (bytes : Bytes) : List Char :=
  bytes.flatMap fun b => [fromDigit (b.toNat / 16), fromDigit (b.toNat % 16)]

def toHex (h : Hash) : String := String.ofList (digits h.bytes)

end Hex32

end Wrkz
