import Wrkz.Library.KeyValue

/-!
A store that holds its writes back and hands them to the store below in one batch.
Reads ask the held writes first. What is below changes only when they are handed on,
and then to what the reads said.
-/

set_option autoImplicit false

namespace Library

universe u v

variable {K : Type u} {V : K → Type v} [DecidableEq K]

/-- What the held writes are measured by: the bytes of a key and of a record, the charge
for each held key, and how many points or bytes are held at most. -/
structure OverlayLimits (V : K → Type v) where
  keyLength : K → Nat
  recordLength : (k : K) → V k → Nat
  entryOverhead : Nat
  maxPoints : Nat
  maxBytes : Nat

structure Overlay (V : K → Type v) where
  base : KeyValue V
  pending : AList fun k => Option (V k)
  bytes : Nat
  points : Nat

namespace Overlay

variable (limits : OverlayLimits V) (o : Overlay V)

def get : KeyValue V := fun k =>
  match o.pending.lookup k with
  | some held => held
  | none => o.base k

def recordBytes (k : K) (r : Option (V k)) : Nat := (r.map (limits.recordLength k)).getD 0

def hold (op : WriteOp V) : Overlay V :=
  { o with
    pending := o.pending.insert op.1 op.2
    bytes :=
      match o.pending.lookup op.1 with
      | some previous =>
        o.bytes + recordBytes limits op.1 op.2 - recordBytes limits op.1 previous
      | none =>
        o.bytes + (limits.keyLength op.1 + recordBytes limits op.1 op.2 + limits.entryOverhead) }

def writeBatch (ops : List (WriteOp V)) : Overlay V := ops.foldl (hold limits) o

def writeBatches (batches : List (List (WriteOp V))) : Overlay V :=
  batches.foldl (writeBatch limits) o

def flush : Overlay V := ⟨o.base.writeBatch o.pending.entries,∅,0,0⟩

/-- A point where what is held may be handed on, and is once a limit is reached. -/
def flushIfFull : Overlay V :=
  let o := { o with points := o.points + 1 }
  if max limits.maxPoints 1 ≤ o.points ∨ limits.maxBytes ≤ o.bytes then o.flush else o

variable {o : Overlay V}

end Overlay

end Library
