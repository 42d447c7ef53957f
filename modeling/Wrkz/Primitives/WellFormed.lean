import Wrkz.Library.Reading
import Wrkz.Primitives.Block

/-!
What the parsers accept fits the integer types of the fields it is read into.
-/

set_option autoImplicit false

namespace Wrkz

open Library

theorem Varint.readBitsFrom_lt {bits shift value : Nat} {data rest : Bytes} {v : Nat}
    (hvalue : value < 2 ^ min shift bits)
    (h : Varint.readBitsFrom bits shift value data = .ok (v,rest)) : v < 2 ^ bits := by
  induction data generalizing shift value with
  | nil => simp [readBitsFrom] at h
  | cons b data ih =>
    unfold readBitsFrom at h
    split at h
    · cases h
    rename_i hshift
    split at h
    · cases h
    dsimp only at h
    split at h
    · cases h
    rename_i hpiece
    have hlow : value < 2 ^ min (shift+7) bits :=
      lt_of_lt_of_le hvalue (Nat.pow_le_pow_right (by omega) (by omega))
    have hhigh : (b.toNat % 0x80) <<< shift < 2 ^ min (shift+7) bits := by
      rw [Nat.shiftLeft_eq]
      by_cases hwide : bits < shift+7
      · have hzero : (b.toNat % 0x80) >>> (bits-shift) = 0 := by
          by_contra hne
          exact hpiece ⟨hwide,hne⟩
        rw [Nat.shiftRight_eq_div_pow] at hzero
        have hlt : b.toNat % 0x80 < 2 ^ (bits-shift) :=
          (Nat.div_eq_zero_iff.1 hzero).resolve_left (by positivity)
        calc b.toNat % 0x80 * 2 ^ shift < 2 ^ (bits-shift) * 2 ^ shift :=
              Nat.mul_lt_mul_of_pos_right hlt (by positivity)
          _ = 2 ^ min (shift+7) bits := by
              rw [← Nat.pow_add]
              congr 1
              omega
      · calc b.toNat % 0x80 * 2 ^ shift < 2 ^ 7 * 2 ^ shift :=
              Nat.mul_lt_mul_of_pos_right (by omega) (by positivity)
          _ = 2 ^ min (shift+7) bits := by
              rw [← Nat.pow_add]
              congr 1
              omega
    have hor := Nat.or_lt_two_pow hlow hhigh
    split at h
    · cases h
      exact lt_of_lt_of_le hor (Nat.pow_le_pow_right (by omega) (by omega))
    · exact ih hor h

namespace Reader

theorem yields_varintBits (bits : Nat) : Yields (varintBits bits) (· < 2 ^ bits) := by
  intro data v rest h
  exact Varint.readBitsFrom_lt (by simp) h

theorem yields_varint : Yields varint (· < 2 ^ 64) := yields_varintBits 64

theorem foldr_bytes_lt (bytes : Bytes) :
    bytes.foldr (fun b acc => b.toNat + 256*acc) 0 < 256 ^ bytes.length := by
  induction bytes with
  | nil => simp
  | cons b bytes ih =>
    have hb := b.toNat_lt
    simp only [List.foldr_cons, List.length_cons, Nat.pow_succ]
    omega

theorem yields_u32Le : Yields u32Le (· < 2 ^ 32) := by
  refine Yields.any.bind fun v _ => Yields.pure ?_
  have h := foldr_bytes_lt v.bytes
  rw [v.length_eq] at h
  exact h

theorem yields_repeatN {α : Type} {r : Reader α} {P : α → Prop} (h : Yields r P) (n : Nat) :
    Yields (repeatN r n) fun xs => ∀ x ∈ xs, P x := by
  induction n with
  | zero => exact .pure (by simp)
  | succ n ih =>
    refine h.bind fun a ha => ih.bind fun xs hxs => .pure ?_
    intro x hx
    cases hx with
    | head => exact ha
    | tail _ hx => exact hxs x hx

theorem finish_ok {α : Type} {r : Reader α} {data : Bytes} {a : α} (h : finish r data = .ok a) :
    ∃ rest, r data = .ok (a,rest) := by
  unfold finish at h
  split at h
  · cases h
  · rename_i b hrun
    cases h
    exact ⟨[],hrun⟩
  · cases h

end Reader

def Input.WellFormed : Input → Prop
  | .base blockIndex => blockIndex < 2 ^ 32
  | .key amount offsets _ => amount < 2 ^ 64 ∧ ∀ o ∈ offsets, o < 2 ^ 32

structure TransactionPrefix.WellFormed (p : TransactionPrefix) : Prop where
  version : p.version < 2 ^ 8
  unlockTime : p.unlockTime < 2 ^ 64
  inputs : ∀ i ∈ p.inputs, i.WellFormed
  outputs : ∀ o ∈ p.outputs, o.amount < 2 ^ 64

theorem Input.yields_read : Yields Input.read Input.WellFormed := by
  refine Yields.any.bind fun tag _ => Yields.ite (fun _ => ?_) fun _ => ?_
  · exact (Reader.yields_varintBits 32).bind fun i hi => Yields.pure hi
  · refine Yields.ite (fun _ => ?_) fun _ => Yields.fail
    refine Reader.yields_varint.bind fun amount hamount => ?_
    refine Yields.any.bind fun n _ => ?_
    refine (Reader.yields_repeatN (Reader.yields_varintBits 32) n).bind fun offsets hoffsets => ?_
    exact Yields.any.bind fun image _ => Yields.pure ⟨hamount,hoffsets⟩

theorem Output.yields_read : Yields Output.read (·.amount < 2 ^ 64) := by
  refine Reader.yields_varint.bind fun amount hamount => ?_
  refine Yields.any.bind fun tag _ => Yields.ite (fun _ => Yields.fail) fun _ => ?_
  exact Yields.any.bind fun key _ => Yields.pure hamount

theorem TransactionPrefix.yields_readAnyVersion :
    Yields readAnyVersion TransactionPrefix.WellFormed := by
  refine (Reader.yields_varintBits 8).bind fun version hversion => ?_
  refine Reader.yields_varint.bind fun unlockTime hunlock => ?_
  refine Yields.any.bind fun nIn _ => ?_
  refine (Reader.yields_repeatN Input.yields_read nIn).bind fun inputs hinputs => ?_
  refine Yields.any.bind fun nOut _ => ?_
  refine (Reader.yields_repeatN Output.yields_read nOut).bind fun outputs houtputs => ?_
  exact Yields.any.bind fun extra _ => Yields.pure ⟨hversion,hunlock,hinputs,houtputs⟩

theorem Transaction.yields_read : Yields Transaction.read (·.body.WellFormed) := by
  have hprefix : Yields TransactionPrefix.read TransactionPrefix.WellFormed :=
    TransactionPrefix.yields_readAnyVersion.bind fun p hp =>
      Yields.ite (fun _ => Yields.fail) fun _ => Yields.pure hp
  refine hprefix.bind fun body hbody => ?_
  exact Yields.any.bind fun signatures _ => Yields.pure hbody

theorem Transaction.fromBytes_wellFormed {data : Bytes} {t : Transaction}
    (h : Transaction.fromBytes data = .ok t) : t.body.WellFormed := by
  obtain ⟨rest,hrun⟩ := Reader.finish_ok h
  exact Transaction.yields_read data t rest hrun

structure BlockTemplate.WellFormed (b : BlockTemplate) : Prop where
  majorVersion : versionKnown b.majorVersion
  timestamp : b.timestamp < 2 ^ 64
  nonce : b.nonce < 2 ^ 32
  baseTransaction : b.baseTransaction.body.WellFormed

theorem ParentBlock.yields_read :
    Yields ParentBlock.read fun x => x.2.1 < 2 ^ 64 ∧ x.2.2 < 2 ^ 32 := by
  refine Yields.any.bind fun major _ => Yields.any.bind fun minor _ => ?_
  refine Reader.yields_varint.bind fun timestamp hts => Yields.any.bind fun prev _ => ?_
  refine Reader.yields_u32Le.bind fun nonce hnonce => Yields.any.bind fun txNum _ => ?_
  refine Yields.ite (fun _ => Yields.fail) fun _ => ?_
  refine Yields.any.bind fun branch _ => Yields.any.bind fun baseTransaction _ => ?_
  split
  · exact Yields.fail
  · refine Yields.ite (fun _ => Yields.fail) fun _ => ?_
    exact Yields.any.bind fun chain _ => Yields.pure ⟨hts,hnonce⟩

theorem BlockTemplate.yields_read : Yields BlockTemplate.read BlockTemplate.WellFormed := by
  refine Yields.any.bind fun major _ => ?_
  refine Yields.ite (fun _ => Yields.fail) fun hmajor => ?_
  refine Yields.any.bind fun minor _ => ?_
  refine Yields.bind (P := fun x => x.1 < 2 ^ 64 ∧ x.2.2.1 < 2 ^ 32) ?_ fun header hheader => ?_
  · refine Yields.ite (fun _ => ?_) fun _ => ?_
    · refine Reader.yields_varint.bind fun ts hts => Yields.any.bind fun prev _ => ?_
      exact Reader.yields_u32Le.bind fun nonce hnonce => Yields.pure ⟨hts,hnonce⟩
    · refine Yields.any.bind fun prev _ => ?_
      exact ParentBlock.yields_read.bind fun x hx => Yields.pure hx
  · refine Transaction.yields_read.bind fun base hbase => ?_
    refine Yields.any.bind fun n _ => Yields.any.bind fun hashes _ => Yields.pure ?_
    exact ⟨not_not.1 hmajor,hheader.1,hheader.2,hbase⟩

theorem BlockTemplate.fromBytes_wellFormed {data : Bytes} {b : BlockTemplate}
    (h : BlockTemplate.fromBytes data = .ok b) : b.WellFormed := by
  obtain ⟨rest,hrun⟩ := Reader.finish_ok h
  exact BlockTemplate.yields_read data b rest hrun

theorem BlockTemplate.WellFormed.coinbaseHeight_lt {b : BlockTemplate} (h : b.WellFormed)
    {index : Nat} (hindex : b.coinbaseHeight = some index) : index < 2 ^ 32 := by
  unfold coinbaseHeight at hindex
  split at hindex
  · rename_i hinputs
    cases hindex
    exact h.baseTransaction.inputs (.base index) (by rw [hinputs]; simp)
  · cases hindex

end Wrkz
