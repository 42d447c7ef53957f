import Wrkz.Library.Digits
import Wrkz.Primitives.Canonical

/-!
The walk of a snapshot over the integers below a count, in the order of their
little-endian keys. It goes down the bytes from the lowest one, which decides the order.
-/

set_option autoImplicit false

namespace Wrkz

open Library List

section

variable {m : Type → Type} [Monad m]

def walkBytes (visit : Nat → m PUnit) : Nat → Nat → Nat → Nat → m PUnit
  | 0, _, _, _ => pure ⟨⟩
  | width+1, count, base, shift =>
    if count = 0 then pure ⟨⟩
    else if width = 0 then
      forM (List.range count) fun x => visit (base ||| (x <<< shift) % 2^64)
    else
      forM (List.range (min count 256)) fun low =>
        walkBytes visit width ((count - 1 - low) / 256 + 1) (base ||| (low <<< shift) % 2^64)
          (shift+8)

/-- Nothing is returned where the assertion fails. -/
def forEachInLeOrder (count width : Nat) (visit : Nat → m PUnit) : Option (m PUnit) :=
  if (1 ≤ width ∧ width ≤ 8) ∧ (width = 8 ∨ count ≤ 1 <<< (8*width)) then
    some (walkBytes visit width count 0 0)
  else none

end

def leBytes (width v : Nat) : Bytes := (lowDigits 256 width v).map UInt8.ofNat

/-- The values below `count` in the order of `width+1` little-endian bytes. -/
def leOrder : Nat → Nat → List Nat
  | 0, count => List.range count
  | width+1, count => (List.range (min count 256)).flatMap fun low =>
    (leOrder width ((count - 1 - low) / 256 + 1)).map fun high => low + 256 * high

theorem mem_leOrder {width count v : Nat} : v ∈ leOrder width count ↔ v < count := by
  induction width generalizing count v with
  | zero => exact mem_range
  | succ width ih =>
    simp only [leOrder, mem_flatMap, mem_range, mem_map, ih]
    constructor
    · rintro ⟨low,hlow,high,hhigh,rfl⟩
      omega
    · intro hv
      exact ⟨v % 256,by omega,v / 256,by omega,by omega⟩

theorem leBytes_lt {low low' : Nat} (h : low < low') (h' : low' < 256) (width v v' : Nat) :
    leBytes (width+1) (low + 256*v) < leBytes (width+1) (low' + 256*v') := by
  have hlt : UInt8.ofNat low < UInt8.ofNat low' := by
    rwa [UInt8.lt_iff_toNat_lt, UInt8.toNat_ofNat_of_lt' (h.trans h'), UInt8.toNat_ofNat_of_lt' h']
  simp only [leBytes, lowDigits_add_mul (h.trans h'), lowDigits_add_mul h', map_cons]
  exact cons_lt_cons_iff.2 (.inl hlt)

theorem leBytes_lt_of_eq {low : Nat} (h : low < 256) {width v v' : Nat}
    (hlt : leBytes width v < leBytes width v') :
    leBytes (width+1) (low + 256*v) < leBytes (width+1) (low + 256*v') := by
  simp only [leBytes, lowDigits_add_mul h, map_cons]
  exact cons_lt_cons_iff.2 (.inr ⟨rfl,hlt⟩)

/-- What is left to count above the lowest byte fits the bytes that are left. -/
theorem count_above_le {width count low : Nat} (hcount : count ≤ 256 ^ (width+2)) :
    (count - 1 - low) / 256 + 1 ≤ 256 ^ (width+1) := by
  have hpos : 0 < 256 ^ (width+1) := Nat.pow_pos (by decide)
  rw [pow_succ] at hcount
  omega

theorem leOrder_sorted {width count : Nat} (hcount : count ≤ 256 ^ (width+1)) :
    (leOrder width count).Pairwise fun a b => leBytes (width+1) a < leBytes (width+1) b := by
  induction width generalizing count with
  | zero =>
    refine pairwise_lt_range.imp_of_mem fun {a b} _ hb hlt => ?_
    have hb' : b < 256 := (mem_range.1 hb).trans_le (by simpa using hcount)
    exact leBytes_lt hlt hb' 0 0 0
  | succ width ih =>
    refine pairwise_flatMap.2 ⟨fun low hlow => ?_,?_⟩
    · have hlow' : low < 256 := by
        have := mem_range.1 hlow
        omega
      refine pairwise_map.2 ((ih (count_above_le hcount)).imp fun hlt => ?_)
      exact leBytes_lt_of_eq hlow' hlt
    · refine pairwise_lt_range.imp_of_mem fun {a b} _ hb hlt => ?_
      have hb' : b < 256 := by
        have := mem_range.1 hb
        omega
      simp only [mem_map]
      rintro _ ⟨high,_,rfl⟩ _ ⟨high',_,rfl⟩
      exact leBytes_lt hlt hb' _ _ _

theorem leOrder_perm {width count : Nat} (hcount : count ≤ 256 ^ (width+1)) :
    (leOrder width count).Perm (range count) := by
  have hnodup : (leOrder width count).Nodup := by
    refine (leOrder_sorted hcount).imp fun {a b} hlt heq => ?_
    subst heq
    exact List.lt_irrefl _ hlt
  refine (List.perm_ext_iff_of_nodup hnodup List.nodup_range).2 fun v => ?_
  rw [mem_leOrder, List.mem_range]

/-- A byte goes above the bytes already set. -/
theorem placeByte_eq {base shift x : Nat} (hbase : base < 2^shift) (hshift : shift + 8 ≤ 64)
    (hx : x < 256) : base ||| (x <<< shift) % 2^64 = base + x * 2^shift := by
  have hfits : x <<< shift < 2^64 := by
    rw [Nat.shiftLeft_eq]
    calc x * 2^shift < 2^8 * 2^shift := Nat.mul_lt_mul_of_pos_right hx (Nat.two_pow_pos _)
      _ = 2^(shift+8) := by rw [Nat.mul_comm, ← Nat.pow_add]
      _ ≤ 2^64 := Nat.pow_le_pow_right (by decide) hshift
  rw [Nat.mod_eq_of_lt hfits, Varint.or_shiftLeft _ hbase]

section

variable {m : Type → Type} [Monad m]

theorem forM_congr {α : Type} {l : List α} {f g : α → m PUnit} (h : ∀ a ∈ l, f a = g a) :
    forM l f = forM l g := by
  induction l with
  | nil => rfl
  | cons a l ih =>
    obtain ⟨ha,hl⟩ := forall_mem_cons.1 h
    simp [ha, ih hl]

variable [LawfulMonad m]

theorem forM_flatMap {α β : Type} (l : List α) (f : α → List β) (visit : β → m PUnit) :
    forM (l.flatMap f) visit = forM l fun a => forM (f a) visit := by
  induction l with
  | nil => rfl
  | cons a l ih => simp [ih]

theorem walkBytes_eq (visit : Nat → m PUnit) {width count base shift : Nat}
    (hbase : base < 2^shift) (hshift : shift + 8*(width+1) ≤ 64)
    (hcount : count ≤ 256 ^ (width+1)) : walkBytes visit (width+1) count base shift =
      forM (leOrder width count) fun v => visit (base + v * 2^shift) := by
  induction width generalizing count base shift with
  | zero =>
    unfold walkBytes
    split
    · rename_i hzero
      rw [hzero]
      rfl
    · rw [if_pos rfl]
      refine forM_congr fun x hx => ?_
      have hx' : x < 256 := (mem_range.1 hx).trans_le (by simpa using hcount)
      rw [placeByte_eq hbase (by omega) hx']
  | succ width ih =>
    unfold walkBytes
    split
    · rename_i hzero
      rw [hzero]
      rfl
    · rw [if_neg (by omega), leOrder, forM_flatMap]
      refine forM_congr fun low hlow => ?_
      have hlow' : low < 256 := by
        have := mem_range.1 hlow
        omega
      have hnext : base + low * 2^shift < 2^(shift+8) := by
        have hbelow := Nat.mul_le_mul_right (2^shift) (Nat.succ_le_of_lt hlow')
        rw [Nat.succ_mul] at hbelow
        rw [Nat.pow_add]
        omega
      rw [placeByte_eq hbase (by omega) hlow', ih hnext (by omega) (count_above_le hcount),
        forM_map]
      refine forM_congr fun high _ => ?_
      have hvalue : base + low * 2^shift + high * 2^(shift+8) =
          base + (low + 256*high) * 2^shift := by
        rw [Nat.pow_add]
        ring
      rw [hvalue]

end

/-- Every value below the count is visited once, in the order of the keys. -/
theorem forEachInLeOrder_visits {count width : Nat} (hwidth : 1 ≤ width ∧ width ≤ 8)
    (hcount : count ≤ 2^(8*width)) : ∃ vs : List Nat,
      (∀ (m : Type → Type) [Monad m] [LawfulMonad m] (visit : Nat → m PUnit),
        forEachInLeOrder count width visit = some (forM vs visit)) ∧
      vs.Perm (List.range count) ∧
      vs.Pairwise fun a b => leBytes width a < leBytes width b := by
  obtain ⟨width,rfl⟩ : ∃ w, width = w+1 := ⟨width-1,by omega⟩
  have hfits : count ≤ 256 ^ (width+1) := by
    rwa [pow_mul] at hcount
  refine ⟨leOrder width count,fun m _ _ visit => ?_,leOrder_perm hfits,leOrder_sorted hfits⟩
  unfold forEachInLeOrder
  rw [if_pos ⟨hwidth,.inr (by rwa [Nat.one_shiftLeft])⟩,
    walkBytes_eq visit (by decide) (by omega) hfits]
  simp

theorem forEachInLeOrder_visits_sample : ∃ vs : List Nat,
    (∀ visit : Nat → Option PUnit, forEachInLeOrder 300 2 visit = some (forM vs visit)) ∧
    vs.Perm (List.range 300) ∧ vs.Pairwise fun a b => leBytes 2 a < leBytes 2 b := by
  have hwidth : 1 ≤ 2 ∧ 2 ≤ 8 := by decide
  have hcount : 300 ≤ 2^(8*2) := by decide
  obtain ⟨vs,hvisits,hrest⟩ := forEachInLeOrder_visits hwidth hcount
  exact ⟨vs,hvisits Option,hrest⟩

end Wrkz
