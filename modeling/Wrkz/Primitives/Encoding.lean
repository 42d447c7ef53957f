import Wrkz.Library.Framing
import Wrkz.Primitives.WellFormed

/-!
The bytes written for a parsed value determine it, and show where it ends.
-/

set_option autoImplicit false

namespace Wrkz

open Library Writer Yields List

theorem Varint.writeLoop_delimited (fuel : Nat) :
    Delimited (Varint.writeLoop fuel) (· < 128 ^ (fuel+1)) := by
  induction fuel with
  | zero =>
    intro a b ha hb s t h
    have hhead : UInt8.ofNat a = UInt8.ofNat b := by simpa [writeLoop] using (cons.inj h).1
    have hval := congrArg UInt8.toNat hhead
    simp only [UInt8.toNat_ofNat'] at hval
    exact ⟨by omega,(cons.inj h).2⟩
  | succ fuel ih =>
    intro a b ha hb s t h
    have hbyte (x y : Nat) (hxy : UInt8.ofNat x = UInt8.ofNat y) : x % 256 = y % 256 := by
      have hval := congrArg UInt8.toNat hxy
      simpa only [UInt8.toNat_ofNat'] using hval
    have hquot (x : Nat) (hx : x < 128 ^ (fuel+1+1)) : x / 0x80 < 128 ^ (fuel+1) :=
      Nat.div_lt_of_lt_mul (by rw [Nat.pow_succ] at hx; omega)
    unfold writeLoop at h
    split at h <;> split at h
    · obtain ⟨hhead,htail⟩ := cons.inj h
      obtain ⟨hdiv,hrest⟩ := ih _ _ (hquot a ha) (hquot b hb) s t htail
      have hmod := hbyte _ _ hhead
      exact ⟨by omega,hrest⟩
    · have hmod := hbyte _ _ (cons.inj h).1
      omega
    · have hmod := hbyte _ _ (cons.inj h).1
      omega
    · have hmod := hbyte _ _ (cons.inj h).1
      exact ⟨by omega,(cons.inj h).2⟩

theorem Writer.varint_delimited : Delimited varint (· < 2 ^ 64) := fun a b ha hb =>
  Varint.writeLoop_delimited 10 a b (lt_of_lt_of_le ha (by norm_num))
    (lt_of_lt_of_le hb (by norm_num))

theorem ByteVec.bytes_delimited (n : Nat) : Delimited (ByteVec.bytes : ByteVec n → Bytes)
    fun _ => True :=
  Delimited.of_length (fun a _ => a.length_eq) fun _ _ _ _ h => ByteVec.ext h

theorem Writer.u32Le_delimited : Delimited u32Le (· < 2 ^ 32) := by
  apply Delimited.of_length (n := 4)
  · intro a _
    rfl
  · intro a b ha hb h
    simp only [u32Le, cons.injEq, and_true] at h
    obtain ⟨h0,h1,h2,h3⟩ := h
    have h0 := congrArg UInt8.toNat h0
    have h1 := congrArg UInt8.toNat h1
    have h2 := congrArg UInt8.toNat h2
    have h3 := congrArg UInt8.toNat h3
    simp only [UInt8.toNat_ofNat'] at h0 h1 h2 h3
    omega

theorem Writer.bytes_delimited : Delimited bytes fun b => b.length < 2 ^ 64 := by
  intro a b ha hb s t h
  unfold bytes at h
  rw [append_assoc, append_assoc] at h
  obtain ⟨hlen,hrest⟩ := varint_delimited _ _ ha hb _ _ h
  exact append_inj hrest hlen

namespace Reader

theorem yields_count (size : Nat) : Yields (count size) (· < 2 ^ 64) := by
  intro data n rest h
  unfold count at h
  obtain ⟨⟨m,more⟩,hrun,h⟩ := bind_ok_iff.1 h
  dsimp only at h
  split at h
  · cases h
  · cases h
    exact yields_varint _ _ _ hrun

theorem yields_bytes : Yields bytes fun b => b.length < 2 ^ 64 := by
  intro data b rest h
  unfold bytes at h
  obtain ⟨⟨m,more⟩,hrun,h⟩ := bind_ok_iff.1 h
  dsimp only at h
  split at h
  · cases h
  · cases h
    exact lt_of_le_of_lt (length_take_le _ _) (yields_varint data m more hrun)

theorem yields_repeatN_length {α : Type} (r : Reader α) (n : Nat) :
    Yields (repeatN r n) fun xs => xs.length = n := by
  induction n with
  | zero => exact pure rfl
  | succ n ih =>
    exact any.bind fun a _ => ih.bind fun xs hxs => pure (by simp [hxs])

end Reader

def Input.Counted : Input → Prop
  | .base _ => True
  | .key _ offsets _ => offsets.length < 2 ^ 64

structure TransactionPrefix.Counted (p : TransactionPrefix) : Prop where
  inputCount : p.inputs.length < 2 ^ 64
  inputs : ∀ i ∈ p.inputs, i.Counted
  outputCount : p.outputs.length < 2 ^ 64
  extra : p.extra.length < 2 ^ 64

theorem Input.yields_read_counted : Yields Input.read Input.Counted := by
  refine any.bind fun tag _ => ite (fun _ => ?_) fun _ => ?_
  · exact any.bind fun i _ => pure trivial
  · refine ite (fun _ => ?_) fun _ => fail
    refine any.bind fun amount _ => (Reader.yields_count 1).bind fun n hn => ?_
    refine (Reader.yields_repeatN_length _ n).bind fun offsets hoffsets => ?_
    refine any.bind fun image _ => pure ?_
    change offsets.length < 2 ^ 64
    rw [hoffsets]
    exact hn

theorem TransactionPrefix.yields_readAnyVersion_counted :
    Yields readAnyVersion TransactionPrefix.Counted := by
  refine any.bind fun version _ => any.bind fun unlockTime _ => ?_
  refine (Reader.yields_count 2).bind fun nIn hnIn => ?_
  refine bind (P := fun xs => xs.length = nIn ∧ ∀ i ∈ xs, Input.Counted i) ?_
    fun inputs hinputs => ?_
  · intro data xs rest h
    exact ⟨Reader.yields_repeatN_length _ nIn data xs rest h,
      Reader.yields_repeatN Input.yields_read_counted nIn data xs rest h⟩
  · refine (Reader.yields_count 34).bind fun nOut hnOut => ?_
    refine (Reader.yields_repeatN_length _ nOut).bind fun outputs houtputs => ?_
    refine Reader.yields_bytes.bind fun extra hextra => pure ?_
    exact ⟨by rw [hinputs.1]; exact hnIn,hinputs.2,by rw [houtputs]; exact hnOut,hextra⟩

/-- What the readers accept, and so what is written back without loss. -/
def TransactionPrefix.Encodable (p : TransactionPrefix) : Prop := p.WellFormed ∧ p.Counted

theorem TransactionPrefix.yields_readAnyVersion_encodable :
    Yields readAnyVersion TransactionPrefix.Encodable := fun data p rest h =>
  ⟨yields_readAnyVersion data p rest h,yields_readAnyVersion_counted data p rest h⟩

theorem Input.write_delimited : Delimited Input.write fun i => i.WellFormed ∧ i.Counted := by
  intro a b ha hb s t h
  have hoffsets : Delimited (fun xs : List Nat => varint xs.length ++
      xs.flatMap varint) (fun xs => xs.length < 2 ^ 64 ∧ ∀ x ∈ xs, x < 2 ^ 64) :=
    varint_delimited.counted varint_delimited
  have hwide {xs : List Nat} (hxs : ∀ x ∈ xs, x < 2 ^ 32) : ∀ x ∈ xs, x < 2 ^ 64 :=
    fun x hx => lt_trans (hxs x hx) (by norm_num)
  cases a with
  | base i =>
    cases b with
    | base j =>
      have hi : i < 2 ^ 32 := ha.1
      have hj : j < 2 ^ 32 := hb.1
      obtain ⟨heq,hrest⟩ := varint_delimited i j (by omega) (by omega) s t
        (cons.inj h).2
      exact ⟨by rw [heq],hrest⟩
    | key m ys y => exact absurd (cons.inj h).1 (by decide)
  | key n xs x =>
    cases b with
    | base j => exact absurd (cons.inj h).1 (by decide)
    | key m ys y =>
      have htail := (cons.inj h).2
      simp only [append_eq, append_assoc] at htail
      obtain ⟨hamount,htail⟩ := varint_delimited n m ha.1.1 hb.1.1 _ _ htail
      obtain ⟨hring,htail⟩ := hoffsets xs ys ⟨ha.2,hwide ha.1.2⟩ ⟨hb.2,hwide hb.1.2⟩ _ _
        (by simpa only [append_assoc] using htail)
      obtain ⟨himage,hrest⟩ := ByteVec.bytes_delimited 32 x y trivial trivial s t htail
      exact ⟨by rw [hamount, hring, himage],hrest⟩

theorem Output.write_delimited : Delimited Output.write (·.amount < 2 ^ 64) := by
  intro a b ha hb s t h
  unfold write at h
  simp only [append_assoc, cons_append] at h
  obtain ⟨hamount,htail⟩ := varint_delimited _ _ ha hb _ _ h
  obtain ⟨hkey,hrest⟩ := ByteVec.bytes_delimited 32 a.key b.key trivial trivial s t
    (cons.inj htail).2
  cases a
  cases b
  simp_all

theorem TransactionPrefix.write_delimited : Delimited write Encodable := by
  intro a b ha hb s t h
  have hinputs := varint_delimited.counted Input.write_delimited
  have houtputs := varint_delimited.counted Output.write_delimited
  unfold write at h
  simp only [append_assoc] at h
  have hsmall {x : Nat} (hx : x < 2 ^ 8) : x < 2 ^ 64 := lt_trans hx (by norm_num)
  obtain ⟨hversion,h⟩ := varint_delimited _ _ (hsmall ha.1.version) (hsmall hb.1.version)
    _ _ h
  obtain ⟨hunlock,h⟩ := varint_delimited _ _ ha.1.unlockTime hb.1.unlockTime _ _ h
  obtain ⟨hins,h⟩ := hinputs a.inputs b.inputs
    ⟨ha.2.inputCount,fun i hi => ⟨ha.1.inputs i hi,ha.2.inputs i hi⟩⟩
    ⟨hb.2.inputCount,fun i hi => ⟨hb.1.inputs i hi,hb.2.inputs i hi⟩⟩ _ _
    (by simpa only [append_assoc] using h)
  obtain ⟨houts,h⟩ := houtputs a.outputs b.outputs ⟨ha.2.outputCount,ha.1.outputs⟩
    ⟨hb.2.outputCount,hb.1.outputs⟩ _ _ (by simpa only [append_assoc] using h)
  obtain ⟨hextra,hrest⟩ := bytes_delimited _ _ ha.2.extra hb.2.extra s t h
  cases a
  cases b
  simp_all

end Wrkz
