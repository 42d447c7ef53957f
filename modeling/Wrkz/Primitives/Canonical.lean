import Wrkz.Library.Codec
import Wrkz.Primitives.Encoding

/-!
Transaction bytes are canonical: the readers take exactly the bytes the writers send for
the value they return, and give back every value that is written.
-/

set_option autoImplicit false

namespace Wrkz

open Library Writer Reader

namespace Varint

theorem or_shiftLeft {value shift : Nat} (piece : Nat) (h : value < 2 ^ shift) :
    value ||| piece <<< shift = value + piece * 2 ^ shift := by
  rw [Nat.or_comm, ← Nat.shiftLeft_add_eq_or_of_lt h, Nat.shiftLeft_eq, Nat.add_comm]

theorem value_lt {value piece shift : Nat} (hvalue : value < 2 ^ shift) (hpiece : piece < 128) :
    value + piece * 2 ^ shift < 2 ^ (shift+7) := by
  rw [Nat.pow_add]
  have hmul : (piece+1) * 2 ^ shift ≤ 2 ^ 7 * 2 ^ shift := Nat.mul_le_mul_right _ (by omega)
  rw [Nat.add_mul] at hmul
  omega

theorem piece_lt_iff {bits shift piece : Nat} (hpiece : piece < 128) :
    ¬ (bits < shift + 7 ∧ piece >>> (bits - shift) ≠ 0) ↔ piece < 2 ^ (bits-shift) := by
  rw [Nat.shiftRight_eq_div_pow]
  have hpos : 2 ^ (bits-shift) ≠ 0 := by positivity
  constructor
  · intro h
    by_cases hwide : bits < shift + 7
    · have hzero : piece / 2 ^ (bits-shift) = 0 := by
        by_contra hne
        exact h ⟨hwide,hne⟩
      exact (Nat.div_eq_zero_iff.1 hzero).resolve_left hpos
    · exact lt_of_lt_of_le hpiece (Nat.pow_le_pow_right (n := 2) (by omega) (by omega : 7 ≤ bits-shift))
  · rintro h ⟨_,hne⟩
    exact hne (Nat.div_eq_of_lt h)

/-- What is read past `shift` is the varint of the bits above it; a varint that goes on
does not end in a zero byte. -/
theorem readBitsFrom_takes {bits : Nat} {data rest : Bytes} {shift value v : Nat}
    (hvalue : value < 2 ^ shift) (h : readBitsFrom bits shift value data = .ok (v,rest)) :
    shift < bits ∧ ∃ u, v = value + u * 2 ^ shift ∧ (shift ≠ 0 → u ≠ 0) ∧
      ∀ fuel, bits ≤ shift + 7*(fuel+1) → data = writeLoop fuel u ++ rest := by
  induction data generalizing shift value with
  | nil => cases h
  | cons b data ih =>
    have hb := b.toNat_lt
    unfold readBitsFrom at h
    split at h
    · cases h
    rename_i hshift
    split at h
    · cases h
    rename_i hminimal
    dsimp only at h
    split at h
    · cases h
    rw [or_shiftLeft _ hvalue] at h
    refine ⟨by omega,?_⟩
    split at h
    · rename_i hlast
      cases h
      refine ⟨b.toNat,by rw [Nat.mod_eq_of_lt hlast],?_,?_⟩
      · intro hne hzero
        exact hminimal ⟨UInt8.toNat_inj.1 hzero,hne⟩
      · intro fuel _
        cases fuel with
        | zero => simp [writeLoop]
        | succ fuel =>
          rw [writeLoop, if_neg (by omega)]
          simp
    · rename_i hmore
      obtain ⟨hnext,u,hv,hne,hdata⟩ := ih (value_lt hvalue (Nat.mod_lt _ (by decide))) h
      have hu := hne (by omega)
      refine ⟨b.toNat % 0x80 + 0x80*u,?_,by omega,?_⟩
      · rw [hv, Nat.pow_add]
        ring
      · intro fuel hfuel
        cases fuel with
        | zero => omega
        | succ fuel =>
          have hbyte : b.toNat % 0x80 + 0x80 = b.toNat := by omega
          rw [writeLoop, if_pos (by omega), Nat.add_mul_mod_self_left, Nat.mod_mod, hbyte,
            Nat.add_mul_div_left _ _ (by decide), Nat.div_eq_of_lt (Nat.mod_lt _ (by decide)),
            Nat.zero_add, hdata fuel (by omega)]
          simp

theorem readBitsFrom_last {bits shift value u : Nat} (rest : Bytes) (hvalue : value < 2 ^ shift)
    (hshift : shift < bits) (hne : shift ≠ 0 → u ≠ 0) (hu : u < 2 ^ (bits-shift))
    (hsmall : u < 128) : readBitsFrom bits shift value (UInt8.ofNat u :: rest) =
      .ok (value + u * 2 ^ shift,rest) := by
  have hbyte : (UInt8.ofNat u).toNat = u := by
    rw [UInt8.toNat_ofNat']
    omega
  have hnonzero : ¬ (UInt8.ofNat u = 0 ∧ shift ≠ 0) := by
    rintro ⟨hzero,hs⟩
    rw [← UInt8.toNat_inj, hbyte] at hzero
    exact hne hs hzero
  unfold readBitsFrom
  rw [if_neg (by omega), if_neg hnonzero, hbyte, Nat.mod_eq_of_lt hsmall]
  dsimp only
  rw [if_neg ((piece_lt_iff hsmall).2 hu), if_pos hsmall, or_shiftLeft _ hvalue]

theorem readBitsFrom_writeLoop {bits fuel shift value u : Nat} (rest : Bytes)
    (hvalue : value < 2 ^ shift) (hshift : shift < bits) (hne : shift ≠ 0 → u ≠ 0)
    (hu : u < 2 ^ (bits-shift)) (hfuel : u < 128 ^ (fuel+1)) :
    readBitsFrom bits shift value (writeLoop fuel u ++ rest) = .ok (value + u * 2 ^ shift,rest) := by
  induction fuel generalizing shift value u with
  | zero => exact readBitsFrom_last rest hvalue hshift hne hu hfuel
  | succ fuel ih =>
    unfold writeLoop
    split
    · rename_i hbig
      have hbyte : (UInt8.ofNat (u % 0x80 + 0x80)).toNat = u % 0x80 + 0x80 := by
        rw [UInt8.toNat_ofNat']
        omega
      have hnonzero : ¬ (UInt8.ofNat (u % 0x80 + 0x80) = 0 ∧ shift ≠ 0) := by
        rintro ⟨hzero,_⟩
        rw [← UInt8.toNat_inj, hbyte] at hzero
        simp at hzero
      have hwide : shift + 7 < bits := by
        by_contra hle
        have htop : (2 : Nat) ^ (bits-shift) ≤ 2 ^ 7 := Nat.pow_le_pow_right (by omega) (by omega)
        omega
      have hquot : u / 0x80 < 2 ^ (bits-(shift+7)) := by
        apply Nat.div_lt_of_lt_mul
        rwa [show (0x80 : Nat) = 2 ^ 7 from rfl, ← Nat.pow_add,
          show 7 + (bits-(shift+7)) = bits-shift by omega]
      have hpiece : u % 0x80 < 2 ^ (bits-shift) := lt_of_le_of_lt (Nat.mod_le _ _) hu
      have hrest : u / 0x80 < 128 ^ (fuel+1) :=
        Nat.div_lt_of_lt_mul (by rw [Nat.pow_succ] at hfuel; omega)
      have hsum : value + u % 0x80 * 2 ^ shift + u / 0x80 * 2 ^ (shift+7) =
          value + u * 2 ^ shift := by
        have hsplit := Nat.mod_add_div u 0x80
        rw [Nat.pow_add]
        nlinarith [hsplit]
      rw [List.cons_append]
      unfold readBitsFrom
      rw [if_neg (by omega), if_neg hnonzero, hbyte,
        show (u % 0x80 + 0x80) % 0x80 = u % 0x80 by omega]
      dsimp only
      rw [if_neg ((piece_lt_iff (by omega)).2 hpiece), if_neg (by omega),
        or_shiftLeft _ hvalue, ih (value_lt hvalue (by omega)) hwide (by omega) hquot hrest, hsum]
    · rename_i hsmall
      exact readBitsFrom_last rest hvalue hshift hne hu (by omega)

end Varint

namespace Reader

theorem takes_varintBits {bits : Nat} (hbits : bits ≤ 64) :
    Takes (varintBits bits) fun v w => w = Writer.varint v ∧ v < 2 ^ bits := by
  refine Takes.and_yields ?_ (yields_varintBits bits)
  intro data v rest h
  obtain ⟨_,u,hv,_,hdata⟩ := Varint.readBitsFrom_takes (by norm_num) h
  rw [Nat.pow_zero, Nat.mul_one, Nat.zero_add] at hv
  exact ⟨_,by rw [hv]; exact hdata 10 (by omega),rfl⟩

theorem takes_varint : Takes varint fun v w => w = Writer.varint v ∧ v < 2 ^ 64 :=
  takes_varintBits (le_refl 64)

theorem takes_u8Raw : Takes u8Raw fun b w => w = [b] := by
  intro data b rest h
  cases data with
  | nil => cases h
  | cons c data =>
    cases h
    exact ⟨[b],rfl,rfl⟩

theorem takes_raw (n : Nat) : Takes (raw n) fun v w => w = v.bytes := by
  intro data v rest h
  unfold raw ByteVec.ofBytes? at h
  split at h
  · cases h
  · rename_i v' hv
    split at hv
    · cases hv
      cases h
      exact ⟨_,(List.take_append_drop n data).symm,rfl⟩
    · cases hv

theorem takes_hash : Takes hash fun v w => w = v.bytes := takes_raw 32

theorem takes_u32Le : Takes u32Le fun v w => w = Writer.u32Le v := by
  refine (takes_raw 4).bind fun v w hw => Takes.pure ?_
  obtain ⟨data,hlen⟩ := v
  match data, hlen, hw with
  | [a,b,c,d], _, hw =>
    have ha := a.toNat_lt
    have hb := b.toNat_lt
    have hc := c.toNat_lt
    have hd := d.toNat_lt
    simp only [hw, List.append_nil, List.foldr_cons, List.foldr_nil, Writer.u32Le, List.cons.injEq,
      and_true, ← UInt8.toNat_inj, UInt8.toNat_ofNat']
    omega

theorem takes_bytes : Takes bytes fun b w => w = Writer.bytes b := by
  intro data b rest h
  unfold bytes at h
  obtain ⟨⟨n,more⟩,hrun,h⟩ := bind_ok_iff.1 h
  obtain ⟨w,hdata,hw,_⟩ := takes_varint data n more hrun
  dsimp only at h
  split at h
  · cases h
  · rename_i hlen
    cases h
    refine ⟨Writer.bytes (more.take n),?_,rfl⟩
    rw [Writer.bytes, List.length_take, Nat.min_eq_left (by omega), List.append_assoc,
      List.take_append_drop, hdata, hw]

theorem takes_count (size : Nat) : Takes (count size) fun n w => w = Writer.varint n := by
  intro data n rest h
  unfold count at h
  obtain ⟨⟨m,more⟩,hrun,h⟩ := bind_ok_iff.1 h
  obtain ⟨w,hdata,hw,_⟩ := takes_varint data m more hrun
  dsimp only at h
  split at h
  · cases h
  · cases h
    exact ⟨w,hdata,hw⟩

variable {α : Type} {r : Reader α} {enc : α → Bytes} {data : Bytes} {a : α}

theorem takes_repeatN (h : Takes r fun a w => w = enc a) (n : Nat) :
    Takes (repeatN r n) fun xs w => w = xs.flatMap enc ∧ xs.length = n := by
  refine Takes.and_yields ?_ (yields_repeatN_length r n)
  induction n with
  | zero => exact Takes.pure rfl
  | succ n ih =>
    refine h.bind fun a w hw => ih.bind fun xs w' hw' => Takes.pure ?_
    rw [hw, hw', List.append_nil, List.flatMap_cons]

theorem finish_eq_ok : finish r data = .ok a ↔ r data = .ok (a,[]) := by
  unfold finish
  split
  · rename_i hrun
    simp [hrun]
  · rename_i b hrun
    simp [hrun]
  · rename_i b rest hne hrun
    rw [hrun]
    constructor
    · intro h
      cases h
    · intro h
      cases h
      exact absurd rfl hne

theorem finish_takes {W : α → Bytes → Prop} (h : Takes r W) (hrun : finish r data = .ok a) : W a data := by
  obtain ⟨w,hdata,hw⟩ := h data a [] (finish_eq_ok.1 hrun)
  rw [List.append_nil] at hdata
  rwa [hdata]

/-! What is written is read back. -/

theorem varintBits_write {bits v : Nat} (hpos : 0 < bits) (hbits : bits ≤ 64) (hv : v < 2 ^ bits)
    (rest : Bytes) : varintBits bits (Writer.varint v ++ rest) = .ok (v,rest) := by
  have hfuel : v < 128 ^ (10+1) :=
    lt_of_lt_of_le hv (le_trans (Nat.pow_le_pow_right (by omega) hbits) (by norm_num))
  have hzero : 0 < 2 ^ 0 := Nat.two_pow_pos 0
  have hread := Varint.readBitsFrom_writeLoop rest hzero hpos (fun h => absurd rfl h)
    (by simpa using hv) hfuel
  rw [Nat.pow_zero, Nat.mul_one, Nat.zero_add] at hread
  exact hread

theorem varint_write {v : Nat} (hv : v < 2 ^ 64) (rest : Bytes) :
    varint (Writer.varint v ++ rest) = .ok (v,rest) :=
  varintBits_write (by omega) (le_refl 64) hv rest

theorem u8Raw_cons (b : UInt8) (rest : Bytes) : u8Raw (b :: rest) = .ok (b,rest) := rfl

theorem raw_write {n : Nat} (v : ByteVec n) (rest : Bytes) :
    raw n (v.bytes ++ rest) = .ok (v,rest) := by
  unfold raw ByteVec.ofBytes?
  have htake : (v.bytes ++ rest).take n = v.bytes := List.take_left' v.length_eq
  simp only [htake, v.length_eq, dite_true, List.drop_left' v.length_eq]

theorem hash_write (v : Hash) (rest : Bytes) : hash (v.bytes ++ rest) = .ok (v,rest) :=
  raw_write v rest

theorem bytes_write {b : Bytes} (hb : b.length < 2 ^ 64) (rest : Bytes) :
    bytes (Writer.bytes b ++ rest) = .ok (b,rest) := by
  unfold bytes Writer.bytes
  rw [List.append_assoc, varint_write hb]
  simp [Bind.bind, Except.bind]

theorem count_write {size n : Nat} {rest : Bytes} (hsize : 0 < size) (hn : n < 2 ^ 64)
    (hrest : n * size ≤ rest.length) : count size (Writer.varint n ++ rest) = .ok (n,rest) := by
  have hle : n ≤ rest.length / size := (Nat.le_div_iff_mul_le hsize).2 hrest
  unfold count
  rw [varint_write hn, Nat.max_eq_left hsize]
  simp only [Bind.bind, Except.bind]
  rw [if_neg (by omega)]

theorem repeatN_write (rest : Bytes) :
    ∀ xs : List α, (∀ x ∈ xs, ∀ t, r (enc x ++ t) = .ok (x,t)) →
      repeatN r xs.length (xs.flatMap enc ++ rest) = .ok (xs,rest)
  | [], _ => rfl
  | x :: xs, h => by
    have htail := repeatN_write rest xs fun y hy => h y (by simp [hy])
    rw [List.flatMap_cons, List.append_assoc]
    change (r >>= fun a => repeatN r xs.length >>= fun rest => pure (a :: rest)) _ = _
    rw [bind_run (h x (by simp) _), bind_run htail]
    rfl

end Reader

theorem length_flatMap_ge {α : Type} {enc : α → Bytes} {k : Nat} :
    ∀ xs : List α, (∀ x ∈ xs, k ≤ (enc x).length) → xs.length * k ≤ (xs.flatMap enc).length
  | [], _ => by simp
  | x :: xs, h => by
    have htail := length_flatMap_ge xs fun y hy => h y (by simp [hy])
    have hhead := h x (by simp)
    rw [List.flatMap_cons, List.length_append, List.length_cons, Nat.add_mul]
    omega

theorem Varint.writeLoop_length_le (fuel v : Nat) : (writeLoop fuel v).length ≤ fuel+1 := by
  induction fuel generalizing v with
  | zero => simp [writeLoop]
  | succ fuel ih =>
    unfold writeLoop
    split
    · have htail := ih (v / 0x80)
      simp only [List.length_cons]
      omega
    · simp

theorem Writer.varint_length_pos (v : Nat) : 0 < (varint v).length := by
  unfold varint Varint.encode Varint.writeLoop
  split <;> simp

theorem Input.takes_read : Takes Input.read fun i w => w = i.write := by
  refine takes_u8Raw.bind fun tag w hw => Takes.ite (fun htag => ?_) fun _ => ?_
  · refine (takes_varintBits (by omega)).bind fun i w' hw' => Takes.pure ?_
    rw [hw, hw'.1, htag, List.append_nil]
    rfl
  · refine Takes.ite (fun htag => ?_) fun _ => Takes.fail
    refine Reader.takes_varint.bind fun amount w₁ h₁ => (Reader.takes_count 1).bind fun n w₂ h₂ => ?_
    refine (Reader.takes_repeatN ((Reader.takes_varintBits (by omega)).mono fun _ _ h => h.1) n).bind
      fun offsets w₃ h₃ => ?_
    refine Reader.takes_hash.bind fun image w₄ h₄ => Takes.pure ?_
    rw [hw, h₁.1, h₂, h₃.1, h₄, htag, ← h₃.2]
    simp [write]

theorem Output.takes_read : Takes Output.read fun o w => w = o.write := by
  refine Reader.takes_varint.bind fun amount w₁ h₁ => Reader.takes_u8Raw.bind fun tag w₂ h₂ => ?_
  refine Takes.ite (fun _ => Takes.fail) fun htag => ?_
  refine takes_hash.bind fun key w₃ h₃ => Takes.pure ?_
  rw [h₁.1, h₂, h₃, not_not.1 htag]
  simp [write]

namespace TransactionPrefix

theorem takes_readAnyVersion : Takes readAnyVersion fun p w => w = p.write := by
  refine (Reader.takes_varintBits (by omega)).bind fun version w₁ h₁ => ?_
  refine takes_varint.bind fun unlockTime w₂ h₂ => ?_
  refine (takes_count 2).bind fun nIn w₃ h₃ => ?_
  refine (takes_repeatN Input.takes_read nIn).bind fun inputs w₄ h₄ => ?_
  refine (takes_count 34).bind fun nOut w₅ h₅ => ?_
  refine (takes_repeatN Output.takes_read nOut).bind fun outputs w₆ h₆ => ?_
  refine takes_bytes.bind fun extra w₇ h₇ => Takes.pure ?_
  rw [h₁.1, h₂.1, h₃, h₄.1, h₅, h₆.1, h₇, ← h₄.2, ← h₆.2]
  simp [write]

theorem takes_read : Takes read fun p w => w = p.write ∧ p.version ≤ currentTransactionVersion := by
  refine takes_readAnyVersion.bind fun p w hw => ?_
  refine Takes.ite (fun _ => Takes.fail) fun hversion => Takes.pure ⟨?_,by omega⟩
  rw [hw, List.append_nil]

end TransactionPrefix

theorem Input.read_write {i : Input} (hi : i.WellFormed) (hc : i.Counted) (rest : Bytes) :
    Input.read (i.write ++ rest) = .ok (i,rest) := by
  cases i with
  | base blockIndex =>
    unfold write read
    rw [List.cons_append, bind_run (u8Raw_cons _ _), if_pos rfl,
      bind_run (varintBits_write (by omega) (by omega) hi rest)]
    rfl
  | key amount offsets image =>
    have hlen := length_flatMap_ge offsets fun o _ => varint_length_pos o
    have hcount : Reader.count 1 (Writer.varint offsets.length ++
        (offsets.flatMap Writer.varint ++ (image.bytes ++ rest))) = .ok (offsets.length,_) :=
      Reader.count_write (by omega) hc (by simp only [List.length_append]; omega)
    have hoffsets : Reader.repeatN (Reader.varintBits 32) offsets.length
        (offsets.flatMap varint ++ (image.bytes ++ rest)) = .ok (offsets,_) :=
      repeatN_write _ offsets fun o ho t =>
        varintBits_write (by omega) (by omega) (hi.2 o ho) t
    have hbytes : (Input.key amount offsets image).write ++ rest = tagKeyInput ::
        (varint amount ++ (varint offsets.length ++
          (offsets.flatMap varint ++ (image.bytes ++ rest)))) := by
      simp [write]
    unfold read
    rw [hbytes, bind_run (u8Raw_cons _ _), if_neg (by decide), if_pos rfl,
      bind_run (varint_write hi.1 _), bind_run hcount, bind_run hoffsets,
      bind_run (hash_write image rest)]
    rfl

theorem Output.read_write {o : Output} (ho : o.amount < 2 ^ 64) (rest : Bytes) :
    Output.read (o.write ++ rest) = .ok (o,rest) := by
  unfold write read
  rw [List.append_assoc, bind_run (varint_write ho _), List.cons_append,
    bind_run (u8Raw_cons _ _), if_neg (by decide), bind_run (hash_write o.key rest)]
  rfl

theorem Input.write_length (i : Input) : 2 ≤ i.write.length := by
  cases i with
  | base blockIndex =>
    have hpos := varint_length_pos blockIndex
    simp only [write, List.length_cons]
    omega
  | key amount offsets image =>
    have hpos := varint_length_pos amount
    simp only [write, List.length_cons, List.length_append]
    omega

theorem Output.write_length (o : Output) : 34 ≤ o.write.length := by
  have hpos := varint_length_pos o.amount
  simp only [write, List.length_cons, List.length_append, ByteVec.length_eq]
  omega

variable {signatures : List (List Signature)} {inputs : List Input} {t : Transaction} {data : Bytes}
  {p : TransactionPrefix}

theorem TransactionPrefix.readAnyVersion_write (hp : p.Encodable)
    (rest : Bytes) : readAnyVersion (p.write ++ rest) = .ok (p,rest) := by
  have hins := length_flatMap_ge p.inputs fun i _ => i.write_length
  have houts := length_flatMap_ge p.outputs fun o _ => o.write_length
  have hcountIn (t : Bytes) : Reader.count 2 (Writer.varint p.inputs.length ++
      (p.inputs.flatMap Input.write ++ t)) = .ok (p.inputs.length,_) :=
    Reader.count_write (by omega) hp.2.inputCount (by simp only [List.length_append]; omega)
  have hinputs (t : Bytes) : Reader.repeatN Input.read p.inputs.length
      (p.inputs.flatMap Input.write ++ t) = .ok (p.inputs,t) :=
    repeatN_write t p.inputs fun i hi => Input.read_write (hp.1.inputs i hi) (hp.2.inputs i hi)
  have hcountOut (t : Bytes) : count 34 (varint p.outputs.length ++
      (p.outputs.flatMap Output.write ++ t)) = .ok (p.outputs.length,_) :=
    count_write (by omega) hp.2.outputCount (by simp only [List.length_append]; omega)
  have houtputs (t : Bytes) : repeatN Output.read p.outputs.length
      (p.outputs.flatMap Output.write ++ t) = .ok (p.outputs,t) :=
    repeatN_write t p.outputs fun o ho => Output.read_write (hp.1.outputs o ho)
  unfold readAnyVersion write
  simp only [List.append_assoc]
  rw [bind_run (varintBits_write (by omega) (by omega) hp.1.version _),
    bind_run (varint_write hp.1.unlockTime _), bind_run (hcountIn _),
    bind_run (hinputs _), bind_run (hcountOut _), bind_run (houtputs _),
    bind_run (bytes_write hp.2.extra rest)]
  rfl

/-- A coinbase has no signatures, every other transaction has its rings'. -/
structure Transaction.Parsed (t : Transaction) : Prop where
  body : t.body.Encodable
  signatures : if t.body.isCoinbase then t.signatures = []
    else List.Forall₂ (fun i sigs => sigs.length = Input.ringSize i) t.body.inputs t.signatures

theorem Transaction.yields_readSignatures (inputs : List Input) :
    Yields (readSignatures inputs)
      (List.Forall₂ (fun i sigs => sigs.length = Input.ringSize i) inputs) := by
  induction inputs with
  | nil => exact Yields.pure .nil
  | cons input inputs ih =>
    refine (yields_repeatN_length _ input.ringSize).bind fun sigs hsigs => ?_
    exact ih.bind fun rest hrest => Yields.pure (.cons hsigs hrest)

theorem Transaction.yields_read_parsed : Yields Transaction.read Transaction.Parsed := by
  have hprefix : Yields TransactionPrefix.read TransactionPrefix.Encodable :=
    TransactionPrefix.yields_readAnyVersion_encodable.bind fun p hp =>
      Yields.ite (fun _ => Yields.fail) fun _ => Yields.pure hp
  refine hprefix.bind fun body hbody => ?_
  refine (yields_readSignatures body.inputs).bind fun sigs hsigs => Yields.pure ⟨hbody,?_⟩
  by_cases hcoinbase : body.isCoinbase = true
  · simp [hcoinbase]
  · simpa [hcoinbase] using hsigs

theorem Transaction.writeSignatures_eq (h : writeSignatures inputs signatures = .ok data) :
    data = signatures.flatMap fun sigs => sigs.flatMap ByteVec.bytes := by
  induction inputs generalizing signatures data with
  | nil =>
    cases signatures with
    | nil =>
      cases h
      rfl
    | cons sigs rest => cases h
  | cons input inputs ih =>
    cases signatures with
    | nil => cases h
    | cons sigs rest =>
      simp only [writeSignatures, bind_ok_iff] at h
      obtain ⟨_,_,tail,htail,hdata⟩ := h
      cases hdata
      rw [ih htail]
      rfl

theorem Transaction.toBytes_eq (h : t.toBytes = .ok data) :
    data = t.body.write ++ t.signatures.flatMap fun sigs => sigs.flatMap ByteVec.bytes := by
  unfold toBytes at h
  split at h
  · rename_i hnone
    simp only [bind_ok_iff] at h
    obtain ⟨_,_,hdata⟩ := h
    cases hdata
    simp [hnone]
  · simp only [bind_ok_iff] at h
    obtain ⟨_,_,sigs,hsigs,hdata⟩ := h
    cases hdata
    rw [writeSignatures_eq hsigs]

theorem Transaction.signatures_inj {s t : List (List Signature)}
    (hs : List.Forall₂ (fun i sigs => sigs.length = Input.ringSize i) inputs s)
    (ht : List.Forall₂ (fun i sigs => sigs.length = Input.ringSize i) inputs t)
    (h : (s.flatMap fun sigs => sigs.flatMap ByteVec.bytes) =
      t.flatMap fun sigs => sigs.flatMap ByteVec.bytes) : s = t := by
  induction hs generalizing t with
  | nil =>
    cases ht
    rfl
  | cons hlen _ ih =>
    cases ht with
    | cons hlen' ht =>
      rw [List.flatMap_cons, List.flatMap_cons] at h
      obtain ⟨hhead,htail⟩ := (ByteVec.bytes_delimited 64).flatMap _ _ (hlen.trans hlen'.symm)
        (fun _ _ => trivial) (fun _ _ => trivial) _ _ h
      rw [hhead, ih ht htail]

theorem Transaction.toBytes_inj {a b : Transaction} (ha : a.Parsed) (hb : b.Parsed)
    (h : a.toBytes = .ok data) (h' : b.toBytes = .ok data) : a = b := by
  have heq := (toBytes_eq h).symm.trans (toBytes_eq h')
  obtain ⟨hbody,hsigs⟩ := TransactionPrefix.write_delimited _ _ ha.body hb.body _ _ heq
  have hsa := ha.signatures
  have hsb := hb.signatures
  rw [hbody] at hsa
  have hsignatures : a.signatures = b.signatures := by
    split at hsa <;> split at hsb
    · rw [hsa, hsb]
    · contradiction
    · contradiction
    · exact signatures_inj hsa hsb hsigs
  cases a
  cases b
  simp_all

theorem Transaction.takes_readSignatures (inputs : List Input) :
    Takes (readSignatures inputs) fun sigs w =>
      w = sigs.flatMap fun s => s.flatMap ByteVec.bytes := by
  induction inputs with
  | nil => exact Takes.pure rfl
  | cons input inputs ih =>
    refine (takes_repeatN (takes_raw 64) input.ringSize).bind fun sigs w hw => ?_
    refine ih.bind fun rest w' hw' => Takes.pure ?_
    rw [hw.1, hw', List.append_nil, List.flatMap_cons]

theorem TransactionPrefix.inputs_of_isCoinbase (h : p.isCoinbase = true) :
    ∃ index, p.inputs = [.base index] := by
  unfold isCoinbase at h
  split at h
  · rename_i index hinputs
    exact ⟨index,hinputs⟩
  · cases h

theorem Transaction.takes_read : Takes Transaction.read fun t w =>
    w = t.body.write ++ t.signatures.flatMap fun s => s.flatMap ByteVec.bytes := by
  refine TransactionPrefix.takes_read.bind fun body w hw => ?_
  refine ((takes_readSignatures body.inputs).and_yields (yields_readSignatures body.inputs)).bind
    fun sigs w' hw' => Takes.pure ?_
  rw [hw.1, hw'.1, List.append_nil]
  by_cases hcoinbase : body.isCoinbase = true
  · obtain ⟨index,hinputs⟩ := TransactionPrefix.inputs_of_isCoinbase hcoinbase
    have hshape := hw'.2
    rw [hinputs] at hshape
    cases hshape with
    | cons hlen hrest =>
      cases hrest
      rw [List.length_eq_zero_iff.1 hlen]
      simp [hcoinbase]
  · simp [hcoinbase]

theorem Transaction.writeSignatures_ok
    (h : List.Forall₂ (fun i sigs => sigs.length = Input.ringSize i) inputs signatures) :
    writeSignatures inputs signatures =
      .ok (signatures.flatMap fun sigs => sigs.flatMap ByteVec.bytes) := by
  induction h with
  | nil => rfl
  | cons hlen _ ih =>
    unfold writeSignatures
    rw [ih, refuseIf, if_neg (by simpa using hlen)]
    rfl

theorem Transaction.toBytes_ok (h : t.Parsed) :
    t.toBytes = .ok (t.body.write ++ t.signatures.flatMap fun sigs => sigs.flatMap ByteVec.bytes) := by
  have hshape := h.signatures
  unfold toBytes
  split
  · rename_i hnone
    have hrings : t.body.inputs.any (fun i => decide (i.ringSize ≠ 0)) = false := by
      split at hshape
      · rename_i hcoinbase
        obtain ⟨index,hinputs⟩ := TransactionPrefix.inputs_of_isCoinbase hcoinbase
        rw [hinputs]
        rfl
      · rw [hnone] at hshape
        rw [List.forall₂_nil_right_iff.1 hshape]
        rfl
    rw [hrings, hnone, List.flatMap_nil, List.append_nil]
    rfl
  · rename_i hsome
    rw [if_neg fun hcoinbase => by rw [if_pos hcoinbase] at hshape; exact hsome hshape] at hshape
    rw [writeSignatures_ok hshape, hshape.length_eq, refuseIf, if_neg (by simp)]
    rfl

theorem Transaction.toBytes_fromBytes
    (h : Transaction.fromBytes data = .ok t) : t.toBytes = .ok data := by
  have hword := finish_takes (takes_read.and_yields yields_read_parsed) h
  rw [toBytes_ok hword.2, ← hword.1]

theorem Transaction.readSignatures_write
    (h : List.Forall₂ (fun i sigs => sigs.length = Input.ringSize i) inputs signatures)
    (rest : Bytes) :
    readSignatures inputs ((signatures.flatMap fun sigs => sigs.flatMap ByteVec.bytes) ++ rest) =
      .ok (signatures,rest) := by
  induction h with
  | nil => rfl
  | cons hlen _ ih =>
    rw [List.flatMap_cons, List.append_assoc]
    unfold readSignatures
    rw [← hlen, bind_run (repeatN_write _ _ fun s _ t => raw_write s t), bind_run ih]
    rfl

theorem Transaction.fromBytes_write (h : t.Parsed)
    (hversion : t.body.version ≤ currentTransactionVersion) (hcoinbase : t.body.isCoinbase = false) :
    Transaction.fromBytes (t.body.write ++
      t.signatures.flatMap fun sigs => sigs.flatMap ByteVec.bytes) = .ok t := by
  have hshape := h.signatures
  rw [if_neg (by simp [hcoinbase])] at hshape
  have hbody (rest : Bytes) : TransactionPrefix.read (t.body.write ++ rest) = .ok (t.body,rest) := by
    unfold TransactionPrefix.read
    rw [bind_run (TransactionPrefix.readAnyVersion_write h.body rest), if_neg (by omega)]
    rfl
  have hsigs := readSignatures_write hshape []
  rw [List.append_nil] at hsigs
  unfold Transaction.fromBytes
  rw [finish_eq_ok]
  unfold read
  rw [bind_run (hbody _), bind_run hsigs]
  simp only [hcoinbase]
  rfl

/-- No string of the one list collides with another one of the other list. -/
def NoCollision (cx : Crypto) (xs ys : List Bytes) : Prop :=
  ∀ x ∈ xs, ∀ y ∈ ys, cx.cnFastHash x = cx.cnFastHash y → x = y

instance (cx : Crypto) (xs ys : List Bytes) : Decidable (NoCollision cx xs ys) :=
  inferInstanceAs (Decidable (∀ x ∈ xs, ∀ y ∈ ys, _ → _))

theorem NoCollision.mono {cx : Crypto} {xs ys xs' ys' : List Bytes} (h : NoCollision cx xs ys)
    (hx : xs' ⊆ xs) (hy : ys' ⊆ ys) : NoCollision cx xs' ys' :=
  fun x hmx y hmy => h x (hx hmx) y (hy hmy)

end Wrkz
