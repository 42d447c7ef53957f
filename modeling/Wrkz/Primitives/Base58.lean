import Wrkz.Library.Digits
import Wrkz.Primitives.Canonical

/-!
Base58 in blocks of eight bytes, and the addresses written in it. A block is a number
with as many digits to base 58 as its length asks for, so it has one spelling; an
address adds a tag in front and a checksum behind.
-/

set_option autoImplicit false

namespace Wrkz.Base58

open Library List

/-- `ALPHABET`. -/
def alphabet : Bytes :=
  [0x31,0x32,0x33,0x34,0x35,0x36,0x37,0x38,0x39,
   0x41,0x42,0x43,0x44,0x45,0x46,0x47,0x48,0x4A,0x4B,0x4C,0x4D,0x4E,
   0x50,0x51,0x52,0x53,0x54,0x55,0x56,0x57,0x58,0x59,0x5A,
   0x61,0x62,0x63,0x64,0x65,0x66,0x67,0x68,0x69,0x6A,0x6B,
   0x6D,0x6E,0x6F,0x70,0x71,0x72,0x73,0x74,0x75,0x76,0x77,0x78,0x79,0x7A]

def encodedBlockSizes : List Nat := [0,2,3,5,6,7,9,10,11]

inductive Base58Error where
  | invalidCharacter (position : Nat) (character : UInt8)
  | invalidLength (n : Nat)
  | blockOverflow
  | tooShort
  | badChecksum
  | badTag
  | wrongPrefix (tag : Nat)
  | wrongAddressLength (n : Nat)
  | wrongPayloadLength (n : Nat)
  | badPaymentId
  | badPublicKey
  deriving DecidableEq, Repr

/-- The place of an element, as `iter().position` finds it. -/
def position {α : Type} [BEq α] [LawfulBEq α] (l : List α) (a : α) : Option Nat :=
  if l.contains a then some (l.idxOf a) else none

def reverse (c : UInt8) : Option Nat := position alphabet c

def digitChar (d : Nat) : UInt8 := alphabet.getD d 0

def encodeBlock (block : Bytes) (size : Nat) : Bytes :=
  let num := block.foldl (fun num b => 256 * num + b.toNat) 0
  ((lowDigits 58 size num).map digitChar).reverse

/-- The whole blocks first; what is left is shorter than a block. -/
def encodeFrom : Nat → Bytes → Bytes
  | 0, data => if data = [] then [] else encodeBlock data (encodedBlockSizes.getD data.length 0)
  | full+1, data => encodeBlock (data.take 8) 11 ++ encodeFrom full (data.drop 8)

def encode (data : Bytes) : Bytes := encodeFrom (data.length / 8) data

/-- The loop of `decode_block`, over the characters from the last to the first. -/
def decodeLoop (offset : Nat) : Bytes → Nat → Nat → Except Base58Error Nat
  | [], num, _ => pure num
  | c :: rest, num, order => do
    let d ← orRefuse (reverse c) (.invalidCharacter (offset + rest.length) c)
    refuseIf (2^64 - 1 < num + order * d) .blockOverflow
    decodeLoop offset rest (num + order * d) (order * 58)

def decodeBlock (block : Bytes) (resSize offset : Nat) : Except Base58Error Bytes := do
  let num ← decodeLoop offset block.reverse 0 1
  refuseIf (resSize < 8 ∧ 2^(8*resSize) ≤ num) .blockOverflow
  pure (((lowDigits 256 8 num).map UInt8.ofNat).reverse.drop (8 - resSize))

def decodeFrom (lastDecoded : Nat) : Nat → Nat → Bytes → Except Base58Error Bytes
  | 0, offset, s => if s = [] then pure [] else decodeBlock s lastDecoded offset
  | full+1, offset, s => do
    let block ← decodeBlock (s.take 11) 8 offset
    let rest ← decodeFrom lastDecoded full (offset+11) (s.drop 11)
    pure (block ++ rest)

def lastDecoded (length : Nat) : Except Base58Error Nat :=
  if length % 11 = 0 then pure 0
  else orRefuse (position encodedBlockSizes (length % 11)) (.invalidLength length)

def decode (s : Bytes) : Except Base58Error Bytes :=
  if s = [] then pure []
  else do
    let last ← lastDecoded s.length
    decodeFrom last (s.length / 11) 0 s

theorem position_some {α : Type} [BEq α] [LawfulBEq α] {l : List α} {a : α} {i : Nat} {d : α}
    (h : position l a = some i) : i < l.length ∧ l.getD i d = a := by
  unfold position at h
  split at h
  · rename_i hmem
    cases h
    have hlt := idxOf_lt_length_of_mem (contains_iff_mem.1 hmem)
    rw [getD_eq_getElem _ _ hlt, getElem_idxOf]
    exact ⟨hlt,rfl⟩
  · cases h

theorem reverse_digitChar : ∀ d < 58, reverse (digitChar d) = some d := by
  decide +kernel

theorem reverse_some {c : UInt8} {d : Nat} (h : reverse c = some d) : d < 58 ∧ digitChar d = c :=
  position_some (d := 0) h

variable {s data : Bytes} {offset : Nat} {full : Nat}

theorem decodeLoop_ok {cs : Bytes} {num order r : Nat}
    (h : decodeLoop offset cs num order = .ok r) : ∃ ds, cs = ds.map digitChar ∧
      (∀ d ∈ ds, d < 58) ∧ r = num + order * Nat.ofDigits 58 ds ∧ (num < 2^64 → r < 2^64) := by
  induction cs generalizing num order with
  | nil =>
    cases h
    exact ⟨[],rfl,by simp,by simp,id⟩
  | cons c cs ih =>
    simp only [decodeLoop, bind_ok_iff, orRefuse_ok_iff] at h
    obtain ⟨d,hd,_,hfits,hrest⟩ := h
    obtain ⟨ds,rfl,hds,hr,hlast⟩ := ih hrest
    obtain ⟨hlt,hc⟩ := reverse_some hd
    refine ⟨d :: ds,by rw [map_cons, hc],forall_mem_cons.2 ⟨hlt,hds⟩,?_,fun _ => ?_⟩
    · rw [hr, Nat.ofDigits_cons]
      ring
    · have := refuseIf_ok_iff.1 hfits
      exact hlast (by omega)

theorem decodeLoop_digits {ds : List Nat} {num order : Nat}
    (hds : ∀ d ∈ ds, d < 58) (hfits : num + order * Nat.ofDigits 58 ds < 2^64) :
    decodeLoop offset (ds.map digitChar) num order = .ok (num + order * Nat.ofDigits 58 ds) := by
  induction ds generalizing num order with
  | nil => simp [decodeLoop, pure, Except.pure]
  | cons d ds ih =>
    obtain ⟨hd,hds⟩ := forall_mem_cons.1 hds
    have hsum : num + order * Nat.ofDigits 58 (d :: ds) =
        num + order * d + order * 58 * Nat.ofDigits 58 ds := by
      rw [Nat.ofDigits_cons]
      ring
    rw [hsum] at hfits ⊢
    have hsmall : ¬ 2^64 - 1 < num + order * d := by
      have := Nat.le_add_right (num + order * d) (order * 58 * Nat.ofDigits 58 ds)
      omega
    simp only [map_cons, decodeLoop, reverse_digitChar d hd, orRefuse, refuseIf, bind,
      Except.bind, if_neg hsmall]
    exact ih hds hfits

theorem foldl_eq_ofDigits (block : Bytes) :
    block.foldl (fun num b => 256 * num + b.toNat) 0 =
      Nat.ofDigits 256 (block.reverse.map UInt8.toNat) := by
  induction block using reverseRecOn with
  | nil => rfl
  | append_singleton block b ih =>
    rw [foldl_append, foldl_cons, foldl_nil, ih, reverse_append]
    simp only [reverse_cons, reverse_nil, nil_append, cons_append, map_cons, Nat.ofDigits_cons]
    omega

theorem toNat_lt_of_mem (block : Bytes) : ∀ d ∈ block.reverse.map UInt8.toNat, d < 256 := by
  intro d hd
  obtain ⟨b,_,rfl⟩ := mem_map.1 hd
  exact b.toNat_lt

theorem ofNat_toNat_map (block : Bytes) : (block.map UInt8.toNat).map UInt8.ofNat = block := by
  rw [map_map]
  refine (map_congr_left fun b _ => ?_).trans (map_id block)
  exact UInt8.ofNat_toNat

theorem encodedBlockSizes_fits : ∀ n ≤ 8, 256 ^ n ≤ 58 ^ encodedBlockSizes.getD n 0 := by
  decide +kernel

/-- The value of a block and the digits it is written with. -/
theorem decodeBlock_encodeBlock (block : Bytes) (hlen : block.length ≤ 8) (offset : Nat) :
    decodeBlock (encodeBlock block (encodedBlockSizes.getD block.length 0)) block.length offset =
      .ok block := by
  have hnum : block.foldl (fun num b => 256 * num + b.toNat) 0 < 256 ^ block.length := by
    rw [foldl_eq_ofDigits]
    have := Nat.ofDigits_lt_base_pow_length (b := 256) (l := block.reverse.map UInt8.toNat)
      (by decide) (toNat_lt_of_mem block)
    simpa using this
  have hback : (lowDigits 256 block.length
      (block.foldl (fun num b => 256 * num + b.toNat) 0)).map UInt8.ofNat = block.reverse := by
    have hlow := lowDigits_ofDigits (toNat_lt_of_mem block)
    rw [length_map, length_reverse] at hlow
    rw [foldl_eq_ofDigits, hlow]
    exact ofNat_toNat_map _
  unfold decodeBlock encodeBlock
  dsimp only
  generalize block.foldl (fun num b => 256 * num + b.toNat) 0 = num at hnum hback ⊢
  have hdigits := ofDigits_lowDigits (hnum.trans_le (encodedBlockSizes_fits _ hlen))
  have h64 : num < 2^64 := hnum.trans_le (by
    calc 256 ^ block.length ≤ 256 ^ 8 := Nat.pow_le_pow_right (by decide) hlen
      _ = 2^64 := by norm_num)
  have hsmall : ¬ (block.length < 8 ∧ 2^(8*block.length) ≤ num) := by
    rw [pow_mul]
    norm_num
    intro _
    exact hnum
  rw [reverse_reverse, decodeLoop_digits (lowDigits_lt (by decide) _ _)
    (by rw [hdigits]; omega), hdigits]
  simp only [Nat.zero_add, Nat.one_mul, refuseIf, bind, Except.bind, if_neg hsmall, pure,
    Except.pure, Except.ok.injEq]
  rw [drop_reverse, length_map, lowDigits_length, ← map_take,
    take_lowDigits (by omega), show 8 - (8 - block.length) = block.length by omega, hback,
    reverse_reverse]

theorem encodeBlock_of_decodeBlock {s block : Bytes} {n offset : Nat} (hn : n ≤ 8)
    (hlen : s.length = encodedBlockSizes.getD n 0) (h : decodeBlock s n offset = .ok block) :
    block.length = n ∧ encodeBlock block (encodedBlockSizes.getD n 0) = s := by
  simp only [decodeBlock, bind_ok_iff, refuseIf_ok_iff, pure_ok_iff] at h
  obtain ⟨num,hnum,_,hfits,hblock⟩ := h
  obtain ⟨ds,hs,hds,hval,h64⟩ := decodeLoop_ok hnum
  rw [Nat.zero_add, Nat.one_mul] at hval
  rw [drop_reverse, length_map, lowDigits_length, ← map_take,
    take_lowDigits (by omega), show 8 - (8 - n) = n by omega] at hblock
  have hsmall : num < 256 ^ n := by
    rcases Nat.lt_or_eq_of_le hn with hlt | rfl
    · rw [not_and, pow_mul] at hfits
      exact not_le.1 (hfits hlt)
    · exact h64 (by decide)
  have hbytes : block.reverse.map UInt8.toNat = lowDigits 256 n num := by
    rw [← hblock, reverse_reverse, map_map]
    refine (map_congr_left fun d hd => ?_).trans (map_id _)
    exact UInt8.toNat_ofNat_of_lt' (lowDigits_lt (by decide) n num d hd)
  have hcount : ds.length = encodedBlockSizes.getD n 0 := by
    have hslen := congrArg length hs
    rw [length_reverse, length_map] at hslen
    omega
  refine ⟨by rw [← hblock]; simp,?_⟩
  unfold encodeBlock
  dsimp only
  rw [foldl_eq_ofDigits, hbytes, ofDigits_lowDigits hsmall, ← hcount, hval,
    lowDigits_ofDigits hds, ← hs, reverse_reverse]

theorem encodeBlock_length (block : Bytes) (size : Nat) : (encodeBlock block size).length = size := by
  simp [encodeBlock]

theorem encodedBlockSizes_lt : ∀ n < 8, encodedBlockSizes.getD n 0 < 11 ∧
    (0 < n → 0 < encodedBlockSizes.getD n 0) ∧
    position encodedBlockSizes (encodedBlockSizes.getD n 0) = some n := by
  decide +kernel

theorem encodeFrom_length {data : Bytes} (h : data.length = 8 * full + data.length % 8) :
    (encodeFrom full data).length = 11 * full + encodedBlockSizes.getD (data.length % 8) 0 := by
  induction full generalizing data with
  | zero =>
    unfold encodeFrom
    split
    · rename_i hnil
      rw [hnil]
      rfl
    · rw [encodeBlock_length, show data.length % 8 = data.length by omega]
      omega
  | succ full ih =>
    have hdrop : (data.drop 8).length = data.length - 8 := length_drop
    have hmod : (data.drop 8).length % 8 = data.length % 8 := by omega
    rw [encodeFrom, length_append, encodeBlock_length, ih (by omega), hmod]
    omega

theorem decodeFrom_encodeFrom (offset : Nat) (data : Bytes)
    (h : data.length = 8 * full + data.length % 8) :
    decodeFrom (data.length % 8) full offset (encodeFrom full data) = .ok data := by
  induction full generalizing offset data with
  | zero =>
    have hlen : data.length % 8 = data.length := by omega
    unfold encodeFrom decodeFrom
    by_cases hnil : data = []
    · simp [hnil, pure, Except.pure]
    · have hpos := length_pos_iff.2 hnil
      have hne : encodeBlock data (encodedBlockSizes.getD data.length 0) ≠ [] := by
        rw [← length_pos_iff, encodeBlock_length]
        exact (encodedBlockSizes_lt _ (by omega)).2.1 hpos
      rw [if_neg hnil, if_neg hne, hlen]
      exact decodeBlock_encodeBlock data (by omega) offset
  | succ full ih =>
    have htake : (data.take 8).length = 8 := by rw [length_take]; omega
    have hdrop : (data.drop 8).length = data.length - 8 := length_drop
    have hmod : (data.drop 8).length % 8 = data.length % 8 := by omega
    have hblock := decodeBlock_encodeBlock (data.take 8) (by omega) offset
    rw [htake] at hblock
    have hrest := ih (offset + 11) (data.drop 8) (by omega)
    rw [hmod] at hrest
    have hfirst : (encodeBlock (data.take 8) 11).length = 11 := encodeBlock_length _ _
    rw [encodeFrom, decodeFrom, take_left' hfirst, drop_left' hfirst]
    rw [show encodedBlockSizes.getD 8 0 = 11 from rfl] at hblock
    simp only [hblock, hrest, bind, Except.bind, pure, Except.pure, take_append_drop]

theorem decode_encode (data : Bytes) : decode (encode data) = .ok data := by
  have hdata : data.length = 8 * (data.length / 8) + data.length % 8 := by omega
  have hlen := encodeFrom_length hdata
  obtain ⟨hlt,hpos,hposition⟩ := encodedBlockSizes_lt (data.length % 8) (Nat.mod_lt _ (by decide))
  unfold decode encode
  by_cases hnil : encodeFrom (data.length / 8) data = []
  · rw [if_pos hnil]
    rw [hnil, length_nil] at hlen
    have : data = [] := length_eq_zero_iff.1 (by omega)
    rw [this]
    rfl
  · have hdiv : (encodeFrom (data.length / 8) data).length / 11 = data.length / 8 := by omega
    have hmod : (encodeFrom (data.length / 8) data).length % 11 =
        encodedBlockSizes.getD (data.length % 8) 0 := by omega
    have hlast : lastDecoded (encodeFrom (data.length / 8) data).length = .ok (data.length % 8) := by
      unfold lastDecoded
      rw [hmod, hposition]
      split
      · have : data.length % 8 = 0 := by omega
        rw [this]
        rfl
      · rfl
    rw [if_neg hnil, hdiv, hlast]
    exact decodeFrom_encodeFrom 0 data hdata

theorem encodeFrom_of_decodeFrom {full last offset : Nat} (hlast : last < 8)
    (hlen : s.length = 11 * full + encodedBlockSizes.getD last 0)
    (h : decodeFrom last full offset s = .ok data) :
    data.length = 8 * full + last ∧ encodeFrom full data = s := by
  induction full generalizing offset s data with
  | zero =>
    unfold decodeFrom at h
    obtain ⟨_,hpos,hposition⟩ := encodedBlockSizes_lt last hlast
    split at h
    · rename_i hnil
      cases h
      rw [hnil] at hlen ⊢
      have hzero : last = 0 := by
        simp only [length_nil] at hlen
        omega
      exact ⟨by rw [hzero]; rfl,rfl⟩
    · rename_i hnil
      have hslen := length_pos_iff.2 hnil
      obtain ⟨hcount,heq⟩ := encodeBlock_of_decodeBlock (by omega) (by omega) h
      refine ⟨by omega,?_⟩
      have hdata : data ≠ [] := by
        rintro rfl
        simp only [length_nil] at hcount
        rw [← hcount] at hlen
        simp [encodedBlockSizes] at hlen
        exact hnil hlen
      rw [encodeFrom, if_neg hdata, hcount, heq]
  | succ full ih =>
    simp only [decodeFrom, bind_ok_iff, pure_ok_iff] at h
    obtain ⟨block,hblock,rest,hrest,rfl⟩ := h
    have htake : (s.take 11).length = encodedBlockSizes.getD 8 0 := by
      rw [length_take]
      simp only [encodedBlockSizes, getD_cons_succ, getD_cons_zero]
      omega
    obtain ⟨hcount,heq⟩ := encodeBlock_of_decodeBlock (by omega) htake hblock
    have hdrop : (s.drop 11).length = 11 * full + encodedBlockSizes.getD last 0 := by
      rw [length_drop]
      omega
    obtain ⟨hrestlen,hresteq⟩ := ih hdrop hrest
    refine ⟨by rw [length_append]; omega,?_⟩
    rw [encodeFrom, take_left' hcount, drop_left' hcount, hresteq]
    rw [show encodedBlockSizes.getD 8 0 = 11 from rfl] at heq
    rw [heq, take_append_drop]

theorem encode_of_decode (h : decode s = .ok data) : encode data = s := by
  unfold decode at h
  split at h
  · rename_i hnil
    cases h
    rw [hnil]
    rfl
  · simp only [bind_ok_iff] at h
    obtain ⟨last,hlast,hrest⟩ := h
    have hsize : last < 8 ∧ encodedBlockSizes.getD last 0 = s.length % 11 := by
      unfold lastDecoded at hlast
      split at hlast
      · rename_i hzero
        cases hlast
        exact ⟨by decide,hzero.symm⟩
      · obtain ⟨hlt,hget⟩ := position_some (d := 0) (orRefuse_ok_iff.1 hlast)
        refine ⟨?_,hget⟩
        -- eleven characters are a whole block
        have hlt' : last < 9 := hlt
        have hne : last ≠ 8 := by
          rintro rfl
          have : (11 : Nat) = s.length % 11 := hget
          omega
        omega
    obtain ⟨hlen,heq⟩ := encodeFrom_of_decodeFrom hsize.1 (by omega) hrest
    rw [encode, show data.length / 8 = s.length / 11 by omega, heq]

def cryptonotePublicAddressBase58Prefix : Nat := 999730

def encodeAddr (cx : Crypto) (tag : Nat) (data : Bytes) : Bytes :=
  let buf := Varint.encode tag ++ data
  encode (buf ++ (cx.cnFastHash buf).bytes.take 4)

def decodeAddr (cx : Crypto) (addr : Bytes) : Except Base58Error (Nat × Bytes) := do
  let data ← decode addr
  refuseIf (data.length ≤ 4) .tooShort
  let payload := data.take (data.length - 4)
  refuseIf ((cx.cnFastHash payload).bytes.take 4 ≠ data.drop (data.length - 4)) .badChecksum
  (Varint.read payload).mapError fun _ => .badTag

structure Address where
  spendPublicKey : Hash
  viewPublicKey : Hash
  paymentId : Option Bytes
  deriving DecidableEq, Repr

def isAsciiHexdigit (c : UInt8) : Bool :=
  (0x30 ≤ c ∧ c ≤ 0x39) ∨ (0x41 ≤ c ∧ c ≤ 0x46) ∨ (0x61 ≤ c ∧ c ≤ 0x66)

def standardAddress (cx : Crypto) (spend view : Hash) : Bytes :=
  encodeAddr cx cryptonotePublicAddressBase58Prefix (spend.bytes ++ view.bytes)

def integratedAddress (cx : Crypto) (spend view : Hash) (paymentIdHex : Bytes) :
    Except Base58Error Bytes := do
  refuseIf (¬ (paymentIdHex.length = 16 ∨ paymentIdHex.length = 64) ∨
    ¬ paymentIdHex.all isAsciiHexdigit = true) .badPaymentId
  pure (encodeAddr cx cryptonotePublicAddressBase58Prefix
    (paymentIdHex ++ (spend.bytes ++ view.bytes)))

/-- How long the payment id of an address of this length is. -/
def paymentIdLength (length : Nat) : Except Base58Error Nat :=
  if length = 98 then pure 0
  else if length = 120 then pure 16
  else if length = 186 then pure 64
  else .error (.wrongAddressLength length)

/-- Bytes that are hex digits are also valid UTF-8, which the source asks first. -/
def readPaymentId (pidLen : Nat) (data : Bytes) : Except Base58Error (Option Bytes) :=
  if pidLen = 0 then pure none
  else if (data.take pidLen).all isAsciiHexdigit then pure (some (data.take pidLen))
  else .error .badPaymentId

/-- The keys are there, once the length of the payload has been checked. -/
def parseAddress (cx : Crypto) (addr : Bytes) : Except Base58Error Address := do
  let (tag,data) ← decodeAddr cx addr
  refuseIf (tag ≠ cryptonotePublicAddressBase58Prefix) (.wrongPrefix tag)
  let pidLen ← paymentIdLength addr.length
  refuseIf (data.length ≠ pidLen + 64) (.wrongPayloadLength data.length)
  let paymentId ← readPaymentId pidLen data
  let spend ← orRefuse (ByteVec.ofBytes? 32 (data.drop pidLen)) (.wrongPayloadLength data.length)
  let view ← orRefuse (ByteVec.ofBytes? 32 (data.drop (pidLen + 32)))
    (.wrongPayloadLength data.length)
  refuseIf (¬ cx.checkKey spend = true ∨ ¬ cx.checkKey view = true) .badPublicKey
  pure ⟨spend,view,paymentId⟩

/-- The address `standard_address` or `integrated_address` builds. -/
def Address.build (cx : Crypto) (a : Address) : Except Base58Error Bytes :=
  match a.paymentId with
  | none => pure (standardAddress cx a.spendPublicKey a.viewPublicKey)
  | some pid => integratedAddress cx a.spendPublicKey a.viewPublicKey pid

section

variable {cx : Crypto} {tag : Nat} {data addr : Bytes}

theorem decodeAddr_encodeAddr (htag : tag < 2^64) (data : Bytes) :
    decodeAddr cx (encodeAddr cx tag data) = .ok (tag,data) := by
  have hsum : ((cx.cnFastHash (Varint.encode tag ++ data)).bytes.take 4).length = 4 := by
    rw [length_take, ByteVec.length_eq]
    rfl
  have hpos := Writer.varint_length_pos tag
  unfold decodeAddr encodeAddr
  dsimp only
  rw [decode_encode]
  generalize hbuf : Varint.encode tag ++ data = buf at hsum ⊢
  have hlen : 0 < buf.length := by
    rw [← hbuf, length_append]
    exact Nat.add_pos_left hpos _
  have hcut : (buf ++ (cx.cnFastHash buf).bytes.take 4).length - 4 = buf.length := by
    rw [length_append, hsum]
    omega
  have hread : Varint.read buf = .ok (tag,data) := hbuf ▸ Reader.varint_write htag data
  simp only [bind, Except.bind, refuseIf, hcut, take_left, drop_left, ne_eq,
    not_true_eq_false, if_false, hread, Except.mapError]
  rw [if_neg (by rw [length_append, hsum]; omega)]

theorem encodeAddr_of_decodeAddr (h : decodeAddr cx addr = .ok (tag,data)) :
    encodeAddr cx tag data = addr := by
  simp only [decodeAddr, bind_ok_iff, refuseIf_ok_iff, not_not, mapError_ok_iff] at h
  obtain ⟨bytes,hbytes,_,hlong,_,hsum,hread⟩ := h
  obtain ⟨w,hw,rfl,_⟩ := Reader.takes_varint _ _ _ hread
  have hbuf : Varint.encode tag ++ data = bytes.take (bytes.length - 4) := hw.symm
  unfold encodeAddr
  dsimp only
  rw [hbuf, hsum, take_append_drop]
  exact encode_of_decode hbytes

theorem encodeAddr_length (hdata : data.length = 64 ∨ data.length = 80 ∨ data.length = 128) :
    (encodeAddr cx cryptonotePublicAddressBase58Prefix data).length =
      if data.length = 64 then 98 else if data.length = 80 then 120 else 186 := by
  have htag : (Varint.encode cryptonotePublicAddressBase58Prefix).length = 3 := by decide
  unfold encodeAddr encode
  dsimp only
  rw [encodeFrom_length (by omega)]
  simp only [length_append, htag, length_take, ByteVec.length_eq]
  rcases hdata with h | h | h <;> rw [h] <;> decide

theorem ofBytes?_append (key : Hash) (rest : Bytes) :
    ByteVec.ofBytes? 32 (key.bytes ++ rest) = some key := by
  have htake : (key.bytes ++ rest).take 32 = key.bytes := take_left' key.length_eq
  unfold ByteVec.ofBytes?
  rw [dif_pos (by rw [htake]; exact key.length_eq)]
  exact congrArg some (ByteVec.ext htake)

theorem parseAddress_encodeAddr {spend view : Hash} (hspend : cx.checkKey spend = true)
    (hview : cx.checkKey view = true) (pid : Bytes) {paymentId : Option Bytes}
    (hpid : pid.length = 0 ∨ pid.length = 16 ∨ pid.length = 64)
    (hread : readPaymentId pid.length (pid ++ (spend.bytes ++ view.bytes)) = .ok paymentId) :
    parseAddress cx (encodeAddr cx cryptonotePublicAddressBase58Prefix
      (pid ++ (spend.bytes ++ view.bytes))) = .ok ⟨spend,view,paymentId⟩ := by
  have hlen : (pid ++ (spend.bytes ++ view.bytes)).length = pid.length + 64 := by
    simp only [length_append, ByteVec.length_eq]
  have hform : paymentIdLength (encodeAddr cx cryptonotePublicAddressBase58Prefix
      (pid ++ (spend.bytes ++ view.bytes))).length = .ok pid.length := by
    rw [encodeAddr_length (by omega), hlen]
    rcases hpid with h | h | h <;> rw [h] <;> rfl
  have hkeys : (pid ++ (spend.bytes ++ view.bytes)).drop (pid.length + 32) = view.bytes ++ [] := by
    rw [← drop_drop, drop_left, drop_left' spend.length_eq, append_nil]
  unfold parseAddress
  rw [decodeAddr_encodeAddr (by decide)]
  simp only [bind, Except.bind, refuseIf, hform, hlen, hread, drop_left, hkeys,
    ofBytes?_append, orRefuse, hspend, hview, ne_eq, not_true_eq_false, or_self, if_false, pure,
    Except.pure]

theorem ofBytes?_some {b : Bytes} {key : Hash} (h : ByteVec.ofBytes? 32 b = some key) :
    key.bytes = b.take 32 := by
  unfold ByteVec.ofBytes? at h
  split at h
  · cases h
    rfl
  · cases h

theorem build_of_parseAddress {a : Address} (h : parseAddress cx addr = .ok a) :
    a.build cx = .ok addr := by
  simp only [parseAddress, bind_ok_iff, refuseIf_ok_iff, orRefuse_ok_iff, pure_ok_iff,
    Prod.exists, not_not] at h
  obtain ⟨tag,data,hdecode,_,rfl,pidLen,hform,_,hlen,paymentId,hpid,spend,hspend,view,hview,_,_,rfl⟩ := h
  have haddr := encodeAddr_of_decodeAddr hdecode
  have hdata : data = data.take pidLen ++ (spend.bytes ++ view.bytes) := by
    rw [ofBytes?_some hspend, ofBytes?_some hview, ← drop_drop]
    have hend : ((data.drop pidLen).drop 32).take 32 = (data.drop pidLen).drop 32 :=
      take_of_length_le (by simp only [length_drop]; omega)
    rw [hend, take_append_drop, take_append_drop]
  have htake : (data.take pidLen).length = pidLen := by
    rw [length_take]
    omega
  unfold readPaymentId at hpid
  split at hpid
  · rename_i hzero
    cases hpid
    rw [hzero, take_zero, nil_append] at hdata
    rw [Address.build, standardAddress, ← hdata, haddr]
    rfl
  · rename_i hpos
    split at hpid
    · rename_i hhex
      cases hpid
      have hsize : pidLen = 16 ∨ pidLen = 64 := by
        unfold paymentIdLength at hform
        split at hform
        · cases hform
          exact absurd rfl hpos
        split at hform
        · cases hform
          exact .inl rfl
        split at hform
        · cases hform
          exact .inr rfl
        · cases hform
      change integratedAddress cx spend view (data.take pidLen) = .ok addr
      unfold integratedAddress
      rw [← hdata, haddr]
      simp only [htake, hhex, hsize, refuseIf, bind, Except.bind, not_true_eq_false, or_self,
        if_false]
      rfl
    · cases hpid

end

/-- An address has one spelling. -/
theorem address_one_spelling (cx : Crypto) :
    (∀ b, decode (encode b) = .ok b) ∧
    (∀ s b, decode s = .ok b → encode b = s) ∧
    (∀ spend view, cx.checkKey spend = true → cx.checkKey view = true →
      parseAddress cx (standardAddress cx spend view) = .ok ⟨spend,view,none⟩ ∧
      ∀ pid, pid.length = 16 ∨ pid.length = 64 → pid.all isAsciiHexdigit = true →
        ∃ addr, integratedAddress cx spend view pid = .ok addr ∧
          parseAddress cx addr = .ok ⟨spend,view,some pid⟩) ∧
    ∀ addr a, parseAddress cx addr = .ok a → a.build cx = .ok addr := by
  refine ⟨decode_encode,fun _ _ => encode_of_decode,?_,fun _ _ => build_of_parseAddress⟩
  intro spend view hspend hview
  refine ⟨parseAddress_encodeAddr hspend hview [] (.inl rfl) rfl,?_⟩
  intro pid hlen hhex
  refine ⟨_,?_,parseAddress_encodeAddr hspend hview pid (.inr hlen) ?_⟩
  · simp only [integratedAddress, refuseIf, hlen, hhex, not_true_eq_false, or_self, if_false, bind,
      Except.bind]
    rfl
  · unfold readPaymentId
    rw [if_neg (by omega), List.take_left, if_pos hhex]
    rfl

end Wrkz.Base58
