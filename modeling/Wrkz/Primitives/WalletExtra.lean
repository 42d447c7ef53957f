import Wrkz.Primitives.Canonical
import Wrkz.Primitives.Extra

/-!
The `extra` a wallet writes: its key, the payment id and the data in one nonce, and the
nonce of its work. The wallet's parser finds each field where the one before it ends.
-/

set_option autoImplicit false

namespace Wrkz

open Library List

def paymentIdField : Option PaymentId → Bytes
  | some (.long id) => 0x00 :: id.bytes
  | some (.encryptedShort id) => 0x03 :: id.bytes
  | none => []

def arbitraryDataField : Option Bytes → Bytes
  | some d => 0x7f :: (Varint.encode d.length ++ d)
  | none => []

/-- `build_nonce`. -/
def buildNonce (paymentId : Option PaymentId) (arbitraryData : Option Bytes) : Bytes :=
  paymentIdField paymentId ++ arbitraryDataField arbitraryData

/-- The length is a varint here, where `build_extra` writes a single byte. -/
def nonceField (nonce : Bytes) : Bytes :=
  if nonce = [] then [] else 0x02 :: (Varint.encode nonce.length ++ nonce)

def powNonceField : Option (ByteVec 8) → Bytes
  | some p => 0x04 :: p.bytes
  | none => []

/-- `build_wallet_extra`. -/
def buildWalletExtra (txPublicKey : Hash) (nonce : Bytes) (powNonce : Option (ByteVec 8)) : Bytes :=
  0x01 :: (txPublicKey.bytes ++ (nonceField nonce ++ powNonceField powNonce))

theorem readOrZero_encode {v : Nat} (hv : v < 2 ^ 64) (rest : Bytes) :
    readOrZero (Varint.encode v ++ rest) = (v,(Varint.encode v).length) := by
  have hread : Varint.read (Varint.encode v ++ rest) = .ok (v,rest) := Reader.varint_write hv rest
  simp [readOrZero, hread]

theorem ByteVec.ofBytes?_append {n : Nat} (v : ByteVec n) (rest : Bytes) :
    ByteVec.ofBytes? n (v.bytes ++ rest) = some v := by
  have htake : (v.bytes ++ rest).take n = v.bytes := take_left' v.length_eq
  simp [ofBytes?, htake, v.length_eq]

section

variable {out : WalletParsedExtra} {fuel : Nat}

theorem parseNonceLoop_nil (advance : Nat) : parseNonceLoop fuel [] out advance = (out,advance) := by
  cases fuel <;> rfl

variable {data : Option Bytes} {powNonce : Option (ByteVec 8)} {paymentId : Option PaymentId}

theorem parseNonceLoop_arbitraryData (hsize : ∀ d ∈ data, d.length < 2 ^ 64)
    (hdata : out.arbitraryData = none) (hfuel : (arbitraryDataField data).length ≤ fuel)
    (advance : Nat) :
    parseNonceLoop fuel (arbitraryDataField data) out advance =
      ({ out with arbitraryData := data },advance + (arbitraryDataField data).length) := by
  cases data with
  | none =>
    simp only [arbitraryDataField, parseNonceLoop_nil, ← hdata]
    rfl
  | some d =>
    obtain ⟨fuel,rfl⟩ : ∃ k, fuel = k+1 := ⟨fuel-1,by simp [arbitraryDataField] at hfuel; omega⟩
    have hpos := Writer.varint_length_pos d.length
    unfold Writer.varint at hpos
    have hdrop : (Varint.encode d.length ++ d).drop ((Varint.encode d.length).length + d.length) =
        [] := by simp
    simp only [arbitraryDataField, parseNonceLoop, readOrZero_encode (hsize d rfl), hdata,
      length_append, drop_left, take_length, hdrop, parseNonceLoop_nil]
    rw [if_neg (by simp), if_neg (by simp), if_neg (by simp), if_pos ⟨trivial,by omega,trivial,by omega⟩]
    simp only [length_cons, length_append, Prod.mk.injEq, true_and]
    omega

theorem parseNonceLoop_buildNonce (hsize : ∀ d ∈ data, d.length < 2 ^ 64)
    (hid : out.paymentId = none) (hdata : out.arbitraryData = none) (advance : Nat) :
    parseNonceLoop (buildNonce paymentId data).length (buildNonce paymentId data) out advance =
      ({ out with paymentId := paymentId, arbitraryData := data },
        advance + (buildNonce paymentId data).length) := by
  match paymentId with
  | none =>
    simp only [buildNonce, paymentIdField, nil_append]
    rw [parseNonceLoop_arbitraryData hsize hdata (le_refl _) advance, ← hid]
  | some (.long id) =>
    have hlen := id.length_eq
    simp only [buildNonce, paymentIdField, cons_append, length_cons, length_append,
      parseNonceLoop, ByteVec.ofBytes?_append, drop_left' hlen, hlen, hid]
    rw [if_pos ⟨trivial,by omega,trivial⟩]
    refine (parseNonceLoop_arbitraryData hsize (by exact hdata) (by omega) _).trans ?_
    simp only [Option.map_some, Prod.mk.injEq, true_and]
    omega
  | some (.encryptedShort id) =>
    have hlen := id.length_eq
    simp only [buildNonce, paymentIdField, cons_append, length_cons, length_append,
      parseNonceLoop, ByteVec.ofBytes?_append, drop_left' hlen, hlen, hid]
    rw [if_neg (by simp), if_neg (by simp), if_pos ⟨trivial,by omega,trivial⟩]
    refine (parseNonceLoop_arbitraryData hsize (by exact hdata) (by omega) _).trans ?_
    simp only [Option.map_some, Prod.mk.injEq, true_and]
    omega

theorem parseExtraWalletLoop_powNonce (hpow : out.powNonce = none)
    (htag : out.mergeMiningTag = none) (hfuel : (powNonceField powNonce).length ≤ fuel)
    (seenNonce : Bool) :
    parseExtraWalletLoop fuel (powNonceField powNonce) seenNonce out =
      { out with powNonce := powNonce } := by
  have hnil (fuel : Nat) (seenNonce : Bool) (out : WalletParsedExtra) :
      parseExtraWalletLoop fuel [] seenNonce out = out := by cases fuel <;> rfl
  cases powNonce with
  | none =>
    rw [powNonceField, hnil, ← hpow]
  | some p =>
    obtain ⟨fuel,rfl⟩ : ∃ k, fuel = k+1 := ⟨fuel-1,by simp [powNonceField] at hfuel; omega⟩
    have hlen := p.length_eq
    have hread := ByteVec.ofBytes?_append p []
    rw [append_nil] at hread
    have hdrop : p.bytes.drop 8 = [] := drop_of_length_le (by omega)
    simp [powNonceField, parseExtraWalletLoop, htag, hpow, hlen, hread, hdrop, hnil]

theorem parseExtraWalletLoop_nonce (out : WalletParsedExtra) (hsize : ∀ d ∈ data, d.length < 2 ^ 63)
    (hout : out.paymentId = none ∧ out.arbitraryData = none ∧ out.mergeMiningTag = none ∧
      out.powNonce = none)
    (hfuel : (nonceField (buildNonce paymentId data) ++ powNonceField powNonce).length ≤ fuel) :
    parseExtraWalletLoop fuel (nonceField (buildNonce paymentId data) ++ powNonceField powNonce)
        false out =
      { out with paymentId := paymentId, arbitraryData := data, powNonce := powNonce } := by
  obtain ⟨hid,hdata,htag,hpow⟩ := hout
  have hsize' : ∀ d ∈ data, d.length < 2 ^ 64 := fun d hd => lt_trans (hsize d hd) (by norm_num)
  by_cases hempty : buildNonce paymentId data = []
  · -- nothing to write: neither a payment id nor data
    obtain ⟨hidNil,hdataNil⟩ := append_eq_nil_iff.1 hempty
    obtain rfl : paymentId = none := by
      rcases paymentId with - | (id | id) <;> simp [paymentIdField] at hidNil ⊢
    obtain rfl : data = none := by cases data <;> simp [arbitraryDataField] at hdataNil ⊢
    rw [nonceField, if_pos hempty, nil_append] at hfuel ⊢
    rw [parseExtraWalletLoop_powNonce hpow htag hfuel, ← hid, ← hdata]
  · have hlt : (buildNonce paymentId data).length < 2 ^ 64 := by
      have hshort : (paymentIdField paymentId).length ≤ 33 := by
        rcases paymentId with - | (id | id) <;> simp [paymentIdField, ByteVec.length_eq]
      have hlong : (arbitraryDataField data).length ≤ 2 ^ 63 + 12 := by
        cases data with
        | none => simp [arbitraryDataField]
        | some d =>
          have hd := hsize d rfl
          have hvarint := Varint.writeLoop_length_le 10 d.length
          simp only [arbitraryDataField, length_cons, length_append, Varint.encode]
          omega
      simp only [buildNonce, length_append]
      omega
    obtain ⟨fuel,rfl⟩ : ∃ k, fuel = k+1 := ⟨fuel-1,by simp [nonceField, hempty] at hfuel; omega⟩
    have hne := length_pos_iff.2 hempty
    simp only [nonceField, if_neg hempty, cons_append, length_cons, length_append]
      at hfuel
    simp only [nonceField, if_neg hempty, cons_append, append_assoc,
      parseExtraWalletLoop, readOrZero_encode hlt, length_append, drop_left,
      take_left, parseNonceLoop_buildNonce hsize' hid hdata, htag]
    rw [if_neg (by simp), if_neg (by simp), if_pos ⟨trivial,by omega,trivial⟩, if_pos (by omega)]
    dsimp only
    rw [← length_append, ← append_assoc, drop_left]
    refine parseExtraWalletLoop_powNonce ?_ ?_ ?_ _
    · exact hpow
    · rfl
    · omega

end

/-- What the wallet writes into an extra it reads out of it. A slice is shorter than
`2 ^ 63`. -/
theorem parseExtraWallet_buildWalletExtra (txPublicKey : Hash) (paymentId : Option PaymentId)
    (data : Option Bytes) (powNonce : Option (ByteVec 8)) (hdata : ∀ d ∈ data, d.length < 2 ^ 63) :
    parseExtraWallet (buildWalletExtra txPublicKey (buildNonce paymentId data) powNonce) =
      ⟨some txPublicKey,paymentId,data,none,powNonce⟩ := by
  have hlen := txPublicKey.length_eq
  unfold parseExtraWallet buildWalletExtra
  simp only [List.length_cons, List.length_append, hlen, parseExtraWalletLoop,
    ByteVec.ofBytes?_append, List.drop_left' hlen]
  rw [if_neg (by simp), if_pos ⟨trivial,by omega,trivial⟩]
  exact parseExtraWalletLoop_nonce _ hdata ⟨rfl,rfl,rfl,rfl⟩ (by rw [List.length_append]; omega)

theorem parseExtraWallet_buildWalletExtra_sample :
    parseExtraWallet (buildWalletExtra (ByteVec.zero 32)
        (buildNonce (some (.encryptedShort (ByteVec.zero 8))) (some [0x02,0x03,0x04])) none) =
      ⟨some (ByteVec.zero 32),some (.encryptedShort (ByteVec.zero 8)),some [0x02,0x03,0x04],none,
        none⟩ :=
  parseExtraWallet_buildWalletExtra _ _ _ _ (by simp)

end Wrkz
