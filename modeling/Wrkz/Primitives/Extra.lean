import Wrkz.Primitives.Transaction

/-!
The `extra` field. Blocks take the merge-mining tag from `parseExtra`; the
payment-id index and the wallet use the more forgiving `parseExtraWallet`.
-/

set_option autoImplicit false

namespace Wrkz

structure MergeMiningTag where
  depth : Nat
  merkleRoot : Hash
  deriving DecidableEq, Repr

structure ParsedExtra where
  publicKey : Option Hash := none
  nonce : Option Bytes := none
  mergeMiningTag : Option MergeMiningTag := none
  padding : Option Nat := none
  wellFormed : Bool := true
  deriving DecidableEq, Repr

def ParsedExtra.fail (out : ParsedExtra) : ParsedExtra := { out with wellFormed := false }

def parseMergeMiningBody (body : Bytes) : Option MergeMiningTag :=
  match Varint.read body with
  | .error _ => none
  | .ok (depth,rest) => (ByteVec.ofBytes? 32 rest).map fun root => ⟨depth,root⟩

/-- `parse_extra`, on the bytes not yet read. Every field takes a byte at least. -/
def parseExtraLoop : Nat → Bytes → ParsedExtra → ParsedExtra
  | 0, _, out => out
  | _, [], out => out
  | fuel+1, tag :: rest, out =>
    if tag = 0x00 then
      if out.padding.isSome then out
      else if (rest.take 255).any (· ≠ 0) then out.fail
      else if 255 ≤ rest.length then out.fail
      else { out with padding := some (rest.length+1) }
    else if tag = 0x01 then
      if out.publicKey.isSome then out
      else match ByteVec.ofBytes? 32 rest with
        | none => out.fail
        | some key => parseExtraLoop fuel (rest.drop 32) { out with publicKey := some key }
    else if tag = 0x02 then
      if out.nonce.isSome then out
      else match rest with
        | [] => out.fail
        | n :: rest =>
          if rest.length < n.toNat then out.fail
          else parseExtraLoop fuel (rest.drop n.toNat)
            { out with nonce := some (rest.take n.toNat) }
    else if tag = 0x03 then
      -- a second tag is skipped without its body
      if out.mergeMiningTag.isSome then parseExtraLoop fuel rest out
      else match Varint.read rest with
        | .error _ => out.fail
        | .ok (len,rest) =>
          if rest.length < len then out.fail
          else match parseMergeMiningBody (rest.take len) with
            | none => out.fail
            | some mm => parseExtraLoop fuel (rest.drop len) { out with mergeMiningTag := some mm }
    else parseExtraLoop fuel rest out

def parseExtra (extra : Bytes) : ParsedExtra := parseExtraLoop extra.length extra {}

/-- `append_merge_mining_tag`: `03 ‖ varint(len) ‖ varint(depth) ‖ root`. -/
def appendMergeMiningTag (extra : Bytes) (tag : MergeMiningTag) : Bytes :=
  let body := Varint.encode tag.depth ++ tag.merkleRoot.bytes
  extra ++ [0x03] ++ Varint.encode body.length ++ body

inductive PaymentId where
  | long (id : Hash)
  | encryptedShort (id : ByteVec 8)
  deriving DecidableEq, Repr

structure WalletParsedExtra where
  publicKey : Option Hash := none
  paymentId : Option PaymentId := none
  arbitraryData : Option Bytes := none
  mergeMiningTag : Option MergeMiningTag := none
  powNonce : Option (ByteVec 8) := none
  deriving DecidableEq, Repr

/-- A varint and the bytes it took; an unreadable one counts as `(0, 0)`. -/
def readOrZero (data : Bytes) : Nat × Nat :=
  match Varint.read data with
  | .error _ => (0,0)
  | .ok (v,rest) => (v, data.length - rest.length)

/-- The sub-fields of a nonce. Returns how far the outer loop advances. -/
def parseNonceLoop : Nat → Bytes → WalletParsedExtra → Nat → WalletParsedExtra × Nat
  | 0, _, out, advance => (out,advance)
  | _, [], out, advance => (out,advance)
  | fuel+1, sb :: rest, out, advance =>
    let nrem := rest.length + 1
    if sb = 0x00 ∧ 32 < nrem ∧ out.paymentId = none then
      parseNonceLoop fuel (rest.drop 32)
        { out with paymentId := (ByteVec.ofBytes? 32 rest).map .long } (advance+1+32)
    else if (sb = 0x01 ∨ sb = 0x02) ∧ 8 < nrem then
      parseNonceLoop fuel (rest.drop 8) out (advance+1+8)
    else if sb = 0x03 ∧ 8 < nrem ∧ out.paymentId = none then
      parseNonceLoop fuel (rest.drop 8)
        { out with paymentId := (ByteVec.ofBytes? 8 rest).map .encryptedShort } (advance+1+8)
    else
      let (dataSize,readDataSize) := readOrZero rest
      if sb = 0x7f ∧ 1 < nrem ∧ out.arbitraryData = none ∧ dataSize ≤ nrem - 1 - readDataSize then
        parseNonceLoop fuel (rest.drop (readDataSize+dataSize))
          { out with arbitraryData := some ((rest.drop readDataSize).take dataSize) }
          (advance+1+readDataSize+dataSize)
      else parseNonceLoop fuel rest out advance

/-- `parse_extra_wallet`, on the bytes not yet read. -/
def parseExtraWalletLoop : Nat → Bytes → Bool → WalletParsedExtra → WalletParsedExtra
  | 0, _, _, out => out
  | _, [], _, out => out
  | fuel+1, c :: rest, seenNonce, out =>
    let remaining := rest.length + 1
    if out.publicKey.isSome ∧ out.paymentId.isSome ∧ out.mergeMiningTag.isSome ∧
        out.arbitraryData.isSome ∧ out.powNonce.isSome then out
    else if c = 0x01 ∧ 32 < remaining ∧ out.publicKey = none then
      parseExtraWalletLoop fuel (rest.drop 32) seenNonce
        { out with publicKey := ByteVec.ofBytes? 32 rest }
    else if c = 0x02 ∧ 1 < remaining ∧ seenNonce = false then
      let (nonceSize,readNonceSize) := readOrZero rest
      let (out,advance) :=
        if nonceSize < remaining - readNonceSize then
          parseNonceLoop nonceSize ((rest.drop readNonceSize).take nonceSize) out readNonceSize
        else (out,readNonceSize)
      parseExtraWalletLoop fuel (rest.drop advance) true out
    else
      let (dataSize,readDataSize) := readOrZero rest
      let (depth,readDepthSize) := readOrZero (rest.drop readDataSize)
      if c = 0x03 ∧ 1 < remaining ∧ out.mergeMiningTag = none ∧
          dataSize < remaining - readDataSize ∧ 33 ≤ dataSize ∧
          readDataSize + readDepthSize + 32 ≤ rest.length then
        -- the advance leaves the size field out
        parseExtraWalletLoop fuel (rest.drop (readDepthSize+32)) seenNonce
          { out with mergeMiningTag :=
              (ByteVec.ofBytes? 32 (rest.drop (readDataSize+readDepthSize))).map fun root =>
                ⟨depth,root⟩ }
      else if c = 0x04 ∧ 8 < remaining ∧ out.powNonce = none then
        parseExtraWalletLoop fuel (rest.drop 8) seenNonce
          { out with powNonce := ByteVec.ofBytes? 8 rest }
      else parseExtraWalletLoop fuel rest seenNonce out

def parseExtraWallet (extra : Bytes) : WalletParsedExtra :=
  parseExtraWalletLoop extra.length extra false {}

end Wrkz
