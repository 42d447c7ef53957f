import Wrkz.Primitives.Transaction
import Wrkz.Primitives.Constants
import Wrkz.Primitives.Difficulty

/-!
The outputs a wallet owns, the curve functions it calls and the errors of its daemon.
-/

set_option autoImplicit false

namespace Wrkz

open Library

abbrev PublicKey := Hash
abbrev SecretKey := Hash
abbrev KeyImage := Hash

/-- `SecretKey::NULL`, what a view wallet stores. -/
def SecretKey.null : SecretKey := ByteVec.zero 32

structure WalletCrypto extends Crypto where
  generateKeyDerivation : PublicKey → SecretKey → Option Hash
  /-- `underive_public_key(derivation, output index, output key)`. -/
  underivePublicKey : Hash → Nat → PublicKey → Option PublicKey
  derivePublicKey : Hash → Nat → PublicKey → Option PublicKey
  deriveSecretKey : Hash → Nat → SecretKey → SecretKey
  generateKeyImage : PublicKey → SecretKey → KeyImage

namespace Hex32

/-- `to_digit(16)`. -/
def toDigit (c : Char) : Option Nat :=
  if '0' ≤ c ∧ c ≤ '9' then some (c.toNat - '0'.toNat)
  else if 'a' ≤ c ∧ c ≤ 'f' then some (c.toNat - 'a'.toNat + 10)
  else if 'A' ≤ c ∧ c ≤ 'F' then some (c.toNat - 'A'.toNat + 10)
  else none

def parseDigits : List Char → Option Bytes
  | [] => some []
  | [_] => none
  | hi :: lo :: rest => do
    let h ← toDigit hi
    let l ← toDigit lo
    let bytes ← parseDigits rest
    pure (UInt8.ofNat (h*16 + l) :: bytes)

/-- `from_hex`: exactly 64 hex characters of either case. -/
def fromHex (s : String) : Option Hash :=
  match parseDigits s.toList with
  | none => none
  | some bytes => if h : bytes.length = 32 then some ⟨bytes,h⟩ else none

end Hex32

namespace Wallet

structure TransactionInput where
  amount : Nat
  blockHeight : Nat
  globalOutputIndex : Option Nat
  /-- The one-time key of the output. -/
  key : PublicKey
  /-- Zero in a view wallet. -/
  keyImage : KeyImage
  parentTransactionHash : Hash
  privateEphemeral : Option SecretKey
  /-- The height this input was spent at, or zero. -/
  spendHeight : Nat
  transactionIndex : Nat
  transactionPublicKey : PublicKey
  unlockTime : Nat
  deriving DecidableEq, Repr

end Wallet

inductive DaemonError where
  | rateLimited
  | badRequest (body : String)
  | notFound
  | http (code : Nat) (body : String)
  | transport (message : String)
  | json (message : String)
  | responseTooLarge
  | unsupportedScheme (url : String)
  | status (status : String)
  deriving DecidableEq, Repr

end Wrkz
