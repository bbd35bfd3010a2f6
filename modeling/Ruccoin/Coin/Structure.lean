import Ruccoin.Crypto
import Ruccoin.Foundation.Binary64

/-!
# Transactions and blocks

The records of `structure.h`, and the signature of a transaction from `utils.cc`. The type
`D` of the amounts stands for `double`: what the code does with amounts is written with the
operations of that type, so that each sum is rounded the way they round it. `Binary64` is the
format itself. Where amounts are said to be exact decimals, `D` is `Amount`.
-/

namespace Ruccoin.Coin

/-- How a call ends other than by returning: an assertion that fails, `stod` on a text that
is not a number, or an exception of the JSON library. -/
inductive Fault where
  | assertFailed
  | stodFailed
  | parseError
  | typeError
  | outOfRange (key : String)
deriving DecidableEq, Repr

/-- What is used of the type `double` besides its arithmetic and its comparisons. -/
class Double (D : Type) where
  /-- The amount that is printed for an amount, with six digits behind the point. -/
  printed : D → D
  ofInteger : Int → D
  toUInt64 : D → UInt64

/-- An exact decimal: a number of millionths. -/
abbrev Amount := Int

/-- Six digits are all the digits of an exact decimal. -/
instance : Double Amount where
  printed v := v
  ofInteger n := n * 1000000
  toUInt64 v := UInt64.ofInt (v.tdiv 1000000)

instance : Double Binary64 where
  printed := Binary64.printed
  ofInteger := Binary64.ofInt
  toUInt64 v := UInt64.ofInt v.truncate

/-- The conversions of the standard library between amounts and texts. -/
structure AmountText (D : Type := Amount) [Double D] where
  /-- `std::to_string`. -/
  toString : D → String
  /-- `std::stod`, `none` when it throws. -/
  stod : String → Option D
  /-- `operator<<` with the stream's default six significant digits. -/
  stream : D → String
  reread : ∀ v, stod (toString v) = some (Double.printed v)

theorem AmountText.lossless (t : AmountText) (v : Amount) : t.stod (t.toString v) = some v :=
  t.reread v

/-- `TX`. Its fields `from` and `to` are the addresses. -/
structure TX (D : Type := Amount) where
  timeStamp : UInt64
  fromAddr : String
  toAddr : String
  value : D
  signature : String
deriving DecidableEq, Repr

structure BlockHeader where
  height : UInt64
  target : UInt64
  prevHash : String
  hash : String
  merkleRoot : String
  nonce : String
deriving DecidableEq, Repr

structure Block (D : Type := Amount) where
  header : BlockHeader
  transxList : List (TX D)
deriving DecidableEq, Repr

namespace TX

variable {D : Type} [Double D] (c : Crypto) (t : AmountText D)

/-- `getHash`: the signature is not part of what is hashed. -/
def getHash (tx : TX D) : String :=
  c.sha256Hex (ToString.toString tx.timeStamp.toNat ++ tx.fromAddr ++ tx.toAddr ++
    t.stream tx.value)

/-- `ValidateSignature`, under the sender's address as the public key. -/
def validateSignature (tx : TX D) : Bool :=
  match c.hexToPublicKey tx.fromAddr with
  | none => false
  | some publicKey => c.verifyHex (tx.getHash c t) tx.signature publicKey

/-- `CalSignature`: the empty text when the key cannot be read or signing fails. -/
def calSignature (tx : TX D) (privHex : String) : String :=
  (c.signHex (tx.getHash c t) privHex).getD ""

variable {c t}

/-- A transaction signed with the key of its sender validates. -/
theorem validateSignature_calSignature {tx : TX D} {privHex : String}
    (pair : c.KeyPair privHex tx.fromAddr) :
    ({ tx with signature := tx.calSignature c t privHex } : TX D).validateSignature c t = true := by
  obtain ⟨pub, signature, readPub, signed, verified⟩ := pair.verifies (tx.getHash c t)
  have stored : tx.calSignature c t privHex = signature := by
    rw [calSignature, signed, Option.getD_some]
  unfold validateSignature
  rw [stored]
  simp only [readPub]
  exact verified

end TX

/-- Exact decimals; whole amounts below a million are streamed as the integer, and the
examples stream no others. -/
def sampleAmountText : AmountText where
  toString := Decimal.print
  stod := Decimal.read
  stream v := if v % 1000000 = 0 then ToString.toString (v / 1000000) else Decimal.print v
  reread := Decimal.read_print

/-- Doubles. -/
def doubleText : AmountText Binary64 where
  toString := Binary64.print
  stod := Binary64.read
  stream := Binary64.significant
  reread := Binary64.read_print

end Ruccoin.Coin
