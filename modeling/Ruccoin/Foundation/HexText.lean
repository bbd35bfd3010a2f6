import Mathlib.Data.List.Basic
import Mathlib.Tactic.IntervalCases

/-!
# Bytes as hexadecimal text

Two lower-case digits a byte when written, as `%02x` prints them. Reading takes two
characters at a time and accepts both cases; what a pair that is not two digits reads as
is left to a parameter, since a scanner may leave its target unset there.
-/

namespace HexText

def hexDigit (d : Nat) : Char :=
  if d < 10 then Char.ofNat (48 + d) else Char.ofNat (87 + d)

def hexVal (c : Char) : Option Nat :=
  if '0' ≤ c ∧ c ≤ '9' then some (c.toNat - 48)
  else if 'a' ≤ c ∧ c ≤ 'f' then some (c.toNat - 87)
  else if 'A' ≤ c ∧ c ≤ 'F' then some (c.toNat - 55)
  else none

def encodeChars (bytes : List UInt8) : List Char :=
  bytes.flatMap fun b => [hexDigit (b.toNat / 16), hexDigit (b.toNat % 16)]

def encode (bytes : List UInt8) : String := String.ofList (encodeChars bytes)

/-- The byte at the front of a text, or what `unset` says when no byte stands there. -/
def scanByte (unset : List Char → UInt8) : List Char → UInt8
  | a :: b :: rest =>
    match hexVal a, hexVal b with
    | some x, some y => UInt8.ofNat (16 * x + y)
    | _, _ => unset (a :: b :: rest)
  | text => unset text

def decodeChars (unset : List Char → UInt8) : List Char → List UInt8
  | a :: b :: rest => scanByte unset (a :: b :: rest) :: decodeChars unset rest
  | _ => []

def decode (unset : List Char → UInt8) (text : String) : List UInt8 :=
  decodeChars unset text.toList

theorem hexVal_hexDigit {d : Nat} (small : d < 16) : hexVal (hexDigit d) = some d := by
  interval_cases d <;> decide

/-- The front byte of an encoding is the byte encoded, whatever stands behind it. -/
theorem scanByte_digits (unset : List Char → UInt8) (b : UInt8) (rest : List Char) :
    scanByte unset (hexDigit (b.toNat / 16) :: hexDigit (b.toNat % 16) :: rest) = b := by
  have bound := b.toNat_lt
  have high : hexVal (hexDigit (b.toNat / 16)) = some (b.toNat / 16) :=
    hexVal_hexDigit (by omega)
  have low : hexVal (hexDigit (b.toNat % 16)) = some (b.toNat % 16) :=
    hexVal_hexDigit (by omega)
  have joined : 16 * (b.toNat / 16) + b.toNat % 16 = b.toNat := by omega
  simp only [scanByte, high, low, joined, UInt8.ofNat_toNat]

theorem decodeChars_encodeChars (unset : List Char → UInt8) (bytes : List UInt8) :
    decodeChars unset (encodeChars bytes) = bytes := by
  induction bytes with
  | nil => rfl
  | cons b bytes ih =>
    change scanByte unset _ :: decodeChars unset (encodeChars bytes) = b :: bytes
    rw [ih]
    exact congrArg (· :: bytes) (scanByte_digits unset b _)

/-- Everything that is written is a digit. -/
theorem hexVal_of_mem_encodeChars {bytes : List UInt8} {c : Char} (member : c ∈ encodeChars bytes) :
    (hexVal c).isSome := by
  obtain ⟨b, -, digit⟩ := List.mem_flatMap.mp member
  have bound := b.toNat_lt
  rcases List.mem_pair.mp digit with rfl | rfl
  · rw [hexVal_hexDigit (by omega)]
    rfl
  · rw [hexVal_hexDigit (by omega)]
    rfl

/-- Reading back what was written gives the same bytes, for every length. -/
theorem decode_encode (unset : List Char → UInt8) (bytes : List UInt8) :
    decode unset (encode bytes) = bytes := by
  rw [decode, encode, String.toList_ofList, decodeChars_encodeChars]

end HexText
