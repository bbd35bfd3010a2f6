import Mathlib.Algebra.Group.Nat.Defs
import Mathlib.Data.List.DropRight
import Mathlib.Data.List.TakeWhile

/-!
# Decimal texts of fixed precision

Whole numbers of millionths, printed with six digits after the point and read back.
-/

namespace Decimal

/-- The last six decimal digits of a number, leading zeros included. -/
def sixDigits (n : Nat) : List Char :=
  [100000, 10000, 1000, 100, 10, 1].map fun unit => (n / unit % 10).digitChar

/-- A number of millionths, six of the digits behind the point. -/
def printUnsigned (n : Nat) : List Char :=
  Nat.toDigits 10 (n / 1000000) ++ '.' :: sixDigits (n % 1000000)

/-- A sign before the digits of a number. -/
def signed (negative : Bool) (digits : List Char) : List Char :=
  if negative then '-' :: digits else digits

/-- A signed number of millionths, as `%f` prints it. -/
def print (v : Int) : String := String.ofList (signed (v < 0) (printUnsigned v.natAbs))

/-- The digits at the head of a text and, behind a point, those that follow. -/
def digits (cs : List Char) : List Char × List Char :=
  (cs.takeWhile Char.isDigit, match cs.dropWhile Char.isDigit with
    | '.' :: rest => rest.takeWhile Char.isDigit
    | _ => [])

/-- What follows these digits. -/
def afterDigits (cs : List Char) : List Char :=
  match cs.dropWhile Char.isDigit with
  | '.' :: rest => rest.dropWhile Char.isDigit
  | rest => rest

/-- A decimal without an exponent and with at most six digits after the point; what follows
it is ignored. -/
def readUnsigned (cs : List Char) : Option Nat :=
  let (whole, fraction) := digits cs
  if whole = [] ∧ fraction = [] ∨ 6 < fraction.length then none
  else some (Nat.ofDigitChars 10 whole 0 * 1000000 +
    Nat.ofDigitChars 10 (fraction ++ List.replicate (6 - fraction.length) '0') 0)

/-- Blanks and a sign before a number: whether it is negative, and what follows. -/
def splitSign (cs : List Char) : Bool × List Char :=
  match cs.dropWhile Char.isWhitespace with
  | '-' :: rest => (true, rest)
  | '+' :: rest => (false, rest)
  | rest => (false, rest)

/-- Blanks, a sign, and a decimal. -/
def read (text : String) : Option Int :=
  let (negative, rest) := splitSign text.toList
  (readUnsigned rest).map fun n => if negative then -Int.ofNat n else Int.ofNat n

theorem ofDigitChars_sixDigits {n : Nat} (below : n < 1000000) :
    Nat.ofDigitChars 10 (sixDigits n) 0 = n := by
  have digit : ∀ unit : Nat, n / unit % 10 < 10 := fun unit => Nat.mod_lt _ (by decide)
  simp only [sixDigits, List.map_cons, List.map_nil,
    Nat.ofDigitChars_cons_digitChar_of_lt_ten (digit _), Nat.ofDigitChars_nil]
  omega

theorem isDigit_of_mem_sixDigits {n : Nat} {ch : Char} (member : ch ∈ sixDigits n) :
    ch.isDigit = true := by
  obtain ⟨unit, -, rfl⟩ := List.mem_map.mp member
  rw [Nat.isDigit_digitChar]
  exact decide_eq_true (Nat.mod_lt _ (by decide))

/-- The digits of a printed number are found again. -/
theorem digits_append {whole fraction : List Char} (first : ∀ ch ∈ whole, ch.isDigit = true)
    (second : ∀ ch ∈ fraction, ch.isDigit = true) :
    digits (whole ++ '.' :: fraction) = (whole, fraction) := by
  have point : ('.' : Char).isDigit = false := by decide
  have all : fraction.takeWhile Char.isDigit = fraction :=
    List.takeWhile_eq_self_iff.mpr second
  unfold digits
  rw [List.takeWhile_append_of_pos first, List.dropWhile_append_of_pos first]
  simp [point, all]

theorem digits_printUnsigned (n : Nat) :
    digits (printUnsigned n) = (Nat.toDigits 10 (n / 1000000), sixDigits (n % 1000000)) :=
  digits_append
    (fun _ member => Nat.isDigit_of_mem_toDigits (b := 10) (by decide) (by decide) member)
    fun _ member => isDigit_of_mem_sixDigits member

/-- Nothing follows them in a printed number. -/
theorem afterDigits_printUnsigned (n : Nat) : afterDigits (printUnsigned n) = [] := by
  have whole : ∀ ch ∈ Nat.toDigits 10 (n / 1000000), ch.isDigit = true :=
    fun _ member => Nat.isDigit_of_mem_toDigits (b := 10) (by decide) (by decide) member
  have point : ('.' : Char).isDigit = false := by decide
  have rest : (sixDigits (n % 1000000)).dropWhile Char.isDigit = [] :=
    List.dropWhile_eq_nil_iff.mpr fun _ member => isDigit_of_mem_sixDigits member
  unfold afterDigits printUnsigned
  rw [List.dropWhile_append_of_pos whole]
  simp [point, rest]

/-- The digits before the point and the six behind it stand for the number. -/
theorem ofDigitChars_printUnsigned (n : Nat) :
    Nat.ofDigitChars 10 (Nat.toDigits 10 (n / 1000000)) 0 * 1000000 +
      Nat.ofDigitChars 10 (sixDigits (n % 1000000)) 0 = n := by
  rw [Nat.ofDigitChars_ten_toDigits, ofDigitChars_sixDigits (Nat.mod_lt n (by decide))]
  omega

theorem readUnsigned_print (n : Nat) : readUnsigned (printUnsigned n) = some n := by
  have six : (sixDigits (n % 1000000)).length = 6 := rfl
  have nonempty : sixDigits (n % 1000000) ≠ [] := List.cons_ne_nil _ _
  have value := ofDigitChars_printUnsigned n
  rw [Nat.ofDigitChars_ten_toDigits] at value
  unfold readUnsigned
  rw [digits_printUnsigned]
  simp [six, nonempty, value]

/-- A printed number starts with a digit, so neither a blank nor a sign is skipped. -/
theorem printUnsigned_head (n : Nat) :
    ∃ d rest, printUnsigned n = d :: rest ∧ d.isDigit = true := by
  obtain ⟨d, ds, split⟩ := List.exists_cons_of_ne_nil
    (Nat.toDigits_ne_nil (n := n / 1000000) (b := 10))
  have member : d ∈ Nat.toDigits 10 (n / 1000000) := by rw [split]; exact List.mem_cons_self
  refine ⟨d, ds ++ '.' :: sixDigits (n % 1000000), ?_, ?_⟩
  · rw [printUnsigned, split, List.cons_append]
  · exact Nat.isDigit_of_mem_toDigits (by decide) (by decide) member

/-- The sign is found again, and behind it the digits. -/
theorem splitSign_signed (negative : Bool) {d : Char} {rest : List Char}
    (head : d.isWhitespace = false ∧ d ≠ '-' ∧ d ≠ '+') :
    splitSign (signed negative (d :: rest)) = (negative, d :: rest) := by
  obtain ⟨blank, minus, plus⟩ := head
  unfold splitSign signed
  cases negative with
  | true => rfl
  | false =>
    simp only [Bool.false_eq_true, if_false, List.dropWhile_cons, blank]
    split
    next eq => exact absurd (List.cons.inj eq).1 minus
    next eq => exact absurd (List.cons.inj eq).1 plus
    next => rfl

theorem splitSign_printUnsigned (negative : Bool) (n : Nat) :
    splitSign (signed negative (printUnsigned n)) = (negative, printUnsigned n) := by
  obtain ⟨d, rest, split, digit⟩ := printUnsigned_head n
  rw [split]
  apply splitSign_signed
  -- a digit is neither a blank nor a sign
  have blank : d.isWhitespace = false := by
    by_contra isBlank
    simp only [Bool.not_eq_false, Char.isWhitespace, Bool.or_eq_true,
      decide_eq_true_eq] at isBlank
    rcases isBlank with ((rfl | rfl) | rfl) | rfl <;> exact absurd digit (by decide)
  refine ⟨blank, ?_, ?_⟩
  · rintro rfl
    exact absurd digit (by decide)
  · rintro rfl
    exact absurd digit (by decide)

/-- What is printed is read back. -/
theorem read_print (v : Int) : read (print v) = some v := by
  unfold read print
  rw [String.toList_ofList, splitSign_printUnsigned]
  simp only [readUnsigned_print, Option.map_some, decide_eq_true_eq, Int.ofNat_eq_natCast,
    Option.some.injEq]
  split <;> omega

/-! ### Six significant digits -/

/-- Digits behind a point, without the zeros at their end, or nothing when there are none. -/
def fraction (digits : List Char) : List Char :=
  match digits.rdropWhile (· = '0') with
  | [] => []
  | kept => '.' :: kept

/-- The six leading digits of a positive number, the first of them at a power of ten, as
`%g` prints them. -/
def general (six : Nat) (exponent : Int) : List Char :=
  let digits := Nat.toDigits 10 six
  if exponent < -4 ∨ 6 ≤ exponent then
    let two := Nat.toDigits 10 exponent.natAbs
    digits.take 1 ++ fraction (digits.drop 1) ++ ['e', if exponent < 0 then '-' else '+'] ++
      List.replicate (2 - two.length) '0' ++ two
  else if exponent < 0 then
    '0' :: fraction (List.replicate (exponent.natAbs - 1) '0' ++ digits)
  else
    let whole := exponent.toNat + 1
    digits.take whole ++ fraction (digits.drop whole)

end Decimal
