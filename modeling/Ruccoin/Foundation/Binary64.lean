import Ruccoin.Foundation.Decimal
import Mathlib.Algebra.Order.Ring.Nat
import Mathlib.Tactic.Ring

/-!
# Double precision

The finite numbers of the format binary64 are the multiples of `2 ^ -1074` whose binary
digits span at most 53 places, and a number is held as its sign and the multiple. Sums and
quotients are rounded to the nearest of them, a tie to the even one.

## Main result

`read_print`: what is printed with six digits behind the point is read back as the number
that was printed.
-/

namespace Binary64

/-! ### Rounding -/

/-- The quotient rounded to the nearest integer, a tie to the even one. -/
def nearest (num den : Nat) : Nat :=
  let whole := num / den
  let rest := 2 * (num % den)
  if den < rest ∨ den = rest ∧ whole % 2 = 1 then whole + 1 else whole

theorem nearest_cases (num den : Nat) :
    nearest num den = num / den ∨ nearest num den = num / den + 1 := by
  unfold nearest
  dsimp only
  split
  · exact Or.inr rfl
  · exact Or.inl rfl

theorem nearest_mul_self (k : Nat) {den : Nat} (pos : 0 < den) : nearest (k * den) den = k := by
  unfold nearest
  rw [Nat.mul_div_cancel k pos, Nat.mul_mod_left]
  simp only [Nat.mul_zero, Nat.not_lt_zero, false_or]
  rw [if_neg fun tie => pos.ne' tie.1]

/-- The places of a unit behind the binary point. -/
@[irreducible] def places : Nat := 1074

/-- The number 1 in units of `2 ^ -1074`. -/
@[irreducible] def one : Nat := 2 ^ places

/-- The smallest power of two that is too large. -/
@[irreducible] def limit : Nat := 2 ^ 2098

/-- The distance from a number to the next one that has 53 binary digits. -/
def ulp (units : Nat) : Nat := 2 ^ (units.log2 - 52)

/-- The number has 53 binary digits and is not too large. -/
structure Representable (units : Nat) : Prop where
  digits : ulp units ∣ units
  below : units < limit

instance (units : Nat) : Decidable (Representable units) :=
  decidable_of_iff (ulp units ∣ units ∧ units < limit)
    ⟨fun h => ⟨h.1, h.2⟩, fun h => ⟨h.1, h.2⟩⟩

/-- The quotient rounded to 53 binary digits. -/
def rounding (num den : Nat) : Nat :=
  nearest num (den * ulp (num / den)) * ulp (num / den)

theorem one_pos : 0 < one := by decide +kernel

theorem ulp_pos (units : Nat) : 0 < ulp units := Nat.two_pow_pos _

theorem ulp_mul_le {units : Nat} (normal : 2 ^ 52 ≤ units) : ulp units * 2 ^ 52 ≤ units := by
  have places : 52 ≤ units.log2 := (Nat.le_log2 (by omega)).mpr normal
  unfold ulp
  rw [← Nat.pow_add, Nat.sub_add_cancel places]
  exact Nat.log2_self_le (by omega)

/-- Rounding a number of 53 digits to that many does nothing. -/
theorem rounding_mul_self {units den : Nat} (digits : ulp units ∣ units) (pos : 0 < den) :
    rounding (units * den) den = units := by
  obtain ⟨k, split⟩ := digits
  have quotient : units * den / den = units := Nat.mul_div_cancel units pos
  have multiple : units * den = k * (den * ulp units) := by
    conv_lhs => rw [split]
    ring
  unfold rounding
  rw [quotient, multiple, nearest_mul_self k (Nat.mul_pos pos (ulp_pos units))]
  rw [Nat.mul_comm]
  exact split.symm

theorem rounding_zero (den : Nat) : rounding 0 den = 0 := by simp [rounding, nearest]

/-- A result of at most `2 ^ 53` steps of a power of two has 53 digits. -/
theorem ulp_dvd_of_le {k e : Nat} (few : k ≤ 2 ^ 53) : ulp (k * 2 ^ e) ∣ k * 2 ^ e := by
  rcases Nat.lt_or_eq_of_le few with less | rfl
  · rcases Nat.eq_zero_or_pos k with rfl | pos
    · rw [Nat.zero_mul]
      exact Nat.dvd_zero _
    · have bound : k * 2 ^ e < 2 ^ (53 + e) := by
        rw [Nat.pow_add]
        exact Nat.mul_lt_mul_of_pos_right less (Nat.two_pow_pos e)
      have places : (k * 2 ^ e).log2 < 53 + e :=
        (Nat.log2_lt (Nat.mul_pos pos (Nat.two_pow_pos e)).ne').mpr bound
      exact (Nat.pow_dvd_pow 2 (by omega)).trans (Nat.dvd_mul_left _ _)
  · -- rounding up has reached the next power of two
    have places : (2 ^ 53 * 2 ^ e).log2 = 53 + e := by rw [← Nat.pow_add, Nat.log2_two_pow]
    unfold ulp
    rw [places, ← Nat.pow_add]
    exact Nat.pow_dvd_pow 2 (by omega)

theorem ulp_dvd_rounding (num den : Nat) : ulp (rounding num den) ∣ rounding num den := by
  have steps : num / (den * ulp (num / den)) < 2 ^ 53 := by
    rw [← Nat.div_div_eq_div_mul, Nat.div_lt_iff_lt_mul (ulp_pos _)]
    unfold ulp
    rw [← Nat.pow_add]
    exact lt_of_lt_of_le Nat.lt_log2_self (Nat.pow_le_pow_right (by decide) (by omega))
  apply ulp_dvd_of_le
  rcases nearest_cases num (den * ulp (num / den)) with same | next <;> omega

/-- Rounding is off by less than the distance to the next number. -/
theorem rounding_bounds (num den : Nat) :
    rounding num den ≤ num / den + ulp (num / den) ∧
      num / den < rounding num den + ulp (num / den) := by
  have whole := Nat.div_add_mod (num / den) (ulp (num / den))
  have rest := Nat.mod_lt (num / den) (ulp_pos (num / den))
  rw [Nat.mul_comm, Nat.div_div_eq_div_mul] at whole
  unfold rounding
  rcases nearest_cases num (den * ulp (num / den)) with same | next
  · rw [same]
    omega
  · rw [next, Nat.succ_mul]
    omega

end Binary64

/-- A number of the format: finite, with its sign and its units of `2 ^ -1074`, infinite, or
not a number. -/
inductive Binary64 where
  | nan (negative : Bool)
  | infinite (negative : Bool)
  | finite (negative : Bool) (units : Nat) (representable : Binary64.Representable units)
deriving DecidableEq

namespace Binary64

/-- The number nearest to `num / den` units, infinite when that is too large. -/
def ofRatio (negative : Bool) (num den : Nat) : Binary64 :=
  if below : rounding num den < limit then
    .finite negative (rounding num den) ⟨ulp_dvd_rounding num den, below⟩
  else .infinite negative

def ofInt (n : Int) : Binary64 := ofRatio (n < 0) (n.natAbs * one) 1

/-- The number nearest to a number of millionths. -/
def ofMillionths (n : Int) : Binary64 := ofRatio (n < 0) (n.natAbs * one) 1000000

/-- The integer a number is cast to, which leaves out what is behind the point. -/
def truncate : Binary64 → Int
  | .finite negative units _ => if negative then -↑(units / one) else ↑(units / one)
  | _ => 0

/-! ### Arithmetic -/

/-- Where a number is on the line of the units. -/
def place : Binary64 → Option Int
  | .nan _ => none
  | .infinite negative => some (if negative then -↑limit else ↑limit)
  | .finite negative units _ => some (if negative then -↑units else ↑units)

/-- A comparison, which fails for what is no number. -/
def compare (less : Int → Int → Bool) (a b : Binary64) : Bool :=
  match a.place, b.place with
  | some x, some y => less x y
  | _, _ => false

instance : LT Binary64 := ⟨fun a b => compare (· < ·) a b = true⟩

instance : LE Binary64 := ⟨fun a b => compare (· ≤ ·) a b = true⟩

instance : DecidableLT Binary64 := fun a b =>
  inferInstanceAs (Decidable (compare (· < ·) a b = true))

instance : DecidableLE Binary64 := fun a b =>
  inferInstanceAs (Decidable (compare (· ≤ ·) a b = true))

def neg : Binary64 → Binary64
  | .nan negative => .nan !negative
  | .infinite negative => .infinite !negative
  | .finite negative units representable => .finite (!negative) units representable

/-- A sum of units, rounded. A zero is negative only when both terms are. -/
def sum (x y : Int) (negative : Bool) : Binary64 :=
  if x + y = 0 then ofRatio negative 0 1 else ofRatio (x + y < 0) (x + y).natAbs 1

def add : Binary64 → Binary64 → Binary64
  | .nan negative, _ => .nan negative
  | _, .nan negative => .nan negative
  | .infinite a, .infinite b => if a = b then .infinite a else .nan true
  | .infinite a, _ => .infinite a
  | _, .infinite b => .infinite b
  | .finite a m _, .finite b n _ =>
    sum (if a then -↑m else ↑m) (if b then -↑n else ↑n) (a && b)

/-- What is no number passes through with its sign. -/
def sub : Binary64 → Binary64 → Binary64
  | .nan negative, _ => .nan negative
  | _, .nan negative => .nan negative
  | a, b => a.add b.neg

instance : Add Binary64 := ⟨add⟩

instance : Sub Binary64 := ⟨sub⟩

/-! ### Texts -/

/-- The number of millionths that is printed. -/
def millionths (units : Nat) : Nat := nearest (units * 1000000) one

/-- `%f`. -/
def print : Binary64 → String
  | .nan negative => String.ofList (Decimal.signed negative ['n', 'a', 'n'])
  | .infinite negative => String.ofList (Decimal.signed negative ['i', 'n', 'f'])
  | .finite negative units _ =>
    String.ofList (Decimal.signed negative (Decimal.printUnsigned (millionths units)))

/-- The number whose decimals are printed. -/
def printed : Binary64 → Binary64
  | .finite negative units _ => ofRatio negative (millionths units * one) 1000000
  | v => v

/-- The quotient lies in the range of the format: it is not too large, and not below
`2 ^ -1022` unless that is exact. -/
def InRange (num den : Nat) : Prop :=
  rounding num den < limit ∧ (rounding num den * den = num ∨ 2 ^ 52 ≤ rounding num den)

instance (num den : Nat) : Decidable (InRange num den) := inferInstanceAs (Decidable (_ ∧ _))

/-- The exponent at the head of a text, 0 where there is none. -/
def readExponent : List Char → Int
  | [] => 0
  | c :: cs =>
    let (negative, cs) : Bool × List Char := match cs with
      | '-' :: cs => (true, cs)
      | '+' :: cs => (false, cs)
      | cs => (false, cs)
    let size := Nat.ofDigitChars 10 (cs.takeWhile Char.isDigit) 0
    if c.toLower = 'e' then if negative then -↑size else ↑size else 0

/-- The number with these digits before and behind its point, times a power of ten. -/
def readDigits (negative : Bool) (whole fraction : List Char) (exponent : Int) :
    Option Binary64 :=
  let digits := Nat.ofDigitChars 10 whole 0 * 10 ^ fraction.length +
    Nat.ofDigitChars 10 fraction 0
  let num := digits * one * 10 ^ exponent.toNat
  let den := 10 ^ (fraction.length + (-exponent).toNat)
  if whole = [] ∧ fraction = [] then none
  else if InRange num den then some (ofRatio negative num den)
  else none

/-- A number that is not hexadecimal; what follows it is ignored. -/
def readUnsigned (negative : Bool) (cs : List Char) : Option Binary64 :=
  let word := (cs.take 3).map Char.toLower
  if word = ['n', 'a', 'n'] then some (.nan negative)
  else if word = ['i', 'n', 'f'] then some (.infinite negative)
  else readDigits negative (Decimal.digits cs).1 (Decimal.digits cs).2
    (readExponent (Decimal.afterDigits cs))

/-- Blanks, a sign, and a number, `none` where that is out of range. -/
def read (text : String) : Option Binary64 :=
  let (negative, rest) := Decimal.splitSign text.toList
  readUnsigned negative rest

/-- The power of ten of the first digit of a number, found from its binary digits. -/
def decade (units : Nat) : Int :=
  -- the logarithm of 2 to the base 10 is 0.30103
  let low := ((units.log2 : Int) - places) * 30103 / 100000
  if one * 10 ^ (low + 1).toNat ≤ units * 10 ^ (-(low + 1)).toNat then low + 1 else low

/-- The six leading digits of a number, and the power of ten of the first of them. -/
def leading (units : Nat) : Nat × Int :=
  let exponent := decade units
  let six := nearest (units * 10 ^ (5 - exponent).toNat) (one * 10 ^ (exponent - 5).toNat)
  -- rounding up can add a digit
  if six = 1000000 then (100000, exponent + 1) else (six, exponent)

/-- `%g`. -/
def significant : Binary64 → String
  | .finite negative units _ =>
    if units = 0 then String.ofList (Decimal.signed negative ['0'])
    else
      let (six, exponent) := leading units
      String.ofList (Decimal.signed negative (Decimal.general six exponent))
  | v => v.print

example : ([1234567000000, 1234565000000, -1050000, 30, 999999500000, 1234565, 0].map
    fun n => (ofMillionths n).significant) =
    ["1.23457e+06", "1.23456e+06", "-1.05", "3e-05", "1e+06", "1.23456", "0"] := by
  decide +kernel

/-! ### What is printed is read back -/

/-- From `2 ^ 53` on there is nothing behind the point. -/
theorem one_dvd_of_large {units : Nat} (representable : Representable units)
    (large : one * 2 ^ 53 ≤ units) : one ∣ units := by
  have some_bit : 0 < one * 2 ^ 53 := Nat.mul_pos one_pos (Nat.two_pow_pos 53)
  have digits : places + 53 ≤ units.log2 := by
    rw [Nat.le_log2 (Nat.ne_of_gt (lt_of_lt_of_le some_bit large)), Nat.pow_add]
    unfold one at large
    exact large
  have shift : places ≤ units.log2 - 52 :=
    Nat.le_sub_of_add_le (le_trans (Nat.add_le_add_left (by decide) _) digits)
  unfold one
  exact (Nat.pow_dvd_pow 2 shift).trans representable.digits

theorem millionths_mul_one (units : Nat) :
    millionths units * one ≤ units * 1000000 + one ∧
      (one ∣ units → millionths units * one = units * 1000000) := by
  constructor
  · have quotient := Nat.div_mul_le_self (units * 1000000) one
    unfold millionths
    rcases nearest_cases (units * 1000000) one with same | next
    · rw [same]
      exact Nat.le_add_right_of_le quotient
    · rw [next, Nat.succ_mul]
      exact Nat.add_le_add_right quotient one
  · rintro ⟨k, rfl⟩
    have multiple : one * k * 1000000 = k * 1000000 * one := by ring
    unfold millionths
    rw [multiple, nearest_mul_self _ one_pos]

/-- A number of millionths that is neither too small nor too large is in range. -/
theorem inRange_of_bounds {num : Nat} (small : one ≤ num)
    (large : num ≤ one * 2 ^ 53 * 1000000 + one) : InRange num 1000000 := by
  have room : 8 * (one * 2 ^ 53) ≤ limit := by decide +kernel
  have fine : 1000000 * 2 ^ 54 ≤ one := by decide +kernel
  unfold InRange
  generalize one = unit, limit = bound at *
  have normal : 2 ^ 53 ≤ num / 1000000 := by omega
  have step : ulp (num / 1000000) * 2 ^ 52 ≤ num / 1000000 := ulp_mul_le (by omega)
  obtain ⟨above, below⟩ := rounding_bounds num 1000000
  exact ⟨by omega, Or.inr (by omega)⟩

theorem inRange_millionths {units : Nat} (representable : Representable units) :
    InRange (millionths units * one) 1000000 := by
  obtain ⟨taken, whole⟩ := millionths_mul_one units
  by_cases large : one * 2 ^ 53 ≤ units
  · have same := whole (one_dvd_of_large representable large)
    unfold InRange
    rw [same, rounding_mul_self representable.digits (by decide)]
    exact ⟨representable.below, Or.inl rfl⟩
  · rcases Nat.eq_zero_or_pos (millionths units) with none_left | some_left
    · unfold InRange
      rw [none_left, Nat.zero_mul, rounding_zero, Nat.zero_mul]
      exact ⟨lt_of_le_of_lt (Nat.zero_le _) representable.below, Or.inl rfl⟩
    · apply inRange_of_bounds (Nat.le_mul_of_pos_left one some_left)
      exact taken.trans (Nat.add_le_add_right (Nat.mul_le_mul_right _ (by omega)) _)

theorem readDigits_millionths (negative : Bool) {units : Nat}
    (representable : Representable units) :
    readDigits negative (Nat.toDigits 10 (millionths units / 1000000))
        (Decimal.sixDigits (millionths units % 1000000)) 0 =
      some (ofRatio negative (millionths units * one) 1000000) := by
  have six : (Decimal.sixDigits (millionths units % 1000000)).length = 6 := rfl
  have nonempty : ¬(Nat.toDigits 10 (millionths units / 1000000) = [] ∧
      Decimal.sixDigits (millionths units % 1000000) = []) := fun none_left =>
    List.cons_ne_nil _ _ none_left.2
  have million : 10 ^ 6 = 1000000 := rfl
  unfold readDigits
  simp only [if_neg nonempty, six, million, Decimal.ofDigitChars_printUnsigned, Int.neg_zero,
    Int.toNat_zero, Nat.pow_zero, Nat.mul_one, Nat.add_zero]
  exact if_pos (inRange_millionths representable)

theorem readUnsigned_printUnsigned (negative : Bool) {units : Nat}
    (representable : Representable units) :
    readUnsigned negative (Decimal.printUnsigned (millionths units)) =
      some (ofRatio negative (millionths units * one) 1000000) := by
  obtain ⟨d, rest, split, digit⟩ := Decimal.printUnsigned_head (millionths units)
  -- a word does not begin with a digit
  have word : ∀ a b c : Char, a.isDigit = false → a.toLower = a →
      ((Decimal.printUnsigned (millionths units)).take 3).map Char.toLower ≠ [a, b, c] := by
    intro a b c letter lower same
    rw [split, List.take_succ_cons, List.map_cons] at same
    have first := (List.cons.inj same).1
    have unchanged : d.toLower = d := by
      unfold Char.toLower
      rw [dif_neg]
      intro upper
      rw [Char.isDigit, Bool.and_eq_true, decide_eq_true_eq, decide_eq_true_eq] at digit
      exact absurd (UInt32.le_trans upper.1 digit.2) (by decide)
    rw [← first, unchanged, digit] at letter
    cases letter
  unfold readUnsigned
  rw [if_neg (word _ _ _ (by decide) (by decide)), if_neg (word _ _ _ (by decide) (by decide)),
    Decimal.digits_printUnsigned, Decimal.afterDigits_printUnsigned]
  exact readDigits_millionths negative representable

theorem read_print (v : Binary64) : read v.print = some v.printed := by
  cases v with
  | nan negative => cases negative <;> rfl
  | infinite negative => cases negative <;> rfl
  | finite negative units representable =>
    unfold read print
    simp only [String.toList_ofList, Decimal.splitSign_printUnsigned]
    exact readUnsigned_printUnsigned negative representable

end Binary64
