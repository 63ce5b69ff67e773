import CapiNet.Spec

namespace CapiNet

/-- How a computation leaves a function: an exception, an operation the language gives no value, or
a stack that is used up. -/
inductive Escape
  | outOfRange | overflow | unspecified | stackOverflow
  deriving DecidableEq

/-- The white space of the C locale. -/
def isSpace (c : Char) : Bool := c == ' ' || (decide ('\t' ≤ c) && decide (c ≤ '\r'))

/-- A word character of a regular expression. -/
def isWord (c : Char) : Bool := c.isAlphanum || c == '_'

/-- `strtol`: white space, a sign, and as many digits as there are. -/
def strtol (cs : List Char) : Option Int :=
  let cs := cs.dropWhile isSpace
  let neg := cs.head? == some '-'
  let digits := (if neg || cs.head? == some '+' then cs.drop 1 else cs).takeWhile Char.isDigit
  if digits.isEmpty then none
  else some (if neg then -digitsValue digits else digitsValue digits)

/-- `std::stoi`, nothing where it throws. -/
def stoi (cs : List Char) : Option Int :=
  (strtol cs).filter fun n => decide (-2 ^ 31 ≤ n) && decide (n ≤ Json.int32Max)

/-- `std::stoll` on digits. -/
def stoll (digits : List Char) : Except Escape Int :=
  if digitsValue digits < 2 ^ 63 then .ok (digitsValue digits) else .error .outOfRange

/-- A 64-bit integer, computed. -/
def int64 (n : Int) : Except Escape Int :=
  if -2 ^ 63 ≤ n ∧ n < 2 ^ 63 then .ok n else .error .overflow

namespace Double

/-- Rounding to the nearest integer, ties to even. -/
def roundTiesEven (q : ℚ) : Int :=
  let r := q - ⌊q⌋
  if r + r < 1 ∨ (r + r = 1 ∧ ⌊q⌋ % 2 = 0) then ⌊q⌋ else ⌊q⌋ + 1

/-- The power of two just below a number. -/
def binade (q : ℚ) : Int :=
  let k : Int := (Nat.log2 q.num.natAbs : Int) - (Nat.log2 q.den : Int)
  if |q| < 2 ^ k then k - 1 else k

/-- The exponent of the doubles around a number. -/
def scale (q : ℚ) : Int := max (binade q - 52) (-1074)

theorem roundTiesEven_cases (q : ℚ) :
    roundTiesEven q = ⌊q⌋ ∨ (q ≠ ⌊q⌋ ∧ roundTiesEven q = ⌊q⌋ + 1) := by
  dsimp only [roundTiesEven]
  split
  · exact .inl rfl
  next h =>
    refine .inr ⟨fun he => h (.inl ?_), rfl⟩
    have hzero : q - ⌊q⌋ = 0 := sub_eq_zero.mpr he
    rw [hzero]
    norm_num

theorem abs_eq_natAbs_div (q : ℚ) : |q| = q.num.natAbs / q.den := by
  conv_lhs => rw [← Rat.num_div_den q]
  rw [abs_div, Nat.abs_cast, Nat.cast_natAbs, Int.cast_abs]

theorem abs_lt_binade (q : ℚ) : |q| < 2 ^ (binade q + 1) := by
  have hnum : (q.num.natAbs : ℚ) < 2 ^ ((Nat.log2 q.num.natAbs : Int) + 1) := by
    exact_mod_cast Nat.lt_log2_self
  have hden : (2 : ℚ) ^ (Nat.log2 q.den : Int) ≤ q.den := by
    exact_mod_cast Nat.log2_self_le q.den_nz
  have hpos : (0 : ℚ) < 2 ^ (Nat.log2 q.den : Int) := by positivity
  have hup : |q| < 2 ^ ((Nat.log2 q.num.natAbs : Int) - (Nat.log2 q.den : Int) + 1) := by
    rw [abs_eq_natAbs_div, sub_add_eq_add_sub, zpow_sub₀ (by norm_num)]
    exact div_lt_div₀ hnum hden (by positivity) hpos
  dsimp only [binade]
  split
  next h => rwa [sub_add_cancel]
  next => exact hup

theorem abs_roundTiesEven_le {q : ℚ} {b : Nat} (h : |q| < b) : (roundTiesEven q).natAbs ≤ b := by
  have hlow : -(b : Int) ≤ ⌊q⌋ := Int.le_floor.mpr (by push_cast; exact (abs_lt.mp h).1.le)
  have hup : ⌊q⌋ < (b : Int) := Int.floor_lt.mpr (by push_cast; exact (abs_lt.mp h).2)
  rcases roundTiesEven_cases q with he | ⟨-, he⟩
  · omega
  · omega

/-- The nearest double, overflow aside. -/
def nearest (q : ℚ) : Double where
  mantissa := roundTiesEven (q / 2 ^ scale q)
  exponent := scale q
  bounded := by
    refine abs_roundTiesEven_le ?_
    have hscale : (2 : ℚ) ^ (binade q + 1) ≤ 2 ^ (53 + scale q) :=
      zpow_le_zpow_right₀ (by norm_num) (by unfold scale; omega)
    have hpos : (0 : ℚ) < 2 ^ scale q := by positivity
    rw [abs_div, abs_of_pos hpos, div_lt_iff₀ hpos]
    calc |q| < 2 ^ (binade q + 1) := abs_lt_binade q
      _ ≤ 2 ^ (53 + scale q) := hscale
      _ = _ := by rw [zpow_add₀ (by norm_num)]; norm_num
  lowest := by unfold scale; omega

theorem nearest_nonneg {q : ℚ} (h : 0 ≤ q) : 0 ≤ (nearest q).val := by
  have hfloor : 0 ≤ ⌊q / 2 ^ scale q⌋ := Int.floor_nonneg.mpr (by positivity)
  have hmantissa : 0 ≤ (nearest q).mantissa := by
    show 0 ≤ roundTiesEven (q / 2 ^ scale q)
    rcases roundTiesEven_cases (q / 2 ^ scale q) with he | ⟨-, he⟩
    · omega
    · omega
  have hcast : (0 : ℚ) ≤ (nearest q).mantissa := by exact_mod_cast hmantissa
  unfold val
  positivity

end Double

/-- What a decimal number stands for. -/
def decimal (whole frac : List Char) : ℚ := digitsValue (whole ++ frac) / 10 ^ frac.length

theorem decimal_nonneg (whole frac : List Char) : 0 ≤ decimal whole frac := by
  unfold decimal
  positivity

/-- The numbers below, rounded to a full mantissa, stay below the smallest double that has one. -/
def tinyBound : ℚ := 2 ^ (-1022 : Int) - 2 ^ (-1076 : Int)

/-- `std::stod`: out of range above the doubles, and where a mantissa that is cut loses digits. A
number is tiny if it is so after rounding. -/
def stod (q : ℚ) : Except Escape Double :=
  if doubleOverflow ≤ q then .error .outOfRange
  else if 0 < q ∧ q < tinyBound ∧ (Double.nearest q).val ≠ q then .error .outOfRange
  else .ok (.nearest q)

/-- `std::llround` of seconds times `1000.0`. A value too large for the result has none. -/
def secondsToMs (seconds : Double) : Except Escape Int :=
  let ms := roundAway (Double.nearest (seconds.val * 1000)).val
  if ms < 2 ^ 63 then .ok ms else .error .unspecified

end CapiNet
