import Mathlib.Algebra.Order.Ring.Rat
import Mathlib.Algebra.Order.Field.Power
import Mathlib.Data.Nat.Log
import Mathlib.Tactic.NormNum

namespace CapiNet

/-- A finite double: 53 bits of mantissa, scaled. Overflow ends in an error wherever doubles are
read, so the exponent is left open above. -/
structure Double where
  mantissa : Int
  exponent : Int
  bounded : mantissa.natAbs ≤ 2 ^ 53
  lowest : -1074 ≤ exponent
  deriving DecidableEq

namespace Double

def val (d : Double) : ℚ := d.mantissa * 2 ^ d.exponent

/-- Rounding to the nearest multiple of `2 ^ e`, ties to even; the result counts the multiples. -/
def roundEven (m e : Nat) : Nat :=
  let q := m / 2 ^ e
  let r := 2 * (m % 2 ^ e)
  if r < 2 ^ e ∨ (r = 2 ^ e ∧ q % 2 = 0) then q else q + 1

theorem roundEven_le {m e b : Nat} (h : m < b * 2 ^ e) : roundEven m e ≤ b := by
  have hq : m / 2 ^ e < b := Nat.div_lt_of_lt_mul (by rwa [Nat.mul_comm] at h)
  dsimp only [roundEven]
  split
  · exact hq.le
  · exact hq

/-- The bits of an integer that a mantissa has no room for. -/
def excess (n : Int) : Nat := Nat.log2 n.natAbs - 52

theorem roundEven_excess (n : Int) : roundEven n.natAbs (excess n) ≤ 2 ^ 53 := by
  refine roundEven_le (lt_of_lt_of_le Nat.lt_log2_self ?_)
  rw [← Nat.pow_add]
  exact Nat.pow_le_pow_right (by omega) (by unfold excess; omega)

/-- The nearest double of an integer. -/
def ofInt (n : Int) : Double where
  mantissa := n.sign * (roundEven n.natAbs (excess n) : Nat)
  exponent := (excess n : Nat)
  bounded := by
    rw [Int.natAbs_mul, Int.natAbs_natCast]
    refine le_trans (Nat.mul_le_mul_right _ (?_ : n.sign.natAbs ≤ 1)) ?_
    · rcases lt_trichotomy n 0 with h | h | h
      · simp [Int.sign_eq_neg_one_of_neg h]
      · simp [h]
      · simp [Int.sign_eq_one_of_pos h]
    · rw [Nat.one_mul]
      exact roundEven_excess n
  lowest := by omega

/-- The double written `0.05`. -/
def fivePercent : Double := ⟨3602879701896397, -56, by norm_num, by norm_num⟩

end Double

/-- A JSON value. An integer is one of the 64-bit integers the parser keeps, signed or unsigned;
any other number is a double. An object has no key twice. -/
inductive Json
  | null
  | bool (b : Bool)
  | int (n : Int)
  | float (d : Double)
  | str (s : String)
  | arr (xs : List Json)
  | obj (fields : List (String × Json))

namespace Json

def isObject : Json → Bool
  | .obj _ => true
  | _ => false

/-- A member of an object. -/
def find (j : Json) (key : String) : Option Json :=
  match j with
  | .obj fields => fields.lookup key
  | _ => none

/-- A member that is present and not null. -/
def get (j : Json) (key : String) : Option Json :=
  match j.find key with
  | none | some .null => none
  | some v => some v

/-- Reading an integer as signed: an unsigned one past the range wraps around. -/
def toInt64 (n : Int) : Int := n.bmod (2 ^ 64)

/-- Narrowing to `int` keeps the low 32 bits. -/
def toInt32 (n : Int) : Int := n.bmod (2 ^ 32)

def int32Max : Int := 2 ^ 31 - 1

theorem toInt64_of_range {n : Int} (h : -2 ^ 63 ≤ n) (h' : n < 2 ^ 63) : toInt64 n = n := by
  unfold toInt64
  exact Int.bmod_eq_of_le (by norm_num; omega) (by norm_num; omega)

theorem toInt32_of_range {n : Int} (h : -2 ^ 31 ≤ n) (h' : n < 2 ^ 31) : toInt32 n = n := by
  unfold toInt32
  exact Int.bmod_eq_of_le (by norm_num; omega) (by norm_num; omega)

end Json

end CapiNet
