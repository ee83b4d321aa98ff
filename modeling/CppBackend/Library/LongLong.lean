import Mathlib.Algebra.Order.Group.Unbundled.Int
import Mathlib.Algebra.Group.Nat.Defs
import Mathlib.Algebra.Group.Int.Defs

/-!
# Signed 64-bit arithmetic

The operators of `long long` on integers.  A result outside of the range, and a division that the
machine does not have, is a `Fault`.  Division truncates: the remainder has the sign of the dividend.

* `add_ok`, `mul_ok` — a result inside of the range is the result over the integers;
* `rem_ok` — on a dividend that is not negative, the remainder is the residue;
* `rem_tmod` — on any dividend, it is the truncating remainder, which goes with products and powers
  (`tmod_mul_tmod`, `pow_tmod`).
-/

set_option autoImplicit false

namespace Library.LongLong

inductive Fault where
  | overflow
  | division
  deriving DecidableEq, Repr

/-- A value of `long long`. -/
def InRange (x : Int) : Prop := -2 ^ 63 ≤ x ∧ x < 2 ^ 63

instance (x : Int) : Decidable (InRange x) := inferInstanceAs (Decidable (_ ∧ _))

def checked (x : Int) : Except Fault Int := if InRange x then .ok x else .error .overflow

/-- `x + y`. -/
def add (x y : Int) : Except Fault Int := checked (x + y)

/-- `x * y`. -/
def mul (x y : Int) : Except Fault Int := checked (x * y)

/-- `x % y`; the quotient has to be in the range as well. -/
def rem (x y : Int) : Except Fault Int :=
  if y = 0 ∨ x = -2 ^ 63 ∧ y = -1 then .error .division else .ok (x.tmod y)

/-- `y & 1`. -/
def isOdd (y : Int) : Bool := y % 2 == 1

/-- `y >> 1`, with the sign. -/
def half (y : Int) : Int := y / 2

variable {x y m : Int}

theorem checked_ok (h : InRange x) : checked x = .ok x := if_pos h

theorem add_ok (h : InRange (x + y)) : add x y = .ok (x + y) := checked_ok h

theorem mul_ok (h : InRange (x * y)) : mul x y = .ok (x * y) := checked_ok h

theorem rem_ok (hx : 0 ≤ x) (hm : 0 < m) : rem x m = .ok (x % m) := by
  unfold rem
  rw [if_neg (by omega), Int.tmod_eq_emod_of_nonneg hx]

theorem checked_overflow (h : ¬ InRange x) : checked x = .error .overflow := if_neg h

theorem rem_tmod (hm : 0 < m) (x : Int) : rem x m = .ok (x.tmod m) := by
  unfold rem
  rw [if_neg (by omega)]

theorem natAbs_tmod_lt (hm : 0 < m) (x : Int) : (x.tmod m).natAbs < m.natAbs := by
  rw [Int.natAbs_tmod]
  exact Nat.mod_lt _ (by omega)

theorem tmod_of_natAbs_lt (hm : 0 < m) (h : x.natAbs < m.natAbs) : x.tmod m = x := by
  by_cases h0 : 0 ≤ x
  · exact Int.tmod_eq_of_lt h0 (by omega)
  · have hneg : (-x).tmod m = -x := Int.tmod_eq_of_lt (by omega) (by omega)
    rw [Int.neg_tmod] at hneg
    omega

/-- Remainders may be taken before a product. -/
theorem tmod_mul_tmod (x y m : Int) : (x.tmod m * y.tmod m).tmod m = (x * y).tmod m :=
  (Int.mul_tmod x y m).symm

theorem pow_tmod (x m : Int) : ∀ k : Nat, (x.tmod m ^ k).tmod m = (x ^ k).tmod m
  | 0 => by rw [pow_zero, pow_zero]
  | k + 1 => by
    rw [pow_succ, pow_succ, Int.mul_tmod, pow_tmod x m k, Int.tmod_tmod, tmod_mul_tmod]

/-- `y` in binary is `y / 2` and the last bit. -/
theorem half_add_odd (y : Int) : y = 2 * half y + if isOdd y then 1 else 0 := by
  unfold half isOdd
  by_cases h : y % 2 = 1
  · simp [h]
    omega
  · simp [h]
    omega

theorem half_nonneg : 0 ≤ half y ↔ 0 ≤ y := by
  unfold half
  omega

end Library.LongLong
