import CppBackend.MyMath.Model
import Mathlib.Data.Int.ModEq
import Mathlib.Data.Nat.Size

/-!
# Residues

For a modulus `m` with `2 ≤ m ≤ 3037000500` and operands in `[0, m)`, every function of the library
returns the residue of the result over the integers (`add_residue`, `mul_residue`,
`quickPower_residue`), and so does every expression made of them (`eval_residue`).  The largest
intermediate result is `(m - 1)^2`; the bound on `m` is the largest one for which it is a
`long long` (`square_inRange`).
-/

set_option autoImplicit false

namespace CppBackend.MyMath

open Library Library.LongLong Library.Loop

/-- A modulus whose products of two residues are in the range. -/
structure Modulus (m : Int) : Prop where
  two_le : 2 ≤ m
  le : m ≤ 3037000500

variable {m x y : Int}

/-- `x` is a residue modulo `m`. -/
def Reduced (m x : Int) : Prop := 0 ≤ x ∧ x < m

theorem Modulus.pos (hm : Modulus m) : 0 < m := by
  have := hm.two_le
  omega

theorem Modulus.reduced_emod (hm : Modulus m) (x : Int) : Reduced m (x % m) :=
  ⟨Int.emod_nonneg x (by have := hm.pos; omega), Int.emod_lt_of_pos x hm.pos⟩

theorem Modulus.reduced_one (hm : Modulus m) : Reduced m 1 := by
  have := hm.two_le
  exact ⟨by omega, by omega⟩

/-- The product of two residues is in the range of `long long`. -/
theorem square_inRange (hm : Modulus m) (hx : Reduced m x) (hy : Reduced m y) :
    0 ≤ x * y ∧ InRange (x * y) := by
  obtain ⟨hx0, hxm⟩ := hx
  obtain ⟨hy0, hym⟩ := hy
  have hle := hm.le
  have h0 : 0 ≤ x * y := Int.mul_nonneg hx0 hy0
  have hmax : x * y ≤ 3037000499 * 3037000499 :=
    Int.mul_le_mul (by omega) (by omega) hy0 (by omega)
  exact ⟨h0, by omega, by omega⟩

/-! ## The functions of the library -/

theorem add_residue (hm : Modulus m) (hx : Reduced m x) (hy : Reduced m y) :
    add m x y = .ok ((x + y) % m) := by
  obtain ⟨hx0, hxm⟩ := hx
  obtain ⟨hy0, hym⟩ := hy
  have hle := hm.le
  have hpos := hm.pos
  have hrange : InRange (x + y) := ⟨by omega, by omega⟩
  have h0 : 0 ≤ x + y := by omega
  have hmod := (hm.reduced_emod (x + y)).1
  unfold add
  rw [add_ok hrange]
  by_cases h : x + y ≥ m
  · simp only [bind, Except.bind, if_pos h, rem_ok h0 hpos, if_neg (Int.not_lt.mpr hmod)]
    rfl
  · have hsmall : (x + y) % m = x + y := Int.emod_eq_of_lt h0 (by omega)
    simp only [bind, Except.bind, if_neg h, pure, Except.pure, if_neg (Int.not_lt.mpr h0), hsmall]

theorem mulRem_residue (hm : Modulus m) (hx : Reduced m x) (hy : Reduced m y) :
    mulRem m x y = .ok ((x * y) % m) := by
  obtain ⟨h0, hrange⟩ := square_inRange hm hx hy
  unfold mulRem
  rw [mul_ok hrange]
  simp only [bind, Except.bind]
  exact rem_ok h0 hm.pos

theorem mul_residue (hm : Modulus m) (hx : Reduced m x) (hy : Reduced m y) :
    mul m x y = .ok ((x * y) % m) := by
  have hmul := mulRem_residue hm hx hy
  unfold mulRem at hmul
  unfold mul
  rw [rem_ok hx.1 hm.pos, rem_ok hy.1 hm.pos, Int.emod_eq_of_lt hx.1 hx.2,
    Int.emod_eq_of_lt hy.1 hy.2]
  exact hmul

/-- The next modulus is too large. -/
example : mul 3037000501 3037000500 3037000500 = .error .overflow := by decide

/-! ## The loop of `QuickPower` -/

/-- What `QuickPower` still has to compute, `res * x^y`, has the residue of the power. -/
structure PowerInv (m z : Int) (p : Power) : Prop where
  res : Reduced m p.res
  x : Reduced m p.x
  y : 0 ≤ p.y
  power : p.res * p.x ^ p.y.toNat ≡ z [ZMOD m]

/-- The bits of `y` from the lowest: `x^y` is `(x^2)^(y/2)`, and one more `x` if `y` is odd. -/
theorem pow_half (hy : 0 ≤ y) (x : Int) :
    x ^ y.toNat = (if isOdd y then x else 1) * (x * x) ^ (half y).toNat := by
  have hsplit := half_add_odd y
  have hhalf : 0 ≤ half y := by
    unfold half
    omega
  cases hodd : isOdd y with
  | true =>
    have hnat : y.toNat = 1 + 2 * (half y).toNat := by
      simp only [hodd, if_true] at hsplit
      omega
    simp only [if_true]
    rw [hnat, pow_add, pow_mul, pow_one, pow_two]
  | false =>
    have hnat : y.toNat = 2 * (half y).toNat := by
      simp only [hodd, Bool.false_eq_true, if_false] at hsplit
      omega
    simp only [Bool.false_eq_true, if_false]
    rw [hnat, pow_mul, pow_two, one_mul]

/-- One pass keeps the invariant and does not fault. -/
theorem next_inv {z : Int} {p : Power} (hm : Modulus m) (hp : PowerInv m z p) :
    ∃ q, p.next m = .ok q ∧ PowerInv m z q ∧ q.y = half p.y := by
  have hsquare := mulRem_residue hm hp.x hp.x
  have hhalf : 0 ≤ half p.y := by
    have := hp.y
    unfold half
    omega
  have hpower := hp.power
  rw [pow_half hp.y] at hpower
  have hx : ∀ k, (p.x * p.x % m) ^ k ≡ (p.x * p.x) ^ k [ZMOD m] :=
    fun k => (Int.mod_modEq _ m).pow k
  unfold Power.next
  cases hodd : isOdd p.y with
  | true =>
    rw [hodd, if_pos rfl, ← mul_assoc] at hpower
    simp only [if_true, mulRem_residue hm hp.res hp.x, hsquare, bind, Except.bind, pure,
      Except.pure]
    refine ⟨_, rfl, ⟨hm.reduced_emod _, hm.reduced_emod _, hhalf, ?_⟩, rfl⟩
    exact ((Int.mod_modEq _ m).mul (hx _)).trans hpower
  | false =>
    rw [hodd, if_neg Bool.false_ne_true, one_mul] at hpower
    simp only [Bool.false_eq_true, if_false, hsquare, bind, Except.bind, pure, Except.pure]
    refine ⟨_, rfl, ⟨hp.res, hm.reduced_emod _, hhalf, ?_⟩, rfl⟩
    exact ((Int.ModEq.refl _).mul (hx _)).trans hpower

/-- `y >> 1` has one bit less. -/
theorem size_half (hy : 0 ≤ y) (hne : y ≠ 0) : (half y).toNat.size < y.toNat.size := by
  have hpos : 0 < y.toNat.size := Nat.size_pos.mpr (by omega)
  have hlt : y.toNat < 2 ^ y.toNat.size := Nat.lt_size_self _
  obtain ⟨k, hk⟩ := Nat.exists_eq_succ_of_ne_zero (Nat.ne_of_gt hpos)
  rw [hk, Nat.pow_succ] at hlt
  have hhalf : (half y).toNat < 2 ^ k := by
    unfold half
    omega
  have := Nat.size_le.mpr hhalf
  omega

theorem size_le (hy : InRange y) : y.toNat.size ≤ 63 := by
  have := hy.2
  exact Nat.size_le.mpr (by omega)

/-- The rule for the loop of `QuickPower`: no pass faults and each keeps `I`, and what `I` says when
    nothing is left of `y` is the result. -/
theorem quickPower_of_inv {I : Power → Prop} {z : Int} {fuel : Nat} (hy : ∀ p, I p → 0 ≤ p.y)
    (hnext : ∀ p, I p → ∃ q, p.next m = .ok q ∧ I q ∧ q.y = half p.y)
    (hend : ∀ p, I p → p.y = 0 → p.res = z) (hinit : I ⟨1, x, y⟩) (hrange : InRange y)
    (hf : 64 ≤ fuel) : quickPower fuel m x y = some (.ok z) := by
  have hsize := size_le hrange
  have hagain : ∀ p q, I p → quickPowerBody m p = .again q →
      I q ∧ q.y.toNat.size < p.y.toNat.size := by
    intro p q hp hb
    obtain ⟨p', hstep, hp', hhalf⟩ := hnext p hp
    unfold quickPowerBody at hb
    by_cases h0 : p.y = 0
    · rw [if_pos h0] at hb
      cases hb
    · rw [if_neg h0, hstep] at hb
      cases hb
      rw [hhalf]
      exact ⟨hp', size_half (hy p hp) h0⟩
  have hdone : ∀ p r, I p → quickPowerBody m p = .done r → r = .ok z := by
    intro p r hp hb
    obtain ⟨p', hstep, -, -⟩ := hnext p hp
    unfold quickPowerBody at hb
    by_cases h0 : p.y = 0
    · rw [if_pos h0] at hb
      cases hb
      rw [hend p hp h0]
    · rw [if_neg h0, hstep] at hb
      cases hb
  obtain ⟨r, hrun, rfl⟩ := run_spec hagain hdone hinit (show y.toNat.size < fuel by omega)
  exact hrun

/-- **`QuickPower`** comes to its end and returns the residue of the power. -/
theorem quickPower_residue {fuel : Nat} (hm : Modulus m) (hx : Reduced m x) (hy : 0 ≤ y)
    (hrange : InRange y) (hf : 64 ≤ fuel) :
    quickPower fuel m x y = some (.ok (x ^ y.toNat % m)) := by
  have hinit : PowerInv m (x ^ y.toNat) ⟨1, x, y⟩ :=
    ⟨hm.reduced_one, hx, hy, by rw [one_mul]⟩
  refine quickPower_of_inv (fun _ hp => hp.y) (fun _ hp => next_inv hm hp) (fun p hp h0 => ?_) hinit
    hrange hf
  -- nothing is left to multiply
  have hpower := hp.power
  rw [h0, Int.toNat_zero, pow_zero, mul_one] at hpower
  rw [← hpower.eq, Int.emod_eq_of_lt hp.res.1 hp.res.2]

/-! ## Expressions -/

/-- The value over the integers. -/
def Expr.value : Expr → Int
  | .const c => c
  | .add a b => a.value + b.value
  | .mul a b => a.value * b.value
  | .quickPower a y => a.value ^ y.toNat

/-- The constants are residues modulo `m`, the exponents are values of `long long` and not negative. -/
def Expr.WellFormed (m : Int) : Expr → Prop
  | .const c => Reduced m c
  | .add a b => a.WellFormed m ∧ b.WellFormed m
  | .mul a b => a.WellFormed m ∧ b.WellFormed m
  | .quickPower a y => a.WellFormed m ∧ 0 ≤ y ∧ InRange y

/-- **The library is a homomorphism on reduced operands.**  For every modulus `m` with
    `2 ≤ m ≤ 3037000500` and every expression over residues modulo `m`, the evaluation ends, no
    intermediate result leaves the range of `long long`, and the result is the residue of the
    value over the integers. -/
theorem eval_residue (m : Int) (hm : 2 ≤ m) (hm' : m ≤ 3037000500) (e : Expr)
    (he : e.WellFormed m) (fuel : Nat) (hf : 64 ≤ fuel) :
    e.eval fuel m = some (.ok (e.value % m)) := by
  have hmod : Modulus m := ⟨hm, hm'⟩
  induction e with
  | const c => rw [Expr.eval, Expr.value, Int.emod_eq_of_lt he.1 he.2]
  | add a b iha ihb =>
    have hadd := add_residue hmod (hmod.reduced_emod a.value) (hmod.reduced_emod b.value)
    rw [Expr.eval, iha he.1, ihb he.2, both, hadd, Expr.value, ← Int.add_emod]
  | mul a b iha ihb =>
    have hmul := mul_residue hmod (hmod.reduced_emod a.value) (hmod.reduced_emod b.value)
    rw [Expr.eval, iha he.1, ihb he.2, both, hmul, Expr.value, ← Int.mul_emod]
  | quickPower a y ih =>
    obtain ⟨ha, hy, hrange⟩ := he
    have hpow := quickPower_residue hmod (hmod.reduced_emod a.value) hy hrange hf
    have hresidue : (a.value % m) ^ y.toNat % m = a.value ^ y.toNat % m :=
      ((Int.mod_modEq _ m).pow _).eq
    rw [Expr.eval, ih ha, Expr.value, ← hresidue]
    exact hpow

/-- `(m - 1)^(2^63 - 1) * (m - 1) + (m - 1)` at the largest modulus. -/
def largest : Expr :=
  .add (.mul (.quickPower (.const 3037000499) (2 ^ 63 - 1)) (.const 3037000499)) (.const 3037000499)

theorem eval_residue_largest : largest.WellFormed 3037000500 ∧
    largest.eval 64 3037000500 = some (.ok (largest.value % 3037000500)) := by
  have hwf : largest.WellFormed 3037000500 := by
    simp [largest, Expr.WellFormed, Reduced, InRange]
  exact ⟨hwf, eval_residue 3037000500 (by omega) (by omega) largest hwf 64 (by omega)⟩

end CppBackend.MyMath
