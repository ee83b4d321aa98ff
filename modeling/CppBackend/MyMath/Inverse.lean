import CppBackend.MyMath.Residues
import Mathlib.FieldTheory.Finite.Basic
import Mathlib.Tactic.NormNum.Prime

/-!
# Inverses modulo a prime

`Inv(b)` is the power `b^(MOD - 2)`.  For a prime modulus it is the inverse of `b`, by Fermat's little
theorem (`inverse_modEq`), and `Divide` undoes `Mul` (`divide_mul`); modulo 2 the exponent is 0.
-/

set_option autoImplicit false

namespace CppBackend.MyMath

open Library Library.LongLong Library.Loop

variable {m a b : Int} {p fuel : Nat}

/-! ## The functions -/

theorem inv_residue (hm : Modulus m) (hb : Reduced m b) (hf : 64 ≤ fuel) :
    inv fuel m b = some (.ok (b ^ (m - 2).toNat % m)) := by
  have htwo := hm.two_le
  have hle := hm.le
  have hrange : InRange (m - 2) := ⟨by omega, by omega⟩
  unfold inv
  rw [add_ok (x := m) (y := -2) hrange]
  exact quickPower_residue hm hb (y := m - 2) (by omega) hrange hf

theorem divide_residue (hm : Modulus m) (ha : Reduced m a) (hb : Reduced m b) (hf : 64 ≤ fuel) :
    divide fuel m a b = some (.ok (a * (b ^ (m - 2).toNat % m) % m)) := by
  unfold divide
  rw [inv_residue hm hb hf]
  simp only [Option.map_some, Except.bind]
  rw [mul_residue hm ha (hm.reduced_emod _)]

/-! ## Prime moduli -/

/-- `b * b^(p - 2)` is `b^(p - 1)`. -/
theorem inverse_modEq (hp : p.Prime) (hb : 0 < b) (hbp : b < p) :
    b * (b ^ (p - 2 : Int).toNat % p) ≡ 1 [ZMOD p] := by
  obtain ⟨n, rfl⟩ := Int.eq_ofNat_of_zero_le (Int.le_of_lt hb)
  have hcop : IsCoprime (n : Int) p :=
    Nat.isCoprime_iff_coprime.mpr (Nat.coprime_of_lt_prime (by omega) (by omega) hp).symm
  have hexp : (p - 2 : Int).toNat + 1 = p - 1 := by
    have := hp.two_le
    omega
  calc (n : Int) * (n ^ (p - 2 : Int).toNat % p)
      ≡ n * n ^ (p - 2 : Int).toNat [ZMOD p] := (Int.mod_modEq _ _).mul_left _
    _ = n ^ (p - 1) := by rw [← pow_succ', hexp]
    _ ≡ 1 [ZMOD p] := Int.ModEq.pow_card_sub_one_eq_one hp hcop

/-- A residue comes back from a product with two factors that are inverse to each other. -/
theorem mul_inverse (ha : Reduced p a) {i : Int} (hi : b * i ≡ 1 [ZMOD p]) :
    a * b % p * i % p = a := by
  have hmod : a * b % p * i ≡ a [ZMOD p] :=
    calc a * b % p * i ≡ a * b * i [ZMOD p] := (Int.mod_modEq _ _).mul_right _
      _ = a * (b * i) := mul_assoc a b i
      _ ≡ a * 1 [ZMOD p] := hi.mul_left a
      _ = a := mul_one a
  rw [hmod.eq, Int.emod_eq_of_lt ha.1 ha.2]

/-- **`Divide` undoes `Mul`** modulo a prime, and no intermediate result leaves the range of
`long long`. -/
theorem divide_mul (hp : p.Prime) (hle : p ≤ 3037000500) (ha : 0 ≤ a) (hap : a < p) (hb : 0 < b)
    (hbp : b < p) (hf : 64 ≤ fuel) :
    (∃ i, inv fuel p b = some (.ok i) ∧ mul p b i = .ok 1) ∧
    (∃ c, mul p a b = .ok c ∧ divide fuel p c b = some (.ok a)) ∧
    ∃ q, divide fuel p a b = some (.ok q) ∧ mul p q b = .ok a := by
  have hm : Modulus p := ⟨by have := hp.two_le; omega, by omega⟩
  have ha' : Reduced p a := ⟨ha, hap⟩
  have hb' : Reduced p b := ⟨Int.le_of_lt hb, hbp⟩
  have hinv := inverse_modEq hp hb hbp
  refine ⟨⟨_, inv_residue hm hb' hf, ?_⟩, ⟨_, mul_residue hm ha' hb', ?_⟩,
    ⟨_, divide_residue hm ha' hb' hf, ?_⟩⟩
  · rw [mul_residue hm hb' (hm.reduced_emod _), hinv.eq,
      Int.emod_eq_of_lt hm.reduced_one.1 hm.reduced_one.2]
  · rw [divide_residue hm (hm.reduced_emod _) hb' hf, mul_inverse ha' hinv]
  · rw [mul_residue hm (hm.reduced_emod _) hb', mul_inverse ha' (mul_comm b _ ▸ hinv)]

theorem divide_mul_fermat : ∃ q, divide 64 (65537 : Nat) 5 3 = some (.ok q) ∧
    mul (65537 : Nat) q 3 = .ok 5 :=
  (divide_mul (p := 65537) (a := 5) (b := 3) (by norm_num) (by norm_num) (by decide) (by norm_num)
    (by decide) (by norm_num) (Nat.le_refl 64)).2.2

end CppBackend.MyMath
