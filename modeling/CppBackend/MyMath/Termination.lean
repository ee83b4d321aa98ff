import CppBackend.MyMath.Residues

/-!
# Termination of `QuickPower`

The loop is left when `y` is 0, and `y` does not depend on the other variables.  So nothing is assumed
here about a multiplication that overflows, or a division by 0: its value is any function `o` of the
operands.  Where the model with faults returns a result, the results are the same
(`quickPowerAs_of_ok`).

The bit length of `y` goes down by one with each pass as long as `y` is positive; a negative `y` stays
negative, and -1 stays -1 (`quickPowerAs_isSome_iff`).
-/

set_option autoImplicit false

namespace CppBackend.MyMath

open Library Library.LongLong Library.Loop

/-- The value of an operation, `d` if C++ leaves it open. -/
def settle (d : Int) : Except Fault Int → Int
  | .ok z => z
  | .error _ => d

variable (o : Int → Int → Int)

/-- The body of the loop of `QuickPower`. -/
def Power.nextAs (mod : Int) (p : Power) : Power where
  res := if isOdd p.y then settle (o p.res p.x) (mulRem mod p.res p.x) else p.res
  x := settle (o p.x p.x) (mulRem mod p.x p.x)
  y := half p.y

def quickPowerBodyAs (mod : Int) (p : Power) : Pass Power Int :=
  if p.y = 0 then .done p.res else .again (p.nextAs o mod)

/-- `QuickPower`, for at most so many tests of `y`. -/
def quickPowerAs (fuel : Nat) (mod x y : Int) : Option Int := run (quickPowerBodyAs o mod) fuel ⟨1, x, y⟩

/-- `Inv`. -/
def invAs (fuel : Nat) (mod x : Int) : Option Int :=
  quickPowerAs o fuel mod x (settle (o mod (-2)) (LongLong.add mod (-2)))

/-- `Divide`. -/
def divideAs (fuel : Nat) (mod x y : Int) : Option Int :=
  (invAs o fuel mod y).map fun z => settle (o x z) (mul mod x z)

variable {o} {mod x y : Int} {fuel : Nat}

theorem nextAs_of_ok {p q : Power} (h : p.next mod = .ok q) : p.nextAs o mod = q := by
  unfold Power.next at h
  cases hodd : isOdd p.y <;> cases hres : mulRem mod p.res p.x <;> cases hx : mulRem mod p.x p.x <;>
    simp [hodd, hres, hx, bind, Except.bind, pure, Except.pure] at h <;>
    simp [← h, Power.nextAs, settle, hodd, hres, hx]

/-- A result without a fault does not depend on what faults are settled to. -/
theorem quickPowerAs_of_ok {z : Int} (h : quickPower fuel mod x y = some (.ok z)) :
    quickPowerAs o fuel mod x y = some z := by
  have hagain : ∀ s t s', s = t → quickPowerBody mod s = .again s' →
      ∃ t', quickPowerBodyAs o mod t = .again t' ∧ s' = t' := by
    rintro s _ s' rfl hb
    unfold quickPowerBody at hb
    unfold quickPowerBodyAs
    split at hb
    · cases hb
    · rename_i hy
      rw [if_neg hy]
      cases hnext : s.next mod with
      | error e => simp [hnext] at hb
      | ok q =>
        simp only [hnext, Pass.again.injEq] at hb
        exact ⟨_, rfl, by rw [nextAs_of_ok hnext, hb]⟩
  have hdone : ∀ s t r, s = t → quickPowerBody mod s = .done r → (∃ z, r = .ok z) →
      ∃ u, quickPowerBodyAs o mod t = .done u ∧ r = .ok u := by
    rintro s _ _ rfl hb ⟨z, rfl⟩
    unfold quickPowerBody at hb
    unfold quickPowerBodyAs
    split at hb
    · rename_i hy
      rw [if_pos hy]
      cases hb
      exact ⟨_, rfl, rfl⟩
    · cases hnext : s.next mod <;> simp [hnext] at hb
  obtain ⟨u, hrun, hu⟩ := run_simulates hagain hdone rfl h ⟨z, rfl⟩
  rw [quickPowerAs, hrun, Except.ok.inj hu]

/-- `y >> 1` has exactly one bit less. -/
theorem size_half_succ (hy : 0 ≤ y) (hne : y ≠ 0) : y.toNat.size = (half y).toNat.size + 1 := by
  have hlt := size_half hy hne
  have hle : y.toNat.size ≤ (half y).toNat.size + 1 := by
    have hhalf : (half y).toNat < 2 ^ (half y).toNat.size := Nat.lt_size_self _
    have hsplit : y.toNat < 2 * ((half y).toNat + 1) := by
      unfold half
      omega
    rw [Nat.size_le, pow_succ]
    omega
  omega

/-- The loop is left after as many passes as `y` has bits, and one more test of `y`; for a negative `y` it
is not left. -/
theorem quickPowerAs_isSome_iff :
    (quickPowerAs o fuel mod x y).isSome ↔ 0 ≤ y ∧ y.toNat.size < fuel := by
  unfold quickPowerAs
  by_cases hy : 0 ≤ y
  · have hagain : ∀ s s' : Power, 0 ≤ s.y → quickPowerBodyAs o mod s = .again s' →
        0 ≤ s'.y ∧ s.y.toNat.size = s'.y.toNat.size + 1 := by
      intro s s' hs hb
      unfold quickPowerBodyAs at hb
      split at hb
      · cases hb
      · rename_i hne
        cases hb
        exact ⟨half_nonneg.mpr hs, size_half_succ hs hne⟩
    have hdone : ∀ (s : Power) r, 0 ≤ s.y → quickPowerBodyAs o mod s = .done r → s.y.toNat.size = 0 := by
      intro s r hs hb
      unfold quickPowerBodyAs at hb
      split at hb
      · rename_i h0
        rw [h0, Int.toNat_zero, Nat.size_zero]
      · cases hb
    rw [run_isSome_iff hagain hdone hy]
    simp [hy]
  · have hagain : ∀ s : Power, s.y < 0 → ∃ s', quickPowerBodyAs o mod s = .again s' ∧ s'.y < 0 := by
      intro s hs
      refine ⟨_, if_neg (Int.ne_of_lt hs), ?_⟩
      have := half_nonneg (y := s.y)
      show half s.y < 0
      omega
    rw [run_none hagain (show y < 0 by omega)]
    simp [hy]

/-- It terminates just on the exponents that are not negative. -/
theorem quickPowerAs_terminates_iff : (∃ fuel, (quickPowerAs o fuel mod x y).isSome) ↔ 0 ≤ y := by
  simp only [quickPowerAs_isSome_iff]
  exact ⟨fun ⟨_, hy, _⟩ => hy, fun hy => ⟨_, hy, Nat.lt_succ_self _⟩⟩

theorem invAs_terminates_iff (hm : 1 ≤ mod) (hrange : InRange mod) :
    (∃ fuel, (invAs o fuel mod x).isSome) ↔ 2 ≤ mod := by
  have hlt := hrange.2
  have hsub : LongLong.add mod (-2) = .ok (mod + -2) := add_ok ⟨by omega, by omega⟩
  unfold invAs
  rw [hsub, settle, quickPowerAs_terminates_iff]
  omega

theorem divideAs_terminates_iff (hm : 1 ≤ mod) (hrange : InRange mod) :
    (∃ fuel, (divideAs o fuel mod x y).isSome) ↔ 2 ≤ mod := by
  simp only [divideAs, Option.isSome_map]
  exact invAs_terminates_iff hm hrange

/-- **Termination.**  `QuickPower` terminates just for the exponents that are not negative, after as many
passes as the exponent has bits, 63 at most; `Inv` and `Divide` terminate for all arguments just if the
modulus is at least 2. -/
theorem terminates_iff (o : Int → Int → Int) :
    (∀ mod x y, InRange y →
      ((∃ fuel, (quickPowerAs o fuel mod x y).isSome) ↔ 0 ≤ y) ∧
      (0 ≤ y → y.toNat.size ≤ 63 ∧
        ∀ fuel, (quickPowerAs o fuel mod x y).isSome ↔ y.toNat.size + 1 ≤ fuel)) ∧
    ∀ mod, 1 ≤ mod → InRange mod →
      ((∀ x, ∃ fuel, (invAs o fuel mod x).isSome) ↔ 2 ≤ mod) ∧
      ((∀ x y, ∃ fuel, (divideAs o fuel mod x y).isSome) ↔ 2 ≤ mod) := by
  refine ⟨fun mod x y hy => ⟨quickPowerAs_terminates_iff, fun h0 => ⟨size_le hy, fun fuel => ?_⟩⟩,
    fun mod hm hrange => ⟨?_, ?_⟩⟩
  · rw [quickPowerAs_isSome_iff]
    exact and_iff_right h0
  · simp only [invAs_terminates_iff hm hrange, forall_const]
  · simp only [divideAs_terminates_iff hm hrange, forall_const]

/-- An overflow wraps around. -/
def wrap (x y : Int) : Int := (x * y).bmod (2 ^ 64)

/-- With the exponent 5 there are three passes, and `Inv` does not terminate modulo 1. -/
theorem terminates_iff_five : (quickPowerAs wrap 4 7 2 5).isSome ∧
    ¬ (quickPowerAs wrap 3 7 2 5).isSome ∧ ¬ ∀ x, ∃ fuel, (invAs wrap fuel 1 x).isSome := by
  have h := (((terminates_iff wrap).1 7 2 5 (by decide)).2 (by decide)).2
  have hsize : (5 : Int).toNat.size = 3 := by decide
  rw [hsize] at h
  exact ⟨(h 4).mpr (by decide), fun h3 => absurd ((h 3).mp h3) (by decide),
    fun hinv => absurd (((terminates_iff wrap).2 1 (by decide) (by decide)).1.mp hinv) (by decide)⟩

end CppBackend.MyMath
