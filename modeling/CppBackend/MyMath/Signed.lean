import CppBackend.MyMath.Residues

/-!
# Operands outside of `[0, m)`

The remainder of C++ has the sign of the dividend.  `Mul` takes it before and after the product, so its
result has the sign of the product over the integers (`mul_signed`); `Add` corrects a negative sum once
(`add_signed`).  They return residues only as `canonical_iff` says.  `QuickPower` does not take the
remainder of its first argument before it squares it: it agrees with `Mul` if and only if that square is
in the range, or there is no pass of the loop (`quickPower_repeated_iff`).
-/

set_option autoImplicit false

namespace CppBackend.MyMath

open Library Library.LongLong Library.Loop

variable {m x y : Int}

/-- Two of these have a product in the range; 3037000499 is the root of `2^63`, rounded down. -/
def Small (x : Int) : Prop := x.natAbs ≤ 3037000499

theorem Small.inRange (hx : Small x) (hy : Small y) : InRange (x * y) := by
  have hmul : (x * y).natAbs ≤ 3037000499 * 3037000499 := by
    rw [Int.natAbs_mul]
    exact Nat.mul_le_mul hx hy
  exact ⟨by omega, by omega⟩

/-- A square is in the range just if its root is small. -/
theorem square_inRange_iff : InRange (x * x) ↔ Small x := by
  constructor
  · intro h
    by_contra hx
    have hbig : 3037000500 ≤ x.natAbs := by
      unfold Small at hx
      omega
    have hmul : 3037000500 * 3037000500 ≤ (x * x).natAbs := by
      rw [Int.natAbs_mul]
      exact Nat.mul_le_mul hbig hbig
    have hlt := h.2
    have hsquare : ((x.natAbs * x.natAbs : Nat) : Int) = x * x := Int.natAbs_mul_self
    rw [Int.natAbs_mul] at hmul
    omega
  · exact fun h => h.inRange h

theorem Modulus.small_tmod (hm : Modulus m) (x : Int) : Small (x.tmod m) := by
  have hlt := natAbs_tmod_lt hm.pos x
  have hle := hm.le
  have hpos := hm.pos
  unfold Small
  omega

/-! ## `Add` and `Mul` -/

theorem mulRem_tmod (hm : 0 < m) (h : InRange (x * y)) : mulRem m x y = .ok ((x * y).tmod m) := by
  unfold mulRem
  rw [mul_ok h]
  exact rem_tmod hm _

theorem mul_signed (hm : Modulus m) (x y : Int) : mul m x y = .ok ((x * y).tmod m) := by
  unfold mul
  rw [rem_tmod hm.pos, rem_tmod hm.pos]
  simp only [bind, Except.bind]
  rw [mul_ok ((hm.small_tmod x).inRange (hm.small_tmod y))]
  simp only [rem_tmod hm.pos, tmod_mul_tmod]

theorem add_signed (hm : Modulus m) (h : InRange (x + y)) :
    add m x y = .ok (if x + y < 0 then x + y + m else (x + y) % m) := by
  have hle := hm.le
  have hpos := hm.pos
  have hge := h.1
  unfold add
  rw [add_ok h]
  by_cases hneg : x + y < 0
  · have hsmall : ¬ x + y ≥ m := by omega
    have hrange : InRange (x + y + m) := ⟨by omega, by omega⟩
    simp only [bind, Except.bind, if_neg hsmall, pure, Except.pure, if_pos hneg, add_ok hrange]
  · have h0 : 0 ≤ x + y := by omega
    rw [if_neg hneg]
    by_cases hbig : x + y ≥ m
    · have hmod := (hm.reduced_emod (x + y)).1
      simp only [bind, Except.bind, if_pos hbig, rem_ok h0 hpos, if_neg (Int.not_lt.mpr hmod)]
      rfl
    · have hsmall : (x + y) % m = x + y := Int.emod_eq_of_lt h0 (by omega)
      simp only [bind, Except.bind, if_neg hbig, pure, Except.pure, if_neg hneg, hsmall]

/-- One correction is enough for a sum that is not below `-m`. -/
theorem add_canonical_iff (hm : Modulus m) (h : InRange (x + y)) :
    add m x y = .ok ((x + y) % m) ↔ -m ≤ x + y := by
  have hres := hm.reduced_emod (x + y)
  rw [add_signed hm h]
  split
  · rename_i hneg
    constructor
    · intro he
      have hsum : x + y + m = (x + y) % m := Except.ok.inj he
      have := hres.1
      omega
    · intro hle
      have hlt : x + y + m < m := by omega
      rw [← Int.add_emod_right, Int.emod_eq_of_lt (by omega) hlt]
  · rename_i hneg
    have hpos := hm.pos
    exact ⟨fun _ => by omega, fun _ => rfl⟩

theorem tmod_eq_emod_iff (hm : 0 < m) : x.tmod m = x % m ↔ 0 ≤ x ∨ m ∣ x := by
  rw [Int.tmod_eq_emod]
  split
  · rename_i h
    simp [h]
  · rename_i h
    have hne : (m.natAbs : Int) ≠ 0 := by omega
    constructor
    · intro he
      omega
    · intro h'
      exact absurd h' h

theorem mul_canonical_iff (hm : Modulus m) :
    mul m x y = .ok ((x * y) % m) ↔ 0 ≤ x * y ∨ m ∣ x * y := by
  rw [mul_signed hm, Except.ok.injEq]
  exact tmod_eq_emod_iff hm.pos

/-- **`Add` and `Mul` return canonical residues** exactly if the sum is not below `-m`, and the product
is not negative or a multiple of `m`. -/
theorem canonical_iff (hm : 2 ≤ m) (hm' : m ≤ 3037000500) (h : InRange (x + y)) :
    (add m x y = .ok ((x + y) % m) ∧ mul m x y = .ok ((x * y) % m)) ↔
      -m ≤ x + y ∧ (0 ≤ x * y ∨ m ∣ x * y) :=
  and_congr (add_canonical_iff ⟨hm, hm'⟩ h) (mul_canonical_iff ⟨hm, hm'⟩)

theorem canonical_iff_seven : add 7 (-3) (-4) = .ok 0 ∧ mul 7 (-3) (-4) = .ok 5 :=
  (canonical_iff (m := 7) (x := -3) (y := -4) (by decide) (by decide) (by decide)).mpr
    ⟨by decide, Or.inl (by decide)⟩

/-- Modulo 7, `Add(-10, -10)` is -13 and `Mul(-1, 3)` is -3. -/
theorem negative_results : add 7 (-10) (-10) = .ok (-13) ∧ mul 7 (-1) 3 = .ok (-3) ∧
    ¬ ∀ x y, InRange x → InRange y → InRange (x + y) →
      add 7 x y = .ok ((x + y) % 7) ∧ mul 7 x y = .ok ((x * y) % 7) :=
  ⟨by decide, by decide, fun h =>
    absurd (h (-10) (-10) (by decide) (by decide) (by decide)).1 (by decide)⟩

/-! ## `QuickPower` -/

/-- Start with 1 and apply `Mul(., x)` so many times. -/
def repeated (m x : Int) : Nat → Except Fault Int
  | 0 => .ok 1
  | n + 1 => do
    let r ← repeated m x n
    mul m r x

theorem repeated_tmod (hm : Modulus m) (x : Int) : ∀ n, repeated m x n = .ok ((x ^ n).tmod m)
  | 0 => by
    rw [repeated, pow_zero, Int.tmod_eq_of_lt hm.reduced_one.1 hm.reduced_one.2]
  | n + 1 => by
    simp only [repeated, repeated_tmod hm x n, bind, Except.bind]
    rw [mul_signed hm, pow_succ, Int.mul_tmod, Int.tmod_tmod, tmod_mul_tmod]

/-- What one pass computes, as long as the products are in the range. -/
theorem next_tmod {p : Power} (hm : 0 < m) (hres : InRange (p.res * p.x)) (hx : InRange (p.x * p.x)) :
    p.next m = .ok ⟨if isOdd p.y then (p.res * p.x).tmod m else p.res, (p.x * p.x).tmod m, half p.y⟩ := by
  unfold Power.next
  cases isOdd p.y <;>
    simp only [if_true, Bool.false_eq_true, if_false, mulRem_tmod hm hres, mulRem_tmod hm hx, bind,
      Except.bind, pure, Except.pure]

/-- `res * x^y` keeps its remainder, and all factors are small. -/
structure SignedInv (m z : Int) (p : Power) : Prop where
  res : p.res.natAbs < m.natAbs
  x : Small p.x
  y : 0 ≤ p.y
  power : (p.res * p.x ^ p.y.toNat).tmod m = z

theorem signed_next {z : Int} {p : Power} (hm : Modulus m) (hp : SignedInv m z p) :
    ∃ q, p.next m = .ok q ∧ SignedInv m z q ∧ q.y = half p.y := by
  have hpos := hm.pos
  have hsmall : Small p.res := by
    have := hp.res
    have := hm.le
    unfold Small
    omega
  have hpower := hp.power
  rw [pow_half hp.y] at hpower
  have hx : ∀ r, (r * (p.x * p.x).tmod m ^ (half p.y).toNat).tmod m =
      (r * (p.x * p.x) ^ (half p.y).toNat).tmod m := by
    intro r
    rw [Int.mul_tmod, pow_tmod, tmod_mul_tmod]
  refine ⟨_, next_tmod hpos (hsmall.inRange hp.x) (hp.x.inRange hp.x),
    ⟨?_, hm.small_tmod _, half_nonneg.mpr hp.y, ?_⟩, rfl⟩
  · show (if isOdd p.y then (p.res * p.x).tmod m else p.res).natAbs < _
    split
    · exact natAbs_tmod_lt hpos _
    · exact hp.res
  · show ((if isOdd p.y then (p.res * p.x).tmod m else p.res) *
      (p.x * p.x).tmod m ^ (half p.y).toNat).tmod m = z
    rw [hx, ← hpower]
    split
    · rw [Int.mul_tmod, Int.tmod_tmod, tmod_mul_tmod, mul_assoc]
    · rw [one_mul]

/-- `QuickPower` on any argument with a square in the range. -/
theorem quickPower_tmod {fuel : Nat} (hm : Modulus m) (hx : Small x) (hy : 0 ≤ y) (hrange : InRange y)
    (hf : 64 ≤ fuel) : quickPower fuel m x y = some (.ok ((x ^ y.toNat).tmod m)) := by
  have hone : (1 : Int).natAbs < m.natAbs := by
    have := hm.two_le
    omega
  have hinit : SignedInv m ((x ^ y.toNat).tmod m) ⟨1, x, y⟩ := ⟨hone, hx, hy, by rw [one_mul]⟩
  refine quickPower_of_inv (fun _ hp => hp.y) (fun _ hp => signed_next hm hp) (fun p hp h0 => ?_) hinit
    hrange hf
  have hpower := hp.power
  rw [h0, Int.toNat_zero, pow_zero, mul_one, tmod_of_natAbs_lt hm.pos hp.res] at hpower
  exact hpower

theorem next_overflow {p : Power} (hx : ¬ Small p.x) (q : Power) : p.next m ≠ .ok q := by
  have hsquare : mulRem m p.x p.x = .error .overflow := by
    unfold mulRem LongLong.mul
    rw [checked_overflow fun h => hx (square_inRange_iff.mp h)]
    rfl
  unfold Power.next
  cases isOdd p.y with
  | true => cases mulRem m p.res p.x <;> simp [hsquare, bind, Except.bind]
  | false => simp [hsquare, bind, Except.bind, pure, Except.pure]

/-- The first pass squares the argument as it is. -/
theorem quickPower_overflow (hx : ¬ Small x) (hy : y ≠ 0) (fuel : Nat) (z : Int) :
    quickPower fuel m x y ≠ some (.ok z) := by
  cases fuel with
  | zero => exact fun h => (by cases h)
  | succ fuel =>
    intro h
    unfold quickPower run quickPowerBody at h
    cases hnext : Power.next m ⟨1, x, y⟩ with
    | ok q => exact next_overflow hx q hnext
    | error e => simp [hy, hnext] at h

/-- **`QuickPower` agrees with repeated multiplication** by `Mul` exactly if there is nothing to
multiply, or the square of its argument is a `long long`. -/
theorem quickPower_repeated_iff {fuel : Nat} (hm : 2 ≤ m) (hm' : m ≤ 3037000500) (hy : 0 ≤ y)
    (hrange : InRange y) (hf : 64 ≤ fuel) :
    (∃ z, quickPower fuel m x y = some (.ok z) ∧ repeated m x y.toNat = .ok z) ↔
      y = 0 ∨ x.natAbs ≤ 3037000499 := by
  have hmod : Modulus m := ⟨hm, hm'⟩
  constructor
  · rintro ⟨z, hpow, -⟩
    by_contra h
    rw [not_or] at h
    exact quickPower_overflow h.2 h.1 fuel z hpow
  · intro h
    refine ⟨(x ^ y.toNat).tmod m, ?_, repeated_tmod hmod x y.toNat⟩
    rcases h with rfl | hx
    · -- the argument is not looked at
      have hone : ((x ^ (0 : Int).toNat).tmod m) = 1 := by
        rw [Int.toNat_zero, pow_zero, Int.tmod_eq_of_lt hmod.reduced_one.1 hmod.reduced_one.2]
      rw [hone]
      obtain ⟨k, rfl⟩ := Nat.exists_eq_add_of_lt (Nat.lt_of_lt_of_le (by decide : 0 < 64) hf)
      simp [quickPower, run, quickPowerBody]
    · exact quickPower_tmod hmod hx hy hrange hf

theorem quickPower_repeated_iff_negative : ∃ z, quickPower 64 7 (-10) 3 = some (.ok z) ∧
    repeated 7 (-10) 3 = .ok z :=
  (quickPower_repeated_iff (m := 7) (x := -10) (y := 3) (by decide) (by decide) (by decide) (by decide)
    (Nat.le_refl 64)).mpr (Or.inr (by decide))

/-- `QuickPower(2^32, 1)` overflows modulo 7, and `Mul(1, 2^32)` is 4. -/
theorem quickPower_unreduced : quickPower 64 7 (2 ^ 32) 1 = some (.error .overflow) ∧
    repeated 7 (2 ^ 32) 1 = .ok 4 ∧
    ¬ ∃ fuel z, quickPower fuel 7 (2 ^ 32) 1 = some (.ok z) ∧ repeated 7 (2 ^ 32) 1 = .ok z :=
  ⟨by decide, by decide, fun ⟨fuel, z, h, _⟩ =>
    quickPower_overflow (by unfold Small; decide) (by decide) fuel z h⟩

end CppBackend.MyMath
