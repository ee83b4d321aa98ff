import CppBackend.SubReactors.Steps
import Mathlib.Data.Int.CardIntervalMod

/-!
# The rotation

The counter is an `int` of 32 bits and is converted to a `size_t` of 64 bits, with its sign.  So the index is
`k % n` for the first `2^31` calls; then the value jumps up by `2^64 - 2^32` (`value_eq`), and after `2^32`
calls it is 0 again.  The rotation goes on behind each of these two points if and only if `n` divides the
jump (`rotates_iff`).  The index is in the range in any case (`dealt_eq`).
-/

set_option autoImplicit false

namespace CppBackend.SubReactors

open Library.Transition

variable {n k r : Nat}

/-- The counter after `k` calls, as a `size_t`. -/
def value (k : Nat) : Nat := ((BitVec.ofNat 32 k).signExtend 64).toNat

theorem value_eq (k : Nat) :
    value k = if k % 2 ^ 32 < 2 ^ 31 then k % 2 ^ 32 else k % 2 ^ 32 + (2 ^ 64 - 2 ^ 32) := by
  unfold value
  rw [BitVec.toNat_signExtend, BitVec.toNat_setWidth, BitVec.toNat_ofNat, BitVec.msb_eq_decide,
    BitVec.toNat_ofNat]
  by_cases h : k % 2 ^ 32 < 2 ^ 31
  · have hmsb : ¬ 2 ^ (32 - 1) ≤ k % 2 ^ 32 := by omega
    simp only [hmsb, decide_false, Bool.false_eq_true, if_false, if_pos h]
    omega
  · have hmsb : 2 ^ (32 - 1) ≤ k % 2 ^ 32 := by omega
    simp only [hmsb, decide_true, if_true, if_neg h]
    omega

theorem nextAfter_eq (hn : 0 < n) (k : Nat) : nextAfter n k = BitVec.ofNat 32 k := by
  induction k with
  | zero => rfl
  | succ k ih =>
    simp only [nextAfter, getNextSubReactor, Nat.ne_of_gt hn, if_false, ih]
    exact (BitVec.ofNat_add k 1).symm

/-- The index that is returned, as a function of the number of calls. -/
theorem dealt_eq (hn : 0 < n) (hn' : n < 2 ^ 31) (k : Nat) : dealt n k = some ((value k % n : Nat) : Int) := by
  have hlt : value k % n < n := Nat.mod_lt _ hn
  have htoNat : (BitVec.ofNat 32 (value k % n)).toNat = value k % n := by
    rw [BitVec.toNat_ofNat]
    exact Nat.mod_eq_of_lt (by omega)
  unfold dealt getNextSubReactor
  rw [if_neg (Nat.ne_of_gt hn), nextAfter_eq hn]
  show some (BitVec.ofNat 32 (value k % n)).toInt = _
  rw [BitVec.toInt_eq_toNat_of_lt (by rw [htoNat]; omega), htoNat]

/-- The index is in the range, whatever the counter is. -/
theorem getNextSubReactor_lt (hn : 0 < n) (next : BitVec 32) :
    ∃ idx next', getNextSubReactor n next = (some idx, next') ∧ idx.toNat < n := by
  have hlt : (next.signExtend 64).toNat % n < n := Nat.mod_lt _ hn
  have hle : (BitVec.ofNat 32 ((next.signExtend 64).toNat % n)).toNat ≤ (next.signExtend 64).toNat % n := by
    rw [BitVec.toNat_ofNat]
    exact Nat.mod_le _ _
  unfold getNextSubReactor
  rw [if_neg (Nat.ne_of_gt hn)]
  refine ⟨_, _, rfl, ?_⟩
  rw [BitVec.toInt_eq_toNat_cond]
  split <;> omega

theorem subReactor_lt (hn : 0 < n) (k : Nat) : subReactor n k < n := by
  obtain ⟨idx, next, hget, hlt⟩ := getNextSubReactor_lt hn (nextAfter n k)
  unfold subReactor dealt
  rw [hget]
  exact hlt

/-! ## The connections of a run -/

def Action.accepts : Action → Bool
  | .accept _ _ => true
  | _ => false

theorem next_step {s s' : Pool} {a : Action} (hi : Inv s) (h : step s a = some s') :
    s'.next = s.next + BitVec.ofNat 32 (if a.accepts then 1 else 0) := by
  cases step_inv h with
  | @accept fd ok hpc =>
    have hpos : s.size ≠ 0 := Nat.ne_of_gt (hi.nonempty (Or.inr hpc))
    simp only [Pool.accept, getNextSubReactor, if_neg hpos]
    split <;> rfl
  | @thread i _ r _ ht => cases ht <;> simp [Action.accepts]
  | _ => simp [Action.accepts]

/-- `getNextSubReactor` has been called once for each connection. -/
theorem next_run {m : Int} {as : List Action} {s t : Pool} (hr : Reach anyStep step (init m) s)
    (h : exec step s as = some t) : t.next = s.next + BitVec.ofNat 32 (as.countP Action.accepts) := by
  induction as generalizing s with
  | nil =>
    simp only [exec, Option.some.injEq] at h
    simp [h]
  | cons a as ih =>
    obtain ⟨s', hs, hrest⟩ := exec_cons h
    rw [ih (hr.tail hs trivial) hrest, next_step (reach_inv hr) hs, List.countP_cons, BitVec.add_assoc,
      Nat.add_comm, BitVec.ofNat_add]

/-- The connection that is accepted after `k` others goes to the sub-reactor that the call after `k` calls
returns. -/
theorem accept_eq {m : Int} {as : List Action} {s : Pool} {fd : Nat} (h : exec step (init m) as = some s)
    (hpc : s.pc = .ready) :
    s.accept fd true =
      { s.set (subReactor s.size (as.countP Action.accepts))
          { s.reactor (subReactor s.size (as.countP Action.accepts)) with
            interest := insert fd (s.reactor (subReactor s.size (as.countP Action.accepts))).interest } with
        next := s.next + 1 } := by
  have hpos : 0 < s.size := (reach_inv (exec_reach as h)).nonempty (Or.inr hpc)
  have hnext : nextAfter s.size (as.countP Action.accepts) = s.next := by
    rw [nextAfter_eq hpos, next_run Reach.refl h]
    simp [init]
  unfold subReactor dealt
  rw [hnext]
  simp only [Pool.accept, getNextSubReactor, if_neg (Nat.ne_of_gt hpos)]
  rfl

/-! ## When the calls go around -/

theorem dealt_mod_iff (hn : 0 < n) (hn' : n < 2 ^ 31) :
    dealt n k = some ((k % n : Nat) : Int) ↔ value k ≡ k [MOD n] := by
  rw [dealt_eq hn hn', Option.some.injEq, Int.natCast_inj]
  rfl

/-- The first `K` calls go around. -/
def Rotates (n K : Nat) : Prop := ∀ k < K, dealt n k = some ((k % n : Nat) : Int)

/-- `n` divides the jump at `2^31`, and the one at `2^32`, as far as they have been reached. -/
theorem rotates_iff (hn : 0 < n) (hn' : n < 2 ^ 31) {K : Nat} :
    Rotates n K ↔ K ≤ 2 ^ 31 ∨ (K ≤ 2 ^ 32 ∧ n ∣ 2 ^ 64 - 2 ^ 32) ∨ n ∣ 2 ^ 32 := by
  have hiff : Rotates n K ↔ ∀ k < K, value k ≡ k [MOD n] :=
    forall₂_congr fun _ _ => dealt_mod_iff hn hn'
  rw [hiff]
  constructor
  · intro h
    by_cases h31 : K ≤ 2 ^ 31
    · exact Or.inl h31
    · right
      have hjump := h (2 ^ 31) (by omega)
      rw [value_eq, if_neg (by decide), Nat.mod_eq_of_lt (by decide), Nat.add_modEq_left_iff] at hjump
      by_cases h32 : K ≤ 2 ^ 32
      · exact Or.inl ⟨h32, hjump⟩
      · have hwrap := h (2 ^ 32) (by omega)
        rw [value_eq, if_pos (by decide), Nat.mod_self] at hwrap
        exact Or.inr (Nat.modEq_zero_iff_dvd.mp hwrap.symm)
  · intro h k hk
    rw [value_eq]
    rcases h with h31 | ⟨h32, hjump⟩ | hwrap
    · rw [Nat.mod_eq_of_lt (by omega), if_pos (by omega)]
    · rw [Nat.mod_eq_of_lt (by omega)]
      split
      · rfl
      · exact Nat.add_modEq_left_iff.mpr hjump
    · have hk' : k % 2 ^ 32 ≡ k [MOD n] := Nat.mod_mod_of_dvd k hwrap
      have hjump : n ∣ 2 ^ 64 - 2 ^ 32 := hwrap.trans ⟨2 ^ 32 - 1, by decide⟩
      split
      · exact hk'
      · exact (Nat.add_modEq_left_iff.mpr hjump).trans hk'

/-- How many of the first `K` connections were given to the sub-reactor `r`. -/
def given (n r K : Nat) : Nat := Nat.count (fun k => dealt n k = some (r : Int)) K

theorem given_eq (h : Rotates n k) (hr : r < n) : given n r k = Nat.count (· ≡ r [MOD n]) k := by
  have hiff : ∀ j < k, dealt n j = some (r : Int) ↔ j ≡ r [MOD n] := by
    intro j hj
    rw [h j hj, Option.some.injEq, Int.natCast_inj, Nat.ModEq, Nat.mod_eq_of_lt hr]
  exact Nat.le_antisymm (Nat.count_mono_left fun j hj => (hiff j hj).mp)
    (Nat.count_mono_left fun j hj => (hiff j hj).mpr)

/-- While the calls go around, nobody gets two connections more than another one. -/
theorem given_le (hn : 0 < n) (h : Rotates n k) {r' : Nat} (hr : r < n) (hr' : r' < n) :
    given n r k ≤ given n r' k + 1 := by
  rw [given_eq h hr, given_eq h hr', Nat.count_modEq_card k hn, Nat.count_modEq_card k hn]
  split <;> split <;> omega

/-- **Connections are dealt in strict rotation**, and the numbers that two sub-reactors got differ by at
most 1, during the first `K` calls, exactly if there are at most `2^31` of them, or at most `2^32` and `n`
divides `2^64 - 2^32`, or `n` divides `2^32`.  The index is always in the range. -/
theorem rotation_iff (n K : Nat) (hn : 1 ≤ n) (hn' : n < 2 ^ 31) :
    (((∀ k < K, dealt n k = some ((k % n : Nat) : Int)) ∧
      ∀ k ≤ K, ∀ r < n, ∀ r' < n, given n r k ≤ given n r' k + 1) ↔
      K ≤ 2 ^ 31 ∨ (K ≤ 2 ^ 32 ∧ n ∣ 2 ^ 64 - 2 ^ 32) ∨ n ∣ 2 ^ 32) ∧
    ∀ k, ∃ r < n, dealt n k = some (r : Int) := by
  refine ⟨⟨fun h => (rotates_iff hn hn').mp h.1, fun h => ?_⟩,
    fun k => ⟨_, Nat.mod_lt _ hn, dealt_eq hn hn' k⟩⟩
  have hrot := (rotates_iff hn hn').mpr h
  refine ⟨hrot, fun k hk r hr r' hr' => given_le hn (fun j hj => hrot j ?_) hr hr'⟩
  exact Nat.lt_of_lt_of_le hj hk

theorem rotation_iff_four : dealt 4 (2 ^ 32 + 1) = some ((1 : Nat) : Int) :=
  ((rotation_iff 4 (2 ^ 32 + 2) (by decide) (by decide)).1.mpr
    (Or.inr (Or.inr (by decide)))).1 (2 ^ 32 + 1) (by decide)

/-- With seven sub-reactors, the call after `2^31` calls returns 0 and not 2. -/
theorem seven_jumps : dealt 7 (2 ^ 31) = some 0 ∧ 2 ^ 31 % 7 = 2 ∧
    ¬ ∀ n k, 1 ≤ n → n < 2 ^ 31 → dealt n k = some ((k % n : Nat) : Int) := by
  have hdealt : dealt 7 (2 ^ 31) = some 0 := by
    rw [dealt_eq (by decide) (by decide), value_eq]
    decide
  refine ⟨hdealt, by decide, fun h => ?_⟩
  have hclaimed := h 7 (2 ^ 31) (by decide) (by decide)
  rw [hdealt] at hclaimed
  revert hclaimed
  decide

end CppBackend.SubReactors
