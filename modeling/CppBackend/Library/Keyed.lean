import Mathlib.Data.List.Perm.Basic

/-!
# Values with keys

Values are counted by a key, such as the object that a handle holds; a value may have no key.
`Census key R xs` says that each key and the number of the values with this key obey `R`, for example that a
counter which is stored under the key has this number as its value.

* `Census.perm` — the order of the values does not matter;
* `census_cons_none` — nor do values without a key;
* `Census.leave`, `Census.join` — a value comes or goes, and what is stored changes under its key only.
-/

set_option autoImplicit false

namespace Library.Keyed

variable {β κ : Type} [DecidableEq κ] {key : β → Option κ} {k : κ} {x : β} {xs ys : List β}

/-- How many of the values have the key `k`. -/
def keyed (key : β → Option κ) (k : κ) (xs : List β) : Nat := xs.countP fun x => key x == some k

theorem keyed_cons (key : β → Option κ) (k : κ) (x : β) (xs : List β) :
    keyed key k (x :: xs) = keyed key k xs + if key x = some k then 1 else 0 := by
  unfold keyed
  rw [List.countP_cons]
  simp only [beq_iff_eq]

theorem keyed_cons_of_eq (h : key x = some k) : keyed key k (x :: xs) = keyed key k xs + 1 := by
  rw [keyed_cons, if_pos h]

theorem keyed_cons_of_ne (h : key x ≠ some k) : keyed key k (x :: xs) = keyed key k xs := by
  rw [keyed_cons, if_neg h, Nat.add_zero]

theorem keyed_pos : 0 < keyed key k xs ↔ ∃ x ∈ xs, key x = some k := by
  unfold keyed
  rw [List.countP_pos_iff]
  simp only [beq_iff_eq]

theorem keyed_perm (h : xs.Perm ys) : keyed key k xs = keyed key k ys := h.countP_eq _

theorem keyed_le_length (key : β → Option κ) (k : κ) (xs : List β) : keyed key k xs ≤ xs.length :=
  List.countP_le_length

/-! ## Laws about the numbers -/

variable {R S : κ → Nat → Prop}

def Census (key : β → Option κ) (R : κ → Nat → Prop) (xs : List β) : Prop := ∀ k, R k (keyed key k xs)

theorem Census.perm (h : Census key R xs) (hp : xs.Perm ys) : Census key R ys := by
  intro k
  rw [← keyed_perm hp]
  exact h k

theorem census_cons_none (hx : key x = none) : Census key R (x :: xs) ↔ Census key R xs := by
  refine forall_congr' fun k => ?_
  rw [keyed_cons_of_ne]
  rw [hx]
  exact nofun

/-- A value with a key goes. -/
theorem Census.leave (h : Census key R (x :: xs)) (hx : key x = some k)
    (hother : ∀ j n, j ≠ k → R j n → S j n) (hk : S k (keyed key k xs)) : Census key S xs := by
  intro j
  by_cases hj : j = k
  · rw [hj]
    exact hk
  · have hne : key x ≠ some j := by
      rw [hx]
      exact fun he => hj (Option.some.inj he).symm
    have hr := h j
    rw [keyed_cons_of_ne hne] at hr
    exact hother j _ hj hr

/-- A value with a key comes. -/
theorem Census.join (h : Census key R xs) (hx : key x = some k)
    (hother : ∀ j n, j ≠ k → R j n → S j n) (hk : S k (keyed key k xs + 1)) :
    Census key S (x :: xs) := by
  intro j
  by_cases hj : j = k
  · rw [hj, keyed_cons_of_eq hx]
    exact hk
  · have hne : key x ≠ some j := by
      rw [hx]
      exact fun he => hj (Option.some.inj he).symm
    rw [keyed_cons_of_ne hne]
    exact hother j _ hj (h j)

/-! ## Laws about pairs -/

/-- A relation between any two of the values, which holds of one more and of each of the others. -/
theorem forall_pairs_cons {P : β → β → Prop} (hsymm : ∀ y z, P y z → P z y) (hself : P x x)
    (hother : ∀ y ∈ xs, P x y) (hpairs : ∀ y ∈ xs, ∀ z ∈ xs, P y z) :
    ∀ y ∈ x :: xs, ∀ z ∈ x :: xs, P y z := by
  intro y hy z hz
  rcases List.mem_cons.mp hy with hyx | hys <;> rcases List.mem_cons.mp hz with hzx | hzs
  · rw [hyx, hzx]
    exact hself
  · rw [hyx]
    exact hother z hzs
  · rw [hzx]
    exact hsymm _ _ (hother y hys)
  · exact hpairs y hys z hzs

theorem forall_pairs_perm {P : β → β → Prop} (hp : xs.Perm ys) (h : ∀ y ∈ xs, ∀ z ∈ xs, P y z) :
    ∀ y ∈ ys, ∀ z ∈ ys, P y z :=
  fun y hy z hz => h y (hp.mem_iff.mpr hy) z (hp.mem_iff.mpr hz)

end Library.Keyed
