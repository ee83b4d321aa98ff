import Mathlib.Algebra.BigOperators.Group.List.Basic
import Mathlib.Algebra.Order.BigOperators.Group.List
import Mathlib.Tactic.Ring
import Mathlib.Tactic.Linarith

/-!
# Tallies of a population

A population is a list of members, addressed by position.  `tally f l` adds up an integer
weight over the members; a member that changes moves the tally by the difference of its two
weights (`tally_set`), so a law about tallies is checked on one member at a time.
-/

set_option autoImplicit false

namespace Library.Tally

variable {β γ : Type} {f g : β → Int} {l : List β} {a b : β}

/-- Sum of the weights of the members. -/
def tally (f : β → Int) (l : List β) : Int := (l.map f).sum

/-- Weight 1 for the members that satisfy `p`, 0 for the others. -/
def ind (p : β → Bool) (x : β) : Int := if p x then 1 else 0

theorem ind_nonneg (p : β → Bool) (x : β) : 0 ≤ ind p x := by
  unfold ind; split <;> omega

theorem ind_of_true {p : β → Bool} {x : β} (h : p x = true) : ind p x = 1 := by
  rw [ind, if_pos h]

theorem ind_of_false {p : β → Bool} {x : β} (h : p x = false) : ind p x = 0 := by
  rw [ind, h, if_neg Bool.false_ne_true]

@[simp] theorem tally_nil : tally f [] = 0 := rfl

@[simp] theorem tally_cons : tally f (a :: l) = f a + tally f l := rfl

@[simp] theorem tally_append (l' : List β) : tally f (l ++ l') = tally f l + tally f l' := by
  simp [tally]

/-- Counting is the tally of the indicator. -/
theorem countP_eq_tally (p : β → Bool) (l : List β) : (l.countP p : Int) = tally (ind p) l := by
  induction l with
  | nil => rfl
  | cons x l ih =>
    rw [List.countP_cons, tally_cons, ← ih]
    unfold ind
    split <;> push_cast <;> omega

theorem tally_replicate (n : Nat) : tally f (List.replicate n a) = n * f a := by
  simp [tally]

theorem tally_map (h : γ → β) (m : List γ) : tally f (m.map h) = tally (fun x => f (h x)) m := by
  simp [tally, Function.comp_def]

theorem tally_congr (h : ∀ x ∈ l, f x = g x) : tally f l = tally g l := by
  unfold tally
  rw [List.map_congr_left h]

theorem tally_eq_zero (h : ∀ x ∈ l, f x = 0) : tally f l = 0 := by
  rw [tally_congr (g := fun _ => 0) h]
  simp [tally]

theorem tally_set : ∀ {l : List β} {i : Nat}, l[i]? = some a →
    tally f (l.set i b) = tally f l - f a + f b
  | [], _, h => by simp at h
  | x :: l, 0, h => by
    simp only [List.getElem?_cons_zero, Option.some.injEq] at h
    subst h
    simp only [List.set_cons_zero, tally_cons]
    ring
  | x :: l, i + 1, h => by
    simp only [List.getElem?_cons_succ] at h
    simp only [List.set_cons_succ, tally_cons, tally_set h]
    ring

theorem tally_eraseIdx : ∀ {l : List β} {i : Nat}, l[i]? = some a →
    tally f (l.eraseIdx i) = tally f l - f a
  | [], _, h => by simp at h
  | x :: l, 0, h => by
    simp only [List.getElem?_cons_zero, Option.some.injEq] at h
    subst h
    rw [List.eraseIdx_cons_zero, tally_cons]
    ring
  | x :: l, i + 1, h => by
    simp only [List.getElem?_cons_succ] at h
    rw [List.eraseIdx_cons_succ, tally_cons, tally_cons, tally_eraseIdx h]
    ring

theorem tally_nonneg (hf : ∀ x, 0 ≤ f x) : 0 ≤ tally f l := by
  induction l with
  | nil => simp
  | cons x l ih => have := hf x; simp only [tally_cons]; omega

theorem tally_mono (h : ∀ x, f x ≤ g x) : tally f l ≤ tally g l := by
  induction l with
  | nil => simp
  | cons x l ih => have := h x; simp only [tally_cons]; omega

/-- More members satisfy a weaker predicate. -/
theorem tally_ind_mono {p q : β → Bool} (h : ∀ x, p x = true → q x = true) :
    tally (ind p) l ≤ tally (ind q) l := by
  apply tally_mono
  intro x
  cases hp : p x with
  | false => rw [ind_of_false hp]; exact ind_nonneg q x
  | true => rw [ind_of_true hp, ind_of_true (h x hp)]

theorem tally_add : tally (fun x => f x + g x) l = tally f l + tally g l := by
  induction l with
  | nil => rfl
  | cons x l ih => simp only [tally_cons, ih]; ring

theorem tally_sub : tally (fun x => f x - g x) l = tally f l - tally g l := by
  induction l with
  | nil => rfl
  | cons x l ih => simp only [tally_cons, ih]; ring

theorem tally_neg : tally (fun x => -f x) l = -tally f l := by
  induction l with
  | nil => rfl
  | cons x l ih => simp only [tally_cons, ih]; ring

/-- A member weighs at most the whole population. -/
theorem le_tally (hf : ∀ x, 0 ≤ f x) : ∀ {l : List β}, a ∈ l → f a ≤ tally f l
  | x :: l, h => by
    simp only [tally_cons]
    have h0 : 0 ≤ tally f l := tally_nonneg hf
    rcases List.mem_cons.mp h with rfl | h
    · omega
    · have := le_tally hf h
      have := hf x
      omega

/-- Two members at different positions weigh at most the whole population. -/
theorem add_le_tally (hf : ∀ x, 0 ≤ f x) : ∀ {l : List β} {i j : Nat}, i ≠ j →
    l[i]? = some a → l[j]? = some b → f a + f b ≤ tally f l
  | [], _, _, _, hi, _ => by simp at hi
  | x :: l, 0, 0, hij, _, _ => absurd rfl hij
  | x :: l, 0, j + 1, _, hi, hj => by
    simp only [List.getElem?_cons_zero, Option.some.injEq] at hi
    simp only [List.getElem?_cons_succ] at hj
    have := le_tally hf (List.mem_of_getElem? hj)
    rw [tally_cons, hi]; omega
  | x :: l, i + 1, 0, _, hi, hj => by
    simp only [List.getElem?_cons_zero, Option.some.injEq] at hj
    simp only [List.getElem?_cons_succ] at hi
    have := le_tally hf (List.mem_of_getElem? hi)
    rw [tally_cons, hj]; omega
  | x :: l, i + 1, j + 1, hij, hi, hj => by
    simp only [List.getElem?_cons_succ] at hi hj
    have := add_le_tally hf (by omega) hi hj
    have := hf x
    rw [tally_cons]; omega

theorem tally_pos_mem (h : 0 < tally f l) : ∃ x ∈ l, 0 < f x := by
  induction l with
  | nil => simp at h
  | cons x l ih =>
    simp only [tally_cons] at h
    by_cases hx : 0 < f x
    · exact ⟨x, List.mem_cons_self, hx⟩
    · obtain ⟨y, hy, hp⟩ := ih (by omega)
      exact ⟨y, List.mem_cons_of_mem _ hy, hp⟩

/-- Some member satisfies a predicate with a positive tally. -/
theorem exists_of_tally_ind {p : β → Bool} (h : 0 < tally (ind p) l) : ∃ x ∈ l, p x = true := by
  obtain ⟨x, hx, hpos⟩ := tally_pos_mem h
  refine ⟨x, hx, ?_⟩
  by_contra hno
  rw [ind_of_false (Bool.eq_false_of_not_eq_true hno)] at hpos
  omega

theorem tally_ind_pos {p : β → Bool} (hx : a ∈ l) (hp : p a = true) : 0 < tally (ind p) l := by
  have := le_tally (ind_nonneg p) hx
  rw [ind_of_true hp] at this
  omega

/-! ## What the members contribute -/

theorem filterMap_set_same {f : β → Option γ} {y : β} : ∀ {l : List β} {i : Nat} {x : β},
    l[i]? = some x → f y = f x → (l.set i y).filterMap f = l.filterMap f
  | [], _, _, h, _ => by simp at h
  | z :: l, 0, x, h, hf => by
    simp only [List.getElem?_cons_zero, Option.some.injEq] at h
    subst h
    rw [List.set_cons_zero, List.filterMap_cons, List.filterMap_cons, hf]
  | z :: l, i + 1, x, h, hf => by
    simp only [List.getElem?_cons_succ] at h
    rw [List.set_cons_succ, List.filterMap_cons, List.filterMap_cons, filterMap_set_same h hf]

theorem filterMap_set_perm {f : β → Option γ} {y : β} {c : γ} : ∀ {l : List β} {i : Nat} {x : β},
    l[i]? = some x → f x = some c → f y = none → (c :: (l.set i y).filterMap f).Perm (l.filterMap f)
  | [], _, _, h, _, _ => by simp at h
  | z :: l, 0, x, h, hx, hy => by
    simp only [List.getElem?_cons_zero, Option.some.injEq] at h
    subst h
    rw [List.set_cons_zero, List.filterMap_cons_none hy, List.filterMap_cons_some hx]
  | z :: l, i + 1, x, h, hx, hy => by
    simp only [List.getElem?_cons_succ] at h
    have ih := filterMap_set_perm h hx hy
    rw [List.set_cons_succ]
    cases hz : f z with
    | none =>
      rw [List.filterMap_cons_none hz, List.filterMap_cons_none hz]
      exact ih
    | some d =>
      rw [List.filterMap_cons_some hz, List.filterMap_cons_some hz]
      exact (List.Perm.swap d c _).trans (ih.cons d)

end Library.Tally
