import Mathlib.Data.List.ReduceOption
import Mathlib.Data.List.Perm.Basic

/-!
# Slots for objects with a lifetime

A program's variables of one class are numbered slots; a slot holds the variable's value
while the variable is alive and `none` before its construction and after its destruction.  The
values of the live variables, in any order, are `List.reduceOption`; the lemmas say how they
change when one slot does.
-/

set_option autoImplicit false

namespace Library.Slots

variable {β : Type} {x : β}

theorem perm_set_some : ∀ {s : List (Option β)} {i : Nat}, i < s.length →
    (s.set i (some x)).reduceOption.Perm (x :: (s.set i none).reduceOption)
  | [], _, h => absurd h (Nat.not_lt_zero _)
  | y :: s, 0, _ => by
    rw [List.set_cons_zero, List.set_cons_zero, List.reduceOption_cons_of_some,
      List.reduceOption_cons_of_none]
  | none :: s, i + 1, h => by
    rw [List.set_cons_succ, List.set_cons_succ, List.reduceOption_cons_of_none,
      List.reduceOption_cons_of_none]
    exact perm_set_some (Nat.lt_of_succ_lt_succ h)
  | some y :: s, i + 1, h => by
    rw [List.set_cons_succ, List.set_cons_succ, List.reduceOption_cons_of_some,
      List.reduceOption_cons_of_some]
    exact ((perm_set_some (Nat.lt_of_succ_lt_succ h)).cons y).trans (List.Perm.swap x y _)

variable {s : List (Option β)} {i j : Nat}

theorem lt_of_get {o : Option β} (h : s[i]? = some o) : i < s.length :=
  (List.getElem?_eq_some_iff.mp h).1

theorem set_eq_of_get {α : Type} {s : List α} {o : α} (h : s[i]? = some o) : s.set i o = s := by
  obtain ⟨hi, he⟩ := List.getElem?_eq_some_iff.mp h
  rw [← he, List.set_getElem_self]

/-- A live variable among the live values. -/
theorem perm_of_get (h : s[i]? = some (some x)) :
    s.reduceOption.Perm (x :: (s.set i none).reduceOption) := by
  have hp := perm_set_some (x := x) (lt_of_get h)
  rwa [set_eq_of_get h] at hp

theorem get_set_ne {o : Option β} (hij : i ≠ j) (h : s[j]? = some o) (u : Option β) :
    (s.set i u)[j]? = some o := by
  rw [List.getElem?_set_ne hij, h]

/-- The live values without the variable `i`. -/
theorem mem_set_none_iff : x ∈ (s.set i none).reduceOption ↔ ∃ j, j ≠ i ∧ s[j]? = some (some x) := by
  rw [List.reduceOption_mem_iff, List.mem_iff_getElem?]
  constructor
  · rintro ⟨j, hj⟩
    by_cases hij : i = j
    · subst hij
      rw [List.getElem?_set_self'] at hj
      cases hs : s[i]? with
      | none => simp [hs] at hj
      | some y => simp [hs] at hj
    · rw [List.getElem?_set_ne hij] at hj
      exact ⟨j, Ne.symm hij, hj⟩
  · rintro ⟨j, hij, hj⟩
    exact ⟨j, get_set_ne (Ne.symm hij) hj none⟩

theorem mem_live (h : s[i]? = some (some x)) : x ∈ s.reduceOption :=
  List.reduceOption_mem_iff.mpr (List.mem_of_getElem? h)

/-- A value goes from the variable `j` to the variable `i`, over what was there, and leaves `y`. -/
theorem perm_move {y : β} (hij : i ≠ j) (hi : i < s.length) (hj : s[j]? = some (some x)) :
    ((s.set j (some y)).set i (some x)).reduceOption.Perm (y :: (s.set i none).reduceOption) := by
  have hj' := get_set_ne hij hj none
  have hlen : j < (s.set i (some x)).length := by
    rw [List.length_set]
    exact lt_of_get hj
  rw [List.set_comm _ _ hij.symm]
  refine (perm_set_some hlen).trans (List.Perm.cons y ?_)
  rw [List.set_comm _ _ hij]
  refine (perm_set_some (by rw [List.length_set]; exact hi)).trans ?_
  rw [List.set_comm _ _ hij.symm]
  exact (perm_of_get hj').symm

end Library.Slots
