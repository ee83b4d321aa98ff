import Mathlib.Logic.Function.Basic

/-!
# A heap with an account of its deletions

A heap maps addresses to allocated values.  It also records how often each address was handed
out and taken back; the two differ exactly by what is allocated now (`Heap.balanced`), so
every allocated cell was allocated once more than it was freed, and every other cell was freed
exactly as often as it was allocated (`Heap.freed_once`).

The allocator may choose any address that is not in use.  `write` and `free` of a cell that is
not allocated have no result: an access to freed memory is an error of the program, never
another state.
-/

set_option autoImplicit false

namespace Library.Storage

abbrev Addr := Nat

variable {α : Type}

structure Heap (α : Type) where
  cell : Addr → Option α
  allocs : Addr → Nat
  frees : Addr → Nat
  balanced : ∀ a, allocs a = frees a + if (cell a).isSome then 1 else 0

def Heap.empty : Heap α := ⟨fun _ => none, fun _ => 0, fun _ => 0, fun _ => rfl⟩

/-- Allocate the free address `a`. -/
def Heap.alloc (h : Heap α) (a : Addr) (x : α) (hfree : h.cell a = none) : Heap α where
  cell := Function.update h.cell a (some x)
  allocs := Function.update h.allocs a (h.allocs a + 1)
  frees := h.frees
  balanced := by
    intro b
    by_cases hb : b = a
    · subst hb
      have := h.balanced b
      simp only [hfree, Option.isSome_none, Bool.false_eq_true, if_false] at this
      simp [this]
    · simp [Function.update_of_ne hb, h.balanced b]

/-- Overwrite an allocated cell. -/
def Heap.write (h : Heap α) (a : Addr) (x : α) : Option (Heap α) :=
  if hs : (h.cell a).isSome then
    some
      { cell := Function.update h.cell a (some x)
        allocs := h.allocs
        frees := h.frees
        balanced := by
          intro b
          rw [h.balanced b]
          by_cases hb : b = a
          · subst hb; simp [hs]
          · simp [Function.update_of_ne hb] }
  else none

/-- Delete an allocated cell. -/
def Heap.free (h : Heap α) (a : Addr) : Option (Heap α) :=
  if hs : (h.cell a).isSome then
    some
      { cell := Function.update h.cell a none
        allocs := h.allocs
        frees := Function.update h.frees a (h.frees a + 1)
        balanced := by
          intro b
          rw [h.balanced b]
          by_cases hb : b = a
          · subst hb; simp [hs]
          · simp [Function.update_of_ne hb] }
  else none

@[simp] theorem Heap.empty_cell (a : Addr) : (Heap.empty : Heap α).cell a = none := rfl

@[simp] theorem Heap.alloc_cell (h : Heap α) (a : Addr) (x : α) (hfree : h.cell a = none) :
    (h.alloc a x hfree).cell = Function.update h.cell a (some x) := rfl

/-- What is there after an allocation. -/
theorem Heap.alloc_eq_some {h : Heap α} {a b : Addr} {x y : α} (hfree : h.cell a = none) :
    (h.alloc a x hfree).cell b = some y ↔ (b = a ∧ y = x) ∨ h.cell b = some y := by
  rw [Heap.alloc_cell]
  by_cases hb : b = a
  · subst hb
    rw [Function.update_self, hfree, Option.some.injEq]
    simp [eq_comm]
  · simp [hb]

/-- What is there when one cell has been emptied. -/
theorem update_none_eq_some {f : Addr → Option α} {a b : Addr} {x : α} :
    Function.update f a none b = some x ↔ b ≠ a ∧ f b = some x := by
  by_cases hb : b = a
  · subst hb
    simp
  · simp [hb]

/-- Writing to an allocated cell succeeds and changes that cell only. -/
theorem Heap.write_of_some {h : Heap α} {a : Addr} {y : α} (hs : h.cell a = some y) (x : α) :
    ∃ h', h.write a x = some h' ∧ h'.cell = Function.update h.cell a (some x) := by
  unfold Heap.write
  rw [dif_pos (by rw [hs]; rfl)]
  exact ⟨_, rfl, rfl⟩

/-- Deleting an allocated cell succeeds and changes that cell only. -/
theorem Heap.free_of_some {h : Heap α} {a : Addr} {y : α} (hs : h.cell a = some y) :
    ∃ h', h.free a = some h' ∧ h'.cell = Function.update h.cell a none := by
  unfold Heap.free
  rw [dif_pos (by rw [hs]; rfl)]
  exact ⟨_, rfl, rfl⟩

/-- The number of deletions goes up by one at the address that is deleted. -/
theorem Heap.frees_of_free {h h' : Heap α} {a : Addr} (hf : h.free a = some h') :
    h'.frees = Function.update h.frees a (h.frees a + 1) := by
  unfold Heap.free at hf
  split at hf
  · cases hf
    rfl
  · cases hf

/-- What is not allocated has been freed as often as it was allocated. -/
theorem Heap.freed_once (h : Heap α) {a : Addr} (ha : h.cell a = none) :
    h.frees a = h.allocs a := by
  have := h.balanced a
  rw [ha] at this
  exact this.symm

end Library.Storage
