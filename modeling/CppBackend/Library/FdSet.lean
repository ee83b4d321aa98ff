import Mathlib.Data.Finset.Basic

/-!
# Sets of descriptors with a fixed number of bits

An `fd_set` has a bit for each number below `FD_SETSIZE`.  `FD_SET` and `FD_CLR` of another number write behind the
set: its bits stay as they are, and `beyond` tells that it has happened.  What lies behind the set is the business of
whoever has it.
-/

set_option autoImplicit false

namespace Library.Descriptors

def fdSetSize : Nat := 1024

structure FdSet where
  bits : Finset Nat
  bounded : ∀ fd ∈ bits, fd < fdSetSize
  deriving DecidableEq

/-- The number has no bit. -/
def beyond (fd : Nat) : Bool := fdSetSize ≤ fd

/-- `FD_ZERO`. -/
def FdSet.zero : FdSet := ⟨∅, fun _ h => absurd h (Finset.notMem_empty _)⟩

/-- `FD_SET`. -/
def FdSet.set (r : FdSet) (fd : Nat) : FdSet :=
  if h : fd < fdSetSize then
    ⟨insert fd r.bits, fun f hf => (Finset.mem_insert.mp hf).elim (fun he => he ▸ h) (r.bounded f)⟩
  else r

/-- `FD_CLR`. -/
def FdSet.clr (r : FdSet) (fd : Nat) : FdSet :=
  ⟨r.bits.erase fd, fun f hf => r.bounded f (Finset.mem_of_mem_erase hf)⟩

variable {r : FdSet} {fd f : Nat}

@[simp] theorem beyond_eq_false : beyond fd = false ↔ fd < fdSetSize := by
  simp [beyond]

@[simp] theorem beyond_eq_true : beyond fd = true ↔ fdSetSize ≤ fd := by
  simp [beyond]

theorem set_bits (h : fd < fdSetSize) : (r.set fd).bits = insert fd r.bits := by
  simp [FdSet.set, h]

theorem set_beyond (h : fdSetSize ≤ fd) : r.set fd = r := by
  simp [FdSet.set, Nat.not_lt.mpr h]

@[simp] theorem clr_bits : (r.clr fd).bits = r.bits.erase fd := rfl

theorem bits_subset_set : r.bits ⊆ (r.set fd).bits := by
  rcases Nat.lt_or_ge fd fdSetSize with h | h
  · rw [set_bits h]
    exact Finset.subset_insert fd r.bits
  · rw [set_beyond h]

end Library.Descriptors
