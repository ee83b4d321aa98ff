import Mathlib.Data.Set.Lattice

/-!
# What a holder keeps alive

Objects are held by holders, and a holder can be inside of an object.  When the holder `a` lets go,
an object dies if nothing else holds it, and the holders inside of an object that dies let go in
turn.  `Released` is the least set that is closed under this rule: the objects that `a` keeps alive,
directly or through other objects.
-/

set_option autoImplicit false

namespace Library.Releases

variable {ι α : Type} (holds inside : ι → α → Prop) (a : ι)

/-- The set contains every object that is held only by `a` and from inside of the set. -/
def Closed (S : Set α) : Prop :=
  ∀ x, (∃ i, holds i x) → (∀ i, holds i x → i = a ∨ ∃ y ∈ S, inside i y) → x ∈ S

def Released : Set α := ⋂₀ {S | Closed holds inside a S}

variable {holds inside a}

theorem released_subset {S : Set α} (hS : Closed holds inside a S) :
    Released holds inside a ⊆ S :=
  Set.sInter_subset_of_mem hS

theorem released_closed : Closed holds inside a (Released holds inside a) := by
  intro x hx hall S hS
  refine hS x hx fun i hi => ?_
  rcases hall i hi with rfl | ⟨y, hy, hin⟩
  · exact Or.inl rfl
  · exact Or.inr ⟨y, released_subset hS hy, hin⟩

end Library.Releases
