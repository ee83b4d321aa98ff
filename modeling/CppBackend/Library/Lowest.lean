import Mathlib.Data.Finset.Card
import Mathlib.Order.Interval.Finset.Nat

/-!
# The lowest number that is not in use

* `Lowest used n` — every number below `n` is in use, and `n` is not;
* `Lowest.lt_iff_card` — it is below a limit just if not all numbers below the limit are in use.
-/

set_option autoImplicit false

namespace Library.Descriptors

structure Lowest (used : Nat → Prop) (n : Nat) : Prop where
  free : ¬ used n
  below : ∀ k < n, used k

instance (used : Nat → Prop) [DecidablePred used] (n : Nat) : Decidable (Lowest used n) :=
  decidable_of_iff (¬ used n ∧ ∀ k < n, used k) ⟨fun h => ⟨h.1, h.2⟩, fun h => ⟨h.free, h.below⟩⟩

variable {used own others : Finset Nat} {n limit : Nat}

theorem Lowest.lt_iff_card (h : Lowest (· ∈ used) n) :
    n < limit ↔ (used.filter (· < limit)).card < limit := by
  have hsub : used.filter (· < limit) ⊆ Finset.range limit := fun k hk =>
    Finset.mem_range.mpr (Finset.mem_filter.mp hk).2
  constructor
  · intro hlt
    have hstrict : used.filter (· < limit) ⊂ Finset.range limit := by
      refine Finset.ssubset_iff_subset_ne.mpr ⟨hsub, fun heq => ?_⟩
      have hmem : n ∈ used.filter (· < limit) := heq.symm ▸ Finset.mem_range.mpr hlt
      exact h.free (Finset.mem_filter.mp hmem).1
    simpa using Finset.card_lt_card hstrict
  · intro hcard
    by_contra hge
    have hall : Finset.range limit ⊆ used.filter (· < limit) := fun k hk => by
      have hk := Finset.mem_range.mp hk
      exact Finset.mem_filter.mpr ⟨h.below k (by omega), hk⟩
    have hle := Finset.card_le_card hall
    rw [Finset.card_range] at hle
    omega

/-- Two kinds of numbers are in use, the second kind only below the limit. -/
theorem Lowest.lt_iff_card_add (h : Lowest (fun k => k ∈ own ∨ k ∈ others) n)
    (hdisjoint : Disjoint own others) (hothers : ∀ k ∈ others, k < limit) :
    n < limit ↔ (own.filter (· < limit)).card + others.card < limit := by
  have hunion : Lowest (· ∈ own ∪ others) n :=
    ⟨fun hn => h.free (Finset.mem_union.mp hn), fun k hk => Finset.mem_union.mpr (h.below k hk)⟩
  have hfilter : others.filter (· < limit) = others := Finset.filter_true_of_mem hothers
  rw [hunion.lt_iff_card, Finset.filter_union, hfilter, Finset.card_union_of_disjoint]
  exact hdisjoint.mono_left (Finset.filter_subset _ _)

end Library.Descriptors
