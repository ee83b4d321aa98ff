import Mathlib.Data.List.Sort

/-!
# Sorting in place

* `swap` — exchange two elements of a list by their indices;
* `Sorts f` — `f` sorts; it has the one ascending permutation as its result (`Sorts.eq`);
* `Settled body top` — the elements of `top` are where a sorted list has them: they are ascending,
  and no element of `body`, which stands before them, is larger.
-/

set_option autoImplicit false

namespace Library.Sorting

variable {α : Type}

/-! ## Exchanging elements -/

/-- Exchange the elements at two indices. -/
def swap (l : List α) (i j : Nat) : List α :=
  match l[i]?, l[j]? with
  | some a, some b => (l.set i b).set j a
  | _, _ => l

theorem swap_adjacent (pre post : List α) (a b : α) :
    swap (pre ++ a :: b :: post) pre.length (pre.length + 1) = pre ++ b :: a :: post := by
  have h0 : (pre ++ a :: b :: post)[pre.length]? = some a := by simp
  have h1 : (pre ++ a :: b :: post)[pre.length + 1]? = some b := by simp
  unfold swap
  rw [h0, h1]
  simp

/-! ## What sorting is -/

variable [LinearOrder α]

structure Sorts (f : List α → List α) : Prop where
  perm : ∀ l, (f l).Perm l
  ascending : ∀ l, (f l).Pairwise (· ≤ ·)

/-- A list has one ascending permutation. -/
theorem Sorts.eq {f : List α → List α} (h : Sorts f) {l r : List α} (hperm : r.Perm l)
    (hasc : r.Pairwise (· ≤ ·)) : f l = r :=
  ((h.perm l).trans hperm.symm).eq_of_pairwise' (h.ascending l) hasc

theorem sorts_insertionSort : Sorts (fun l : List α => l.insertionSort (· ≤ ·)) :=
  ⟨List.perm_insertionSort _, List.pairwise_insertionSort _⟩

/-! ## The end of a list that is sorted already -/

structure Settled (body top : List α) : Prop where
  ascending : top.Pairwise (· ≤ ·)
  above : ∀ x ∈ body, ∀ y ∈ top, x ≤ y

theorem Settled.nil (body : List α) : Settled body [] :=
  ⟨List.Pairwise.nil, fun _ _ _ hy => absurd hy List.not_mem_nil⟩

variable {body body' top : List α}

theorem Settled.perm (h : Settled body top) (hp : body'.Perm body) : Settled body' top :=
  ⟨h.ascending, fun x hx => h.above x (hp.mem_iff.mp hx)⟩

/-- The last element of the body is settled once it is the largest one. -/
theorem Settled.extend {pre : List α} {m : α} (h : Settled (pre ++ [m]) top)
    (hm : ∀ x ∈ pre, x ≤ m) : Settled pre (m :: top) := by
  refine ⟨List.pairwise_cons.mpr ⟨fun y hy => ?_, h.ascending⟩, fun x hx y hy => ?_⟩
  · apply h.above m _ y hy
    simp
  · rcases List.mem_cons.mp hy with rfl | hy
    · exact hm x hx
    · apply h.above x _ y hy
      simp [hx]

/-- A single element before a settled end makes a sorted list. -/
theorem Settled.pairwise (h : Settled body top) (hlen : body.length ≤ 1) :
    (body ++ top).Pairwise (· ≤ ·) := by
  refine List.pairwise_append.mpr ⟨?_, h.ascending, h.above⟩
  match body, hlen with
  | [], _ => exact List.Pairwise.nil
  | [x], _ => exact List.pairwise_singleton _ x

end Library.Sorting
