import Mathlib.Data.List.Sort

/-!
# Priority queues

The documented behaviour of `std::priority_queue<T, std::vector<T>, Compare>`: the elements stand in
an array in an arrangement that every operation keeps, and the front of the array, which is
`top()`, compares less than no other element.

* `PriorityQueue lt` — the operations, for the comparison `lt`;
* `PriorityQueue.descending` — one of them, for a comparison of keys: a list in descending order;
* `Leads a b` — `a` leaves the queue before `b`; no operation breaks it when `b` compares less
  than `a` (`Leads.push`, `Leads.pop`).
-/

set_option autoImplicit false

namespace Library.Priority

variable {α κ : Type} {lt : α → α → Prop}

structure PriorityQueue (lt : α → α → Prop) where
  /-- The arrangements of the array that the operations keep. -/
  Ordered : List α → Prop
  push : List α → α → List α
  pop : List α → List α
  ordered_nil : Ordered []
  ordered_push : ∀ {q} x, Ordered q → Ordered (push q x)
  ordered_pop : ∀ {q}, Ordered q → Ordered (pop q)
  push_perm : ∀ q x, (push q x).Perm (q ++ [x])
  pop_perm : ∀ q, (pop q).Perm q.tail
  not_lt_front : ∀ {x q y}, Ordered (x :: q) → y ∈ q → ¬ lt x y

/-- A list in descending order of the keys. -/
def PriorityQueue.descending [LinearOrder κ] (key : α → κ) (hkey : ∀ a b, lt a b ↔ key a < key b) :
    PriorityQueue lt where
  Ordered q := q.Pairwise fun a b => key b ≤ key a
  push q x := q.orderedInsert (fun a b => key b ≤ key a) x
  pop q := q.tail
  ordered_nil := List.Pairwise.nil
  ordered_push x h := by
    have htotal : Std.Total fun a b => key b ≤ key a := ⟨fun a b => le_total (key b) (key a)⟩
    have htrans : IsTrans α fun a b => key b ≤ key a := ⟨fun _ _ _ hab hbc => le_trans hbc hab⟩
    exact h.orderedInsert x _
  ordered_pop h := h.tail
  push_perm q x := (List.perm_orderedInsert _ x q).trans (List.perm_append_singleton x q).symm
  pop_perm _ := List.Perm.refl _
  not_lt_front h hy := by
    rw [hkey]
    exact not_lt.mpr (List.rel_of_pairwise_cons h hy)

variable {Q : PriorityQueue lt} {q gone : List α} {a b x : α}

theorem PriorityQueue.mem_push : a ∈ Q.push q x ↔ a ∈ q ∨ a = x := by
  rw [(Q.push_perm q x).mem_iff, List.mem_append, List.mem_singleton]

/-- Of `a` and `b`, `a` is the one that leaves first: it is in the queue and `b` has not left, or it has
    left and `b` had not left before. -/
def Leads (a b : α) (q gone : List α) : Prop :=
  (a ∈ q ∧ b ∉ gone) ∨ ∃ xs ys, gone = xs ++ a :: ys ∧ b ∉ xs

theorem Leads.push (h : Leads a b q gone) : Leads a b (Q.push q x) gone := by
  rcases h with ⟨ha, hb⟩ | h
  · exact Or.inl ⟨Q.mem_push.mpr (Or.inl ha), hb⟩
  · exact Or.inr h

/-- **The front is not `b` while `a` is in the queue.** -/
theorem Leads.pop (h : Leads a b (x :: q) gone) (ho : Q.Ordered (x :: q)) (hlt : lt b a) :
    Leads a b (Q.pop (x :: q)) (gone ++ [x]) := by
  rcases h with ⟨ha, hb⟩ | ⟨xs, ys, rfl, hb⟩
  · rcases List.mem_cons.mp ha with rfl | hrest
    · exact Or.inr ⟨gone, [], rfl, hb⟩
    · refine Or.inl ⟨(Q.pop_perm (x :: q)).mem_iff.mpr hrest, ?_⟩
      rw [List.mem_append, List.mem_singleton]
      rintro (hg | rfl)
      · exact hb hg
      · exact Q.not_lt_front ho hrest hlt
  · exact Or.inr ⟨xs, ys ++ [x], by rw [List.append_assoc, List.cons_append], hb⟩

end Library.Priority
