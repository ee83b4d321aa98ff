import CppBackend.StrategyMode.Model

/-!
# The strategies are interchangeable

The inner loop carries the largest element of the unsettled part to its end (`Inner.Inv`), the outer
loop settles one element more with every pass (`Outer.Inv`).

* `inner_spec` — the inner loop, on a body before a settled end;
* `sort_spec` — `BubbleSort::sort` returns the ascending permutation;
* `interchangeable` — it agrees with `QuickSort::sort`, and stays inside the vector;
* `sortData_interchangeable` — what `Sorter::sortData` prints.
-/

set_option autoImplicit false

namespace CppBackend.StrategyMode

open Library.Loop Library.Sorting

theorem get_natCast (vec : List Int) (k : Nat) : get vec k = vec[k]? := by
  simp [get]

namespace BubbleSort

variable {n i : Int} {vec body top : List Int}

theorem size_eq (h : vec.length < 2 ^ 31) : size vec = vec.length := by
  unfold size
  rw [BitVec.toInt_eq_toNat_of_lt]
  · simp only [BitVec.toNat_ofNat]
    omega
  · simp only [BitVec.toNat_ofNat]
    omega

/-! ## The inner loop -/

/-- At the head of the inner loop: the element at `j` is the largest one so far. -/
structure Inner.Peak (n i : Int) (body top pre : List Int) (m : Int) (rest : List Int) (s : Inner) :
    Prop where
  vec : s.vec = pre ++ m :: (rest ++ top)
  j : s.j = pre.length
  bound : n - i - 1 = pre.length + rest.length
  largest : ∀ x ∈ pre, x ≤ m
  perm : (pre ++ m :: rest).Perm body

def Inner.Inv (n i : Int) (body top : List Int) (s : Inner) : Prop :=
  ∃ pre m rest, Inner.Peak n i body top pre m rest s

variable {s s' : Inner} {r : Sorted} {pre rest : List Int} {m y : Int}

theorem Inner.Inv.init (hbound : n - i - 1 = rest.length) :
    Inner.Inv n i (m :: rest) top ⟨m :: rest ++ top, 0⟩ :=
  ⟨[], m, rest, rfl, rfl, by simpa using hbound, by simp, List.Perm.refl _⟩

/-- The two accesses of a pass. -/
theorem Inner.Peak.accesses (h : Inner.Peak n i body top pre m (y :: rest) s) :
    get s.vec s.j = some m ∧ get s.vec (s.j + 1) = some y := by
  constructor
  · rw [h.j, get_natCast, h.vec]
    simp
  · have hj : s.j + 1 = ((pre.length + 1 : Nat) : Int) := by
      rw [h.j]
      simp
    rw [hj, get_natCast, h.vec]
    simp

theorem Inner.Peak.swapped (h : Inner.Peak n i body top pre m (y :: rest) s) (hgt : m > y) :
    Inner.Peak n i body top (pre ++ [y]) m rest ⟨swap s.vec s.j.toNat (s.j + 1).toNat, s.j + 1⟩ := by
  have hj := h.j
  have hbound := h.bound
  refine ⟨?_, ?_, ?_, ?_, ?_⟩
  · have h0 : s.j.toNat = pre.length := by omega
    have h1 : (s.j + 1).toNat = pre.length + 1 := by omega
    show swap s.vec s.j.toNat (s.j + 1).toNat = _
    rw [h0, h1, h.vec, List.cons_append, swap_adjacent]
    simp
  · simp [hj]
  · simp only [List.length_cons, List.length_append, List.length_nil] at hbound ⊢
    omega
  · intro x hx
    rcases List.mem_append.mp hx with hx | hx
    · exact h.largest x hx
    · rw [List.mem_singleton.mp hx]
      omega
  · apply List.Perm.trans _ h.perm
    rw [List.append_assoc]
    exact (List.Perm.swap m y rest).append_left pre

theorem Inner.Peak.kept (h : Inner.Peak n i body top pre m (y :: rest) s) (hle : ¬ m > y) :
    Inner.Peak n i body top (pre ++ [m]) y rest ⟨s.vec, s.j + 1⟩ := by
  have hj := h.j
  have hbound := h.bound
  refine ⟨?_, ?_, ?_, ?_, ?_⟩
  · simp [h.vec]
  · simp [hj]
  · simp only [List.length_cons, List.length_append, List.length_nil] at hbound ⊢
    omega
  · intro x hx
    rcases List.mem_append.mp hx with hx | hx
    · have hxm := h.largest x hx
      omega
    · rw [List.mem_singleton.mp hx]
      omega
  · simpa using h.perm

/-- Below the bound of the loop there is a next element. -/
theorem Inner.Peak.next (h : Inner.Peak n i body top pre m rest s) (hlt : s.j < n - i - 1) :
    ∃ y rest', rest = y :: rest' := by
  cases rest with
  | nil =>
    have hj := h.j
    have hbound := h.bound
    simp only [List.length_nil] at hbound
    omega
  | cons y rest' => exact ⟨y, rest', rfl⟩

theorem inner_again (hi : Inner.Inv n i body top s) (h : innerStep n i s = .again s') :
    Inner.Inv n i body top s' ∧ (n - i - 1 - s'.j).toNat < (n - i - 1 - s.j).toNat := by
  obtain ⟨pre, m, rest, hp⟩ := hi
  unfold innerStep at h
  split at h
  · rename_i hlt
    obtain ⟨y, rest', rfl⟩ := hp.next hlt
    obtain ⟨hm, hy⟩ := hp.accesses
    simp only [hm, hy] at h
    split at h
    · rename_i hgt
      cases h
      exact ⟨⟨_, _, _, hp.swapped hgt⟩, by simp only; omega⟩
    · rename_i hle
      cases h
      exact ⟨⟨_, _, _, hp.kept hle⟩, by simp only; omega⟩
  · cases h

/-- What the inner loop leaves: a largest element of the body at its end. -/
def Carried (n i : Int) (body top : List Int) (r : Sorted) : Prop :=
  ∃ pre m, r = .vec (pre ++ m :: top) ∧ (∀ x ∈ pre, x ≤ m) ∧ (pre ++ [m]).Perm body ∧
    n - i - 1 = pre.length

theorem inner_done (hi : Inner.Inv n i body top s) (h : innerStep n i s = .done r) :
    Carried n i body top r := by
  obtain ⟨pre, m, rest, hp⟩ := hi
  unfold innerStep at h
  split at h
  · rename_i hlt
    obtain ⟨y, rest', rfl⟩ := hp.next hlt
    obtain ⟨hm, hy⟩ := hp.accesses
    simp only [hm, hy] at h
    split at h <;> cases h
  · rename_i hge
    have hj := hp.j
    have hbound := hp.bound
    have hrest : rest = [] := by
      apply List.length_eq_zero_iff.mp
      omega
    subst hrest
    cases h
    refine ⟨pre, m, ?_, hp.largest, hp.perm, ?_⟩
    · rw [hp.vec]
      simp
    · simpa using hbound

/-- **The inner loop** ends with a largest element of the body at the end of the body. -/
theorem inner_spec (hbound : n - i - 1 = rest.length) :
    ∃ r, inner n i (m :: rest ++ top) = some r ∧ Carried n i (m :: rest) top r := by
  apply run_spec (I := Inner.Inv n i (m :: rest) top)
    (μ := fun s : Inner => (n - i - 1 - s.j).toNat)
  · intro s s' hi h
    exact inner_again hi h
  · intro s r hi h
    exact inner_done hi h
  · exact Inner.Inv.init hbound
  · simp only
    omega

/-! ## The outer loop -/

/-- At the head of the outer loop: the last `i` elements are settled. -/
structure Outer.Parted (vec body top : List Int) (o : Outer) : Prop where
  split : o.vec = body ++ top
  settled : Settled body top
  i : o.i = top.length
  perm : (body ++ top).Perm vec

def Outer.Inv (vec : List Int) (o : Outer) : Prop := ∃ body top, Outer.Parted vec body top o

variable {o o' : Outer}

theorem Outer.Inv.init (vec : List Int) : Outer.Inv vec ⟨vec, 0⟩ :=
  ⟨vec, [], by simp, Settled.nil vec, rfl, by simp⟩

theorem Outer.Parted.length (h : Outer.Parted vec body top o) :
    (body.length : Int) = vec.length - o.i := by
  have hlen := h.perm.length_eq
  have hi := h.i
  rw [List.length_append] at hlen
  omega

/-- Below the bound of the outer loop the body is not empty. -/
theorem Outer.Parted.body_cons (h : Outer.Parted vec body top o) (hlt : o.i < vec.length - 1) :
    ∃ m rest, body = m :: rest ∧ (vec.length : Int) - o.i - 1 = rest.length := by
  have hlen := h.length
  cases body with
  | nil =>
    simp only [List.length_nil] at hlen
    omega
  | cons m rest =>
    simp only [List.length_cons] at hlen
    exact ⟨m, rest, rfl, by omega⟩

/-- A pass of the outer loop settles the element that the inner loop carries up. -/
theorem Outer.Parted.carry (h : Outer.Parted vec body top o)
    (hlt : o.i < vec.length - 1) : ∃ pre m, inner vec.length o.i o.vec = some (.vec (pre ++ m :: top)) ∧
      Outer.Parted vec pre (m :: top) ⟨pre ++ m :: top, o.i + 1⟩ := by
  obtain ⟨b, rest, rfl, hbound⟩ := h.body_cons hlt
  obtain ⟨r, hr, pre, m, rfl, hlargest, hperm, -⟩ :
      ∃ r, inner vec.length o.i (b :: rest ++ top) = some r ∧
        Carried vec.length o.i (b :: rest) top r := inner_spec hbound
  refine ⟨pre, m, ?_, rfl, (h.settled.perm hperm).extend hlargest, ?_, ?_⟩
  · rw [h.split]
    exact hr
  · simp [h.i]
  · have hall := hperm.append_right top
    rw [List.append_assoc] at hall
    exact hall.trans h.perm

theorem outer_again (hi : Outer.Inv vec o) (h : outerStep vec.length o = .again o') :
    Outer.Inv vec o' ∧ ((vec.length : Int) - o'.i).toNat < ((vec.length : Int) - o.i).toNat := by
  obtain ⟨body, top, hp⟩ := hi
  unfold outerStep at h
  split at h
  · rename_i hlt
    obtain ⟨pre, m, hinner, hp'⟩ := hp.carry hlt
    simp only [hinner] at h
    cases h
    exact ⟨⟨pre, m :: top, hp'⟩, by simp only; omega⟩
  · cases h

/-- The ascending permutation of the vector. -/
def IsSorted (vec : List Int) (r : Option Sorted) : Prop :=
  ∃ v, r = some (.vec v) ∧ v.Perm vec ∧ v.Pairwise (· ≤ ·)

theorem outer_done {r : Option Sorted} (hi : Outer.Inv vec o)
    (h : outerStep vec.length o = .done r) : IsSorted vec r := by
  obtain ⟨body, top, hp⟩ := hi
  unfold outerStep at h
  split at h
  · rename_i hlt
    obtain ⟨pre, m, hinner, -⟩ := hp.carry hlt
    simp only [hinner] at h
    cases h
  · rename_i hge
    cases h
    have hlen := hp.length
    refine ⟨_, rfl, ?_, ?_⟩
    · rw [hp.split]
      exact hp.perm
    · rw [hp.split]
      exact hp.settled.pairwise (by omega)

/-- **`BubbleSort::sort`** ends with the ascending permutation of the vector. -/
theorem sort_spec (h : vec.length < 2 ^ 31) : IsSorted vec (sort vec) := by
  unfold sort
  rw [size_eq h]
  have hrun : ∃ r, run (outerStep vec.length) ((vec.length : Int).toNat + 1) ⟨vec, 0⟩ = some r ∧
      IsSorted vec r :=
    run_spec (μ := fun o : Outer => ((vec.length : Int) - o.i).toNat)
      (fun _ _ hi hs => outer_again hi hs) (fun _ _ hi hs => outer_done hi hs) (Outer.Inv.init vec)
      (by simp)
  obtain ⟨r, hr, hsorted⟩ := hrun
  rw [hr]
  exact hsorted

/-- The accesses of the nested loops, wherever they are made. -/
theorem accesses_inside (h : vec.length < 2 ^ 31)
    (ho : Heads (outerStep (size vec)) ⟨vec, 0⟩ o) (hi : o.i < size vec - 1)
    (hs : Heads (innerStep (size vec) o.i) ⟨o.vec, 0⟩ s) (hj : s.j < size vec - o.i - 1) :
    0 ≤ s.j ∧ s.j + 1 < s.vec.length := by
  rw [size_eq h] at ho hi hs hj
  obtain ⟨body, top, hp⟩ := Heads.invariant (Outer.Inv.init vec)
    (fun _ _ hi hs => (outer_again hi hs).1) ho
  obtain ⟨b, rest, rfl, hbound⟩ := hp.body_cons hi
  have hinit : Inner.Inv vec.length o.i (b :: rest) top ⟨o.vec, 0⟩ := by
    rw [hp.split]
    exact Inner.Inv.init hbound
  obtain ⟨pre, m, rest', hpeak⟩ := Heads.invariant hinit (fun _ _ hi hs => (inner_again hi hs).1) hs
  obtain ⟨y, rest'', rfl⟩ := hpeak.next hj
  have hlen : s.vec.length = pre.length + 1 + (rest'' ++ top).length + 1 := by
    rw [hpeak.vec]
    simp
    omega
  have hpre := hpeak.j
  omega

end BubbleSort

/-- **The strategies are interchangeable**: bubble sort ends with the ascending permutation, which is the
    vector that `std::sort` leaves, and no access of its loops is outside of the vector. -/
theorem interchangeable (stdSort : List Int → List Int) (hstd : Sorts stdSort) (vec : List Int)
    (hsize : vec.length < 2 ^ 31) :
    BubbleSort.sort vec = QuickSort.sort stdSort vec ∧
    BubbleSort.IsSorted vec (BubbleSort.sort vec) ∧
    ∀ o s, Heads (BubbleSort.outerStep (BubbleSort.size vec)) ⟨vec, 0⟩ o →
      o.i < BubbleSort.size vec - 1 →
      Heads (BubbleSort.innerStep (BubbleSort.size vec) o.i) ⟨o.vec, 0⟩ s →
      s.j < BubbleSort.size vec - o.i - 1 → 0 ≤ s.j ∧ s.j + 1 < s.vec.length := by
  have hsorted := BubbleSort.sort_spec hsize
  refine ⟨?_, hsorted, fun o s ho hi hs hj => BubbleSort.accesses_inside hsize ho hi hs hj⟩
  obtain ⟨v, hv, hperm, hasc⟩ := hsorted
  rw [hv, QuickSort.sort, hstd.eq hperm hasc]

/-- The vector of `main`. -/
theorem interchangeable_main :
    BubbleSort.sort [5, 2, 9, 1, 5, 6] =
      QuickSort.sort (fun l => l.insertionSort (· ≤ ·)) [5, 2, 9, 1, 5, 6] :=
  (interchangeable _ sorts_insertionSort [5, 2, 9, 1, 5, 6] (by decide)).1

/-- Behind the line that names the strategy, `sortData` prints and leaves the same with each of them. -/
theorem sortData_interchangeable (stdSort : List Int → List Int) (hstd : Sorts stdSort)
    (s : SortStrategy) (vec : List Int) (hsize : vec.length < 2 ^ 31) :
    Sorter.sortData stdSort (some s) vec =
      some ⟨stdSort vec, [s.banner, Sorter.shown (stdSort vec)], []⟩ := by
  obtain ⟨v, hv, hperm, hasc⟩ := BubbleSort.sort_spec hsize
  cases s with
  | bubbleSort => simp only [Sorter.sortData, SortStrategy.sort, hv, hstd.eq hperm hasc]
  | quickSort => rfl

example : BubbleSort.sort [5, 2, 9, 1, 5, 6] = some (.vec [1, 2, 5, 5, 6, 9]) := by decide

end CppBackend.StrategyMode
