import CppBackend.UniquePtr.Model
import CppBackend.Library.Keyed

/-!
# Exclusive ownership

`Owned objects hs` relates the heap to the live handles `hs`, in any order: an allocated object has
exactly one holder among them, every other address has none.

* `delete_spec`, `eval_spec` — deleting the object of a handle takes that handle away, a new pointer
  adds one;
* `apply_spec` — every operation keeps this law and does not fault, and it deletes the object that the
  handle it destroys, resets or overwrites has held, and no other one (`Deletes`);
* `unique_ptr_exclusive` — the law in every reachable state, slot by slot (`Exclusive`).
-/

set_option autoImplicit false

namespace CppBackend.UniquePtr

open Library.Storage Library.Transition Library.Slots Library.Keyed

variable {T : Type} {objects objects' : Heap T} {hs hs' : List Handle} {h : Handle} {a : Addr}

/-- How many of the handles hold the object at `a`. -/
def holders (a : Addr) (hs : List Handle) : Nat := keyed Handle.ptr a hs

def Owned (objects : Heap T) (hs : List Handle) : Prop :=
  ∀ a, holders a hs = if (objects.cell a).isSome then 1 else 0

theorem holders_cons (a : Addr) (h : Handle) (hs : List Handle) :
    holders a (h :: hs) = holders a hs + if h.ptr = some a then 1 else 0 :=
  keyed_cons _ a h hs

theorem holders_pos : 0 < holders a hs ↔ ∃ h ∈ hs, h.ptr = some a := keyed_pos

/-- An object is allocated when it has its one holder. -/
def Owns (objects : Heap T) (a : Addr) (n : Nat) : Prop := n = if (objects.cell a).isSome then 1 else 0

theorem Owned.census (ho : Owned objects hs) : Census Handle.ptr (Owns objects) hs := ho

/-- The order of the handles does not matter. -/
theorem Owned.perm (ho : Owned objects hs) (hp : hs.Perm hs') : Owned objects hs' := ho.census.perm hp

/-- A null handle owns nothing. -/
theorem Owned.add_null (ho : Owned objects hs) : Owned objects (⟨none⟩ :: hs) :=
  (census_cons_none rfl).mpr ho.census

/-- A handle that is not null holds an allocated object. -/
theorem Owned.allocated (ho : Owned objects hs) (hm : h ∈ hs) (hp : h.ptr = some a) :
    ∃ x, objects.cell a = some x := by
  have hpos : 0 < holders a hs := holders_pos.mpr ⟨h, hm, hp⟩
  rw [ho a] at hpos
  split at hpos
  · rename_i hsome
    exact Option.isSome_iff_exists.mp hsome
  · omega

/-! ## One handle less, one handle more -/

/-- The heap after the object of `p` has been deleted, and nothing else. -/
structure Without (objects objects' : Heap T) (p : Option Addr) : Prop where
  frees : ∀ a, objects'.frees a = objects.frees a + if p = some a then 1 else 0
  gone : ∀ a, p = some a → objects'.cell a = none
  kept : ∀ a, p ≠ some a → objects'.cell a = objects.cell a

/-- **`delete`** on the pointer of an owner succeeds and takes the owner away. -/
theorem delete_spec (ho : Owned objects (h :: hs)) :
    ∃ objects', delete objects h.ptr = .ok objects' ∧ Owned objects' hs ∧
      Without objects objects' h.ptr := by
  cases hp : h.ptr with
  | none =>
    exact ⟨objects, rfl, (census_cons_none hp).mp ho.census, fun a => by simp, fun a he => (nomatch he),
      fun _ _ => rfl⟩
  | some a =>
    obtain ⟨x, hx⟩ := ho.allocated List.mem_cons_self hp
    obtain ⟨objects', hfree, hcell⟩ := Heap.free_of_some hx
    have hfrees := Heap.frees_of_free hfree
    refine ⟨objects', ?_, ho.census.leave (S := Owns objects') hp (fun b n hb hn => ?_) ?_,
      fun b => ?_, fun b hb => ?_, fun b hb => ?_⟩
    · unfold delete
      simp only [hfree]
    · unfold Owns
      rw [hcell, Function.update_of_ne hb]
      exact hn
    · have hone := ho a
      rw [holders_cons, hp, hx] at hone
      show holders a hs = if (objects'.cell a).isSome then 1 else 0
      rw [hcell, Function.update_self]
      simpa using hone
    · rw [hfrees]
      by_cases hb : b = a
      · subst hb
        simp
      · simp [Function.update_of_ne hb, Ne.symm hb]
    · cases hb
      rw [hcell, Function.update_self]
    · rw [hcell, Function.update_of_ne]
      rintro rfl
      exact hb rfl

/-- **A new pointer** adds its owner, and touches no object that there is. -/
theorem eval_spec {p : Source T} {q : Option Addr} (ho : Owned objects hs)
    (h : p.eval objects = some (objects', q)) : Owned objects' (⟨q⟩ :: hs) ∧
      objects'.frees = objects.frees ∧
      ∀ a x, objects.cell a = some x → objects'.cell a = some x := by
  cases p with
  | null =>
    cases h
    exact ⟨ho.add_null, rfl, fun _ _ hx => hx⟩
  | new a x =>
    unfold Source.eval at h
    simp only at h
    split at h
    · rename_i ha
      cases h
      refine ⟨ho.census.join (k := a) (S := Owns (objects.alloc a x ha)) rfl (fun b n hb hn => ?_) ?_, rfl,
        fun b y hy => ?_⟩
      · unfold Owns
        rw [Heap.alloc_cell, Function.update_of_ne hb]
        exact hn
      · have hzero := ho a
        rw [ha] at hzero
        show holders a hs + 1 = if ((objects.alloc a x ha).cell a).isSome then 1 else 0
        rw [hzero, Heap.alloc_cell, Function.update_self]
        rfl
      · rw [Heap.alloc_cell, Function.update_of_ne, hy]
        rintro rfl
        rw [ha] at hy
        cases hy
    · cases h

/-! ## Each operation -/

variable {m m' : Machine T} {i j : Nat} {op : Op T}

/-- The live handles. -/
def Machine.live (m : Machine T) : List Handle := m.slots.reduceOption

def Managed (m : Machine T) : Prop := Owned m.objects m.live

/-- The pointer of the handle that the operation destroys, resets or overwrites. -/
def Machine.givesUp (m : Machine T) : Op T → Option Addr
  | .moveAssign i j => if i = j then none else (m.handle i).bind Handle.ptr
  | .destroy i => (m.handle i).bind Handle.ptr
  | .reset i _ => (m.handle i).bind Handle.ptr
  | _ => none

/-- The step deletes the object that `givesUp` names, once, and no other one. -/
structure Deletes (m : Machine T) (op : Op T) (m' : Machine T) : Prop where
  frees : ∀ a, m'.objects.frees a = m.objects.frees a + if m.givesUp op = some a then 1 else 0
  gone : ∀ a, m.givesUp op = some a → m'.objects.cell a = none
  kept : ∀ a x, m.objects.cell a = some x → m.givesUp op ≠ some a → m'.objects.cell a = some x

theorem handle_some : m.handle i = some h ↔ m.slots[i]? = some (some h) := by
  unfold Machine.handle
  exact Option.join_eq_some_iff

theorem vacant_iff : m.vacant i = true ↔ m.slots[i]? = some none := by
  unfold Machine.vacant
  exact beq_iff_eq

theorem mem_live_iff : h ∈ m.live ↔ ∃ i, m.handle i = some h := by
  unfold Machine.live
  simp only [handle_some]
  rw [List.reduceOption_mem_iff, List.mem_iff_getElem?]

/-- Putting a handle into the slot `i`, over what was there. -/
theorem Owned.put {slots : List (Option Handle)} (hi : i < slots.length)
    (ho : Owned objects (h :: (slots.set i none).reduceOption)) :
    Managed ⟨objects, slots.set i (some h)⟩ :=
  ho.perm (perm_set_some hi).symm

theorem Deletes.of_without (h : Without m.objects m'.objects (m.givesUp op)) : Deletes m op m' := by
  refine ⟨h.frees, h.gone, fun a x hx hne => ?_⟩
  rw [h.kept a hne, hx]

theorem Deletes.of_same (hnone : m.givesUp op = none) (hf : m'.objects.frees = m.objects.frees)
    (hc : ∀ a x, m.objects.cell a = some x → m'.objects.cell a = some x) : Deletes m op m' := by
  refine ⟨fun a => ?_, fun a ha => ?_, fun a x hx _ => hc a x hx⟩
  · rw [hf, hnone]
    simp
  · rw [hnone] at ha
    cases ha

theorem construct_managed (hm : Managed m) {p : Source T} (h : m.construct i p = some m') :
    Managed m' ∧ m'.objects.frees = m.objects.frees ∧
      ∀ a x, m.objects.cell a = some x → m'.objects.cell a = some x := by
  unfold Machine.construct at h
  split at h
  · rename_i objects q hi hp
    cases h
    have hi' := vacant_iff.mp hi
    obtain ⟨ho, hfrees, hkept⟩ := eval_spec hm hp
    refine ⟨Owned.put (lt_of_get hi') ?_, hfrees, hkept⟩
    rw [set_eq_of_get hi']
    exact ho
  · cases h

/-- The pointer of the handle `h` leaves the slot `j`, which becomes null, for the slot `i`, which no
    live handle uses any more. -/
theorem move_managed (hi : i < m.slots.length) (hij : i ≠ j) (hj : m.slots[j]? = some (some h))
    (ho : Owned objects (m.slots.set i none).reduceOption) :
    Managed ⟨objects, (m.slots.set j (some ⟨none⟩)).set i (some ⟨h.ptr⟩)⟩ :=
  ho.add_null.perm (perm_move hij hi hj).symm

/-- **Every operation keeps the ownership law**, succeeds, and deletes what it gives up. -/
theorem apply_spec (hm : Managed m) {s' : State T} (h : m.apply op = some s') :
    ∃ m', s' = .ok m' ∧ Managed m' ∧ Deletes m op m' := by
  cases op with
  | construct i p =>
    obtain ⟨m', hm', rfl⟩ := Option.map_eq_some_iff.mp h
    obtain ⟨hmanaged, hfrees, hkept⟩ := construct_managed hm hm'
    exact ⟨m', rfl, hmanaged, .of_same rfl hfrees hkept⟩
  | makeUnique i a x =>
    obtain ⟨m', hm', rfl⟩ := Option.map_eq_some_iff.mp h
    obtain ⟨hmanaged, hfrees, hkept⟩ := construct_managed hm hm'
    exact ⟨m', rfl, hmanaged, .of_same rfl hfrees hkept⟩
  | moveConstruct i j =>
    simp only [Machine.apply] at h
    split at h
    · rename_i other hi hj
      have hi' := vacant_iff.mp hi
      have hj' := handle_some.mp hj
      have hij : i ≠ j := by
        rintro rfl
        rw [hi'] at hj'
        cases hj'
      cases h
      refine ⟨_, rfl, move_managed (lt_of_get hi') hij hj' ?_, .of_same rfl rfl fun _ _ hx => hx⟩
      rw [set_eq_of_get hi']
      exact hm
    · cases h
  | moveAssign i j =>
    simp only [Machine.apply] at h
    split at h
    · rename_i this other hi hj
      split at h
      · rename_i hij
        cases h
        exact ⟨m, rfl, hm, .of_same (if_pos hij) rfl fun _ _ hx => hx⟩
      · rename_i hij
        have hi' := handle_some.mp hi
        obtain ⟨objects', hdel, ho, hwithout⟩ := delete_spec (hm.perm (perm_of_get hi'))
        have hgives : m.givesUp (.moveAssign i j) = this.ptr := by
          simp [Machine.givesUp, hij, hi]
        simp only [UniquePtr.moveAssign, hdel, bind, Except.bind, pure, Except.pure] at h
        cases h
        refine ⟨_, rfl, move_managed (lt_of_get hi') hij (handle_some.mp hj) ho, .of_without ?_⟩
        rw [hgives]
        exact hwithout
    · cases h
  | destroy i =>
    simp only [Machine.apply] at h
    split at h
    · rename_i this hi
      obtain ⟨objects', hdel, ho, hwithout⟩ :=
        delete_spec (hm.perm (perm_of_get (handle_some.mp hi)))
      have hgives : m.givesUp (.destroy i) = this.ptr := by simp [Machine.givesUp, hi]
      simp only [UniquePtr.destroy, hdel, bind, Except.bind, pure, Except.pure] at h
      cases h
      refine ⟨_, rfl, ho, .of_without ?_⟩
      rw [hgives]
      exact hwithout
    · cases h
  | reset i p =>
    simp only [Machine.apply] at h
    split at h
    · rename_i this objects q hi hp
      have hi' := handle_some.mp hi
      obtain ⟨hnew, hfrees, hkept⟩ := eval_spec hm hp
      -- the old owner and the new one, and the old one goes
      have hboth : Owned objects (this :: ⟨q⟩ :: (m.slots.set i none).reduceOption) :=
        hnew.perm (((perm_of_get hi').cons _).trans (List.Perm.swap _ _ _))
      obtain ⟨objects', hdel, ho, hwithout⟩ := delete_spec hboth
      have hgives : m.givesUp (.reset i p) = this.ptr := by simp [Machine.givesUp, hi]
      simp only [UniquePtr.reset, hdel, bind, Except.bind, pure, Except.pure] at h
      cases h
      refine ⟨_, rfl, Owned.put (lt_of_get hi') ho, fun a => ?_, ?_, fun a x hx hne => ?_⟩
      · rw [hgives, ← hfrees]
        exact hwithout.frees a
      · rw [hgives]
        exact hwithout.gone
      · rw [hgives] at hne
        rw [hwithout.kept a hne]
        exact hkept a x hx
    · cases h

/-! ## Runs -/

/-- **The ownership law holds in every reachable state.** -/
theorem runs_managed {n : Nat} {s : State T} (h : Reach anyStep step (init T n) s) :
    ∃ m, s = .ok m ∧ Managed m := by
  refine Reach.invariant (I := fun s => ∃ m, s = .ok m ∧ Managed m) ?_ ?_ h
  · refine ⟨_, rfl, fun a => ?_⟩
    unfold Machine.live
    rw [List.reduceOption_replicate_none]
    rfl
  · rintro s op s' ⟨m, rfl, hm⟩ hs -
    obtain ⟨m', rfl, hm', -⟩ := apply_spec hm hs
    exact ⟨m', rfl, hm'⟩

/-- What exclusive ownership promises. -/
structure Exclusive (m : Machine T) : Prop where
  distinct : ∀ i j a, m.handle i = some ⟨some a⟩ → m.handle j = some ⟨some a⟩ → i = j
  pointsTo : ∀ i h, m.handle i = some h → h.toBool = true →
    ∃ a x, h.get = some a ∧ m.objects.cell a = some x
  held : ∀ a, (m.objects.cell a).isSome = true → ∃! i, m.handle i = some ⟨some a⟩
  once : ∀ a, m.objects.cell a = none → m.objects.frees a = m.objects.allocs a
  nothingLeft : (∀ i, m.handle i = none) → ∀ a, m.objects.cell a = none

theorem Managed.exclusive (hm : Managed m) : Exclusive m := by
  have hdistinct : ∀ i j a, m.handle i = some ⟨some a⟩ → m.handle j = some ⟨some a⟩ → i = j := by
    intro i j a hi hj
    by_contra hij
    -- a second holder is among the handles in the other slots
    have hcount := hm.perm (perm_of_get (handle_some.mp hi)) a
    have hpos : 0 < holders a (m.slots.set i none).reduceOption :=
      holders_pos.mpr ⟨_, mem_live (get_set_ne hij (handle_some.mp hj) none), rfl⟩
    rw [holders_cons, if_pos rfl] at hcount
    split at hcount
    · omega
    · omega
  have hheld : ∀ a, (m.objects.cell a).isSome = true → ∃ i, m.handle i = some ⟨some a⟩ := by
    intro a ha
    have hcount := hm a
    rw [if_pos ha] at hcount
    obtain ⟨h, hh, hp⟩ := holders_pos.mp (show 0 < holders a m.live by omega)
    obtain ⟨i, hi⟩ := mem_live_iff.mp hh
    cases h
    cases hp
    exact ⟨i, hi⟩
  refine ⟨hdistinct, ?_, ?_, fun a ha => m.objects.freed_once ha, ?_⟩
  · intro i h hi hb
    obtain ⟨a, ha⟩ := Option.isSome_iff_exists.mp hb
    obtain ⟨x, hx⟩ := Owned.allocated hm (mem_live_iff.mpr ⟨i, hi⟩) ha
    exact ⟨a, x, ha, hx⟩
  · intro a ha
    obtain ⟨i, hi⟩ := hheld a ha
    exact ⟨i, hi, fun j hj => hdistinct j i a hj hi⟩
  · intro hnone a
    by_contra ha
    obtain ⟨i, hi⟩ := hheld a (Option.isSome_iff_ne_none.mpr ha)
    rw [hnone i] at hi
    cases hi

/-- **Exclusive ownership**, for any number of handles and every finite sequence of constructions,
    moves, assignments, resets and destructions: in every reachable state no two live handles hold the
    same object, every handle that is not null points to an allocated object, every allocated object
    has exactly one owner, what is no longer allocated was deleted exactly once, and when no handle is
    left nothing is allocated; every step deletes the object that the handle it destroys, resets or
    overwrites has held, and no other one. -/
theorem unique_ptr_exclusive (T : Type) (n : Nat) (s : State T)
    (h : Reach anyStep step (init T n) s) : ∃ m, s = .ok m ∧ Exclusive m ∧
      ∀ op s', step s op = some s' → ∃ m', s' = .ok m' ∧ Deletes m op m' := by
  obtain ⟨m, rfl, hm⟩ := runs_managed h
  refine ⟨m, rfl, hm.exclusive, fun op s' hs => ?_⟩
  obtain ⟨m', rfl, -, hdel⟩ := apply_spec hm hs
  exact ⟨m', rfl, hdel⟩

/-- Moves from a full handle and from an empty one, a move to itself, resets, and destructions. -/
def movesRun : List (Op Nat) :=
  [.makeUnique 0 0 10, .construct 1 .null, .moveAssign 0 0, .moveAssign 1 0, .moveConstruct 2 0,
    .reset 1 (.new 1 11), .reset 2 (.new 0 12), .moveAssign 1 2, .destroy 0, .reset 1 .null,
    .destroy 1, .destroy 2]

theorem unique_ptr_exclusive_moves :
    ∃ m, (exec step (init Nat 3) movesRun).get (by decide) = .ok m ∧ Exclusive m ∧
      ∀ op s', step ((exec step (init Nat 3) movesRun).get (by decide)) op = some s' →
        ∃ m', s' = .ok m' ∧ Deletes m op m' :=
  unique_ptr_exclusive Nat 3 _ (exec_reach_get movesRun (by decide))

end CppBackend.UniquePtr
