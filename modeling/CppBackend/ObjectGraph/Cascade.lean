import CppBackend.Library.Releases
import CppBackend.ObjectGraph.Ownership
import Mathlib.Data.List.Nodup

/-!
# What a release destroys

A handle in the slot `a` of the machine `m₀` lets go of its object.  `During` is what holds of the
machine at every point of the recursion that follows: which handles count as owners, where they are
stored, which ones are still to be destroyed (`pending`), and that only objects which `a` keeps alive
have gone (`Machine.Released`).

* `destroy_ends` — the recursion, by induction on its depth: it ends without a fault, unless the
  handle `a` itself is a member of an object that `a` keeps alive;
* `During.dead_iff` — in the end exactly the objects that `a` kept alive are gone.
-/

set_option autoImplicit false

namespace CppBackend.ObjectGraph

open Library Library.Storage Library.Slots Library.Releases

namespace Machine

variable (m : Machine)

/-- The handle in the slot `i` holds the object at `x`. -/
def Holds (i : Slot) (x : Addr) : Prop := ∃ h, m.handle i = some h ∧ h.ptr = some x

/-- The slot `i` is a member of the object at `x`. -/
def Inside (i : Slot) (x : Addr) : Prop := ∃ ms, m.members x = some ms ∧ i ∈ ms

/-- The objects that the handle in the slot `a` keeps alive, directly or through other objects. -/
def Released (a : Slot) : Set Addr := Releases.Released m.Holds m.Inside a

/-- The slot `i` is a member of an object that the handle in the slot `a` keeps alive. -/
def Doomed (a i : Slot) : Prop := ∃ x ∈ m.Released a, m.Inside i x

def live : List Handle := m.slots.reduceOption

/-- The live handles in the other slots than `a`. -/
def rest (a : Slot) : List Handle := (m.slots.set a none).reduceOption

/-- The machine after the lifetime of the handle in the slot `i`. -/
def without (i : Slot) : Machine := { m with slots := m.slots.set i none }

end Machine

/-- The ownership law between the operations of a program. -/
structure Managed (vars n : Nat) (m : Machine) : Prop where
  length : m.slots.length = n
  owned : Owned m.heap [] m.live
  nodup : ∀ x ms, m.members x = some ms → ms.Nodup
  stored : ∀ i x, m.Inside i x → vars ≤ i ∧ (m.handle i).isSome = true
  apart : ∀ i x y, m.Inside i x → m.Inside i y → x = y

/-- The machine `m` while the handle in the slot `a` of `m₀` lets go.  The handles in `hand` count as
    owners, besides those in the other slots than `a`; that slot itself holds `start`. -/
structure During (m₀ : Machine) (a : Slot) (start : Option Handle) (m : Machine) (hand : List Handle)
    (pending : List Slot) (waiting : List Addr) : Prop where
  length : m.slots.length = m₀.slots.length
  owned : Owned m.heap waiting (hand ++ m.rest a)
  same : ∀ i h, i ≠ a → m.handle i = some h → m₀.handle i = some h
  kept : ∀ x ms, m.members x = some ms → m₀.members x = some ms
  stored : ∀ i x, m.Inside i x → (m.handle i).isSome = true ∧ i ∉ pending
  nodup : pending.Nodup
  doomed : ∀ i ∈ pending, (m.handle i).isSome = true ∧ m₀.Doomed a i
  gone : ∀ i, i ≠ a → (m₀.handle i).isSome = true → m.handle i = none → m₀.Doomed a i
  dead : ∀ x, m.members x = none → ∀ i, m₀.Inside i x → m.handle i = none ∨ i ∈ pending
  released : ∀ x, (m₀.members x).isSome = true → m.members x = none → x ∈ m₀.Released a
  self : m.handle a = start ∨ m.handle a = none ∧ m₀.Doomed a a

variable {vars n : Nat} {m₀ m m' : Machine} {a i j : Slot} {start : Option Handle}
  {hand : List Handle} {pending : List Slot} {waiting : List Addr} {h : Handle} {x : Addr}
  {ms : List Slot}

theorem handle_some : m.handle i = some h ↔ m.slots[i]? = some (some h) := by
  unfold Machine.handle
  exact Option.join_eq_some_iff

theorem mem_live_iff : h ∈ m.live ↔ ∃ i, m.handle i = some h := by
  unfold Machine.live
  simp only [handle_some]
  rw [List.reduceOption_mem_iff, List.mem_iff_getElem?]

theorem mem_rest_iff : h ∈ m.rest a ↔ ∃ i, i ≠ a ∧ m.handle i = some h := by
  unfold Machine.rest
  simp only [handle_some]
  exact mem_set_none_iff

theorem handle_without (i j : Slot) :
    (m.without i).handle j = if j = i then none else m.handle j := by
  unfold Machine.without Machine.handle
  by_cases hij : j = i
  · subst hij
    rw [if_pos rfl, List.getElem?_set_self']
    cases m.slots[j]? with
    | none => rfl
    | some o => rfl
  · rw [if_neg hij, List.getElem?_set_ne (Ne.symm hij)]

theorem handle_without_some (hj : (m.without i).handle j = some h) : j ≠ i ∧ m.handle j = some h := by
  rw [handle_without] at hj
  split at hj
  · cases hj
  · rename_i hne
    exact ⟨hne, hj⟩

/-- A live handle among the handles that count. -/
theorem rest_perm (hia : i ≠ a) (hi : m.handle i = some h) :
    (m.rest a).Perm (h :: (m.without i).rest a) := by
  have hp := perm_of_get (get_set_ne (Ne.symm hia) (handle_some.mp hi) none)
  rw [List.set_comm _ _ (Ne.symm hia)] at hp
  exact hp

theorem rest_without_self : (m.without a).rest a = m.rest a := by
  unfold Machine.rest Machine.without
  rw [List.set_set]

theorem live_without (hi : m.handle i = some h) : (m.without i).live.length + 1 = m.live.length :=
  (perm_of_get (handle_some.mp hi)).length_eq.symm

theorem read_of_some (hi : m.handle i = some h) : m.read i = .ok h := by
  unfold Machine.read
  rw [hi]

/-- A handle that is alive holds an object that is alive. -/
theorem Managed.alive (hm : Managed vars n m) (hi : m.Holds i x) : (m.members x).isSome = true := by
  obtain ⟨h, hh, hp⟩ := hi
  exact hm.owned.alive (mem_live_iff.mpr ⟨i, hh⟩) hp

theorem Managed.held (hm : Managed vars n m) (hx : (m.members x).isSome = true) :
    ∃ i, m.Holds i x := by
  obtain ⟨h, hh, hp⟩ := holders_pos.mp ((hm.owned.object x).mp hx)
  obtain ⟨i, hi⟩ := mem_live_iff.mp hh
  exact ⟨i, h, hi, hp⟩

/-! ## The steps of the recursion -/

/-- Counters change, objects do not. -/
theorem During.heap {heap' : Heaps} {hand' : List Handle} {waiting' : List Addr}
    (hd : During m₀ a start m hand pending waiting)
    (hobj : heap'.objects.cell = m.heap.objects.cell)
    (ho : Owned heap' waiting' (hand' ++ m.rest a)) :
    During m₀ a start { m with heap := heap' } hand' pending waiting' := by
  have hmembers : ∀ y, Machine.members { m with heap := heap' } y = m.members y := by
    intro y
    exact congrFun hobj y
  refine ⟨hd.length, ho, hd.same, ?_, ?_, hd.nodup, hd.doomed, hd.gone, ?_, ?_, hd.self⟩
  · intro y ms hy
    rw [hmembers] at hy
    exact hd.kept y ms hy
  · rintro i y ⟨ms, hy, hi⟩
    rw [hmembers] at hy
    exact hd.stored i y ⟨ms, hy, hi⟩
  · intro y hy
    rw [hmembers] at hy
    exact hd.dead y hy
  · intro y hy hnone
    rw [hmembers] at hnone
    exact hd.released y hy hnone

/-- The lifetime of the next handle that is to be destroyed ends. -/
theorem During.take (hd : During m₀ a start m [] (i :: pending) waiting)
    (ho : Owned m.heap waiting (hand ++ (m.without i).rest a)) :
    During m₀ a start (m.without i) hand pending waiting := by
  obtain ⟨hnot, hnodup⟩ := List.nodup_cons.mp hd.nodup
  have hdoomed := (hd.doomed i List.mem_cons_self).2
  refine ⟨?_, ho, ?_, hd.kept, ?_, hnodup, ?_, ?_, ?_, hd.released, ?_⟩
  · rw [← hd.length]
    exact List.length_set
  · intro j h hj hh
    exact hd.same j h hj (handle_without_some hh).2
  · intro j y hj
    obtain ⟨hlive, hpend⟩ := hd.stored j y hj
    rw [List.mem_cons, not_or] at hpend
    rw [handle_without, if_neg hpend.1]
    exact ⟨hlive, hpend.2⟩
  · intro j hj
    have hji : j ≠ i := by
      rintro rfl
      exact hnot hj
    rw [handle_without, if_neg hji]
    exact hd.doomed j (.tail _ hj)
  · intro j hja h₀ hnone
    by_cases hji : j = i
    · subst hji
      exact hdoomed
    · rw [handle_without, if_neg hji] at hnone
      exact hd.gone j hja h₀ hnone
  · intro y hy j hj
    rw [handle_without]
    by_cases hji : j = i
    · exact Or.inl (if_pos hji)
    · rw [if_neg hji]
      have := hd.dead y hy j hj
      simpa [hji] using this
  · rw [handle_without]
    by_cases hia : a = i
    · subst hia
      exact Or.inr ⟨if_pos rfl, hdoomed⟩
    · rw [if_neg hia]
      exact hd.self

/-- An object without a holder is deleted, and its members are to be destroyed. -/
theorem During.free {heap' : Heaps} {waiting' : List Addr} (hm : Managed vars n m₀)
    (hd : During m₀ a start m hand pending waiting) (hms : m.members x = some ms)
    (ho : Owned heap' waiting' (m.rest a)) (hz : holders x (m.rest a) = 0)
    (hobj : heap'.objects.cell = Function.update m.heap.objects.cell x none) :
    During m₀ a start { m with heap := heap' } [] (ms.reverse ++ pending) waiting' := by
  have hms₀ := hd.kept x ms hms
  have hmembers : ∀ y, Machine.members { m with heap := heap' } y =
      if y = x then none else m.members y := by
    intro y
    show heap'.objects.cell y = _
    rw [hobj]
    exact Function.update_apply _ _ _ _
  have hreleased : x ∈ m₀.Released a := by
    refine released_closed x (hm.held (by rw [hms₀]; rfl)) fun i hi => ?_
    -- another holder would still be there, or it was inside of an object that has died
    by_cases hia : i = a
    · exact Or.inl hia
    · right
      obtain ⟨h, hh, hp⟩ := hi
      cases hnow : m.handle i with
      | none => exact hd.gone i hia (by rw [hh]; rfl) hnow
      | some h' =>
        have hsame := hd.same i h' hia hnow
        rw [hh] at hsame
        cases hsame
        have : 0 < holders x (m.rest a) := holders_pos.mpr ⟨h, mem_rest_iff.mpr ⟨i, hia, hnow⟩, hp⟩
        omega
  have hin : ∀ i ∈ ms, m.Inside i x := fun i hi => ⟨ms, hms, hi⟩
  refine ⟨hd.length, ho, hd.same, ?_, ?_, ?_, ?_, hd.gone, ?_, ?_, hd.self⟩
  · intro y ms' hy
    rw [hmembers] at hy
    split at hy
    · cases hy
    · exact hd.kept y ms' hy
  · rintro i y ⟨ms', hy, hi⟩
    rw [hmembers] at hy
    split at hy
    · cases hy
    · rename_i hne
      obtain ⟨hlive, hpend⟩ := hd.stored i y ⟨ms', hy, hi⟩
      refine ⟨hlive, ?_⟩
      rw [List.mem_append, List.mem_reverse, not_or]
      refine ⟨fun hmem => hne ?_, hpend⟩
      exact hm.apart i y x ⟨ms', hd.kept y ms' hy, hi⟩ ⟨ms, hms₀, hmem⟩
  · rw [List.nodup_append, List.nodup_reverse]
    refine ⟨hm.nodup x ms hms₀, hd.nodup, fun i hi j hj hij => ?_⟩
    subst hij
    exact (hd.stored i x (hin i (List.mem_reverse.mp hi))).2 hj
  · intro i hi
    rcases List.mem_append.mp hi with hi | hi
    · have hmem := List.mem_reverse.mp hi
      exact ⟨(hd.stored i x (hin i hmem)).1, x, hreleased, ms, hms₀, hmem⟩
    · exact hd.doomed i hi
  · intro y hy i hi
    rw [List.mem_append, List.mem_reverse]
    rw [hmembers] at hy
    split at hy
    · rename_i hyx
      subst hyx
      obtain ⟨ms', hms', hmem⟩ := hi
      rw [hms₀] at hms'
      cases hms'
      exact Or.inr (Or.inl hmem)
    · rcases hd.dead y hy i hi with hnone | hpend
      · exact Or.inl hnone
      · exact Or.inr (Or.inr hpend)
  · intro y hy hnone
    rw [hmembers] at hnone
    split at hnone
    · rename_i hyx
      subst hyx
      exact hreleased
    · exact hd.released y hy hnone

/-! ## The recursion -/

/-- No object comes to life, and no handle. -/
structure Shrinks (m m' : Machine) : Prop where
  members : ∀ x, m.members x = none → m'.members x = none
  live : m'.live.length ≤ m.live.length

theorem Shrinks.refl : Shrinks m m := ⟨fun _ hx => hx, Nat.le_refl _⟩

theorem Shrinks.trans {m'' : Machine} (h : Shrinks m m') (h' : Shrinks m' m'') : Shrinks m m'' :=
  ⟨fun x hx => h'.members x (h.members x hx), h'.live.trans h.live⟩

/-- The object that the slot `a` held at the start is gone. -/
def Spent (start : Option Handle) (m : Machine) : Prop :=
  ∀ h x, start = some h → h.ptr = some x → m.members x = none

theorem Spent.shrinks (hs : Spent start m) (h : Shrinks m m') : Spent start m' :=
  fun g x hg hx => h.members x (hs g x hg hx)

/-- What is needed of the destructor of a member. -/
def Destroys (m₀ : Machine) (a : Slot) (start : Option Handle) (depth : Nat)
    (destroy : Machine → Slot → Run Machine) : Prop :=
  ∀ m i pending waiting, During m₀ a start m [] (i :: pending) waiting → Spent start m →
    m.live.length < depth → (destroy m i).Ends (fun _ => m₀.Doomed a a)
      fun m' => During m₀ a start m' [] pending waiting ∧ Shrinks m m'

variable {depth : Nat} {destroy : Machine → Slot → Run Machine}

theorem members_end (hdes : Destroys m₀ a start depth destroy)
    (hd : During m₀ a start m [] (ms ++ pending) waiting) (hs : Spent start m)
    (hlive : m.live.length < depth) : (ms.foldlM destroy m).Ends (fun _ => m₀.Doomed a a)
      fun m' => During m₀ a start m' [] pending waiting ∧ Shrinks m m' := by
  refine Outcome.Ends.foldlM (I := fun ms m' =>
    During m₀ a start m' [] (ms ++ pending) waiting ∧ Shrinks m m') ?_ ms ⟨hd, Shrinks.refl⟩
  rintro i ms m' ⟨hd', hsh⟩
  refine (hdes m' i _ _ hd' (hs.shrinks hsh) (Nat.lt_of_le_of_lt hsh.live hlive)).mono ?_
  rintro m'' ⟨hd'', hsh'⟩
  exact ⟨hd'', hsh.trans hsh'⟩

/-- Deleting an object without a holder, when its counter may have been written to. -/
theorem deleteObject_ends {heap₁ : Heaps} {waiting' : List Addr} (hm : Managed vars n m₀)
    (hdes : Destroys m₀ a start depth destroy) (hd : During m₀ a start m hand pending waiting)
    (hms : m.members x = some ms) (hobj₁ : heap₁.objects = m.heap.objects)
    (ho : ∀ heap' : Heaps, heap'.counts = heap₁.counts →
      heap'.objects.cell = Function.update m.heap.objects.cell x none →
      Owned heap' waiting' (m.rest a) ∧ holders x (m.rest a) = 0)
    (hs : ∀ g y, start = some g → g.ptr = some y → y = x ∨ m.members y = none)
    (hlive : m.live.length < depth) :
    (deleteObject destroy { m with heap := heap₁ } (some x)).Ends (fun _ => m₀.Doomed a a)
      fun m' => During m₀ a start m' [] pending waiting' ∧ Shrinks m m' := by
  have hms₁ : heap₁.objects.cell x = some ms := by
    rw [hobj₁]
    exact hms
  obtain ⟨heap', hdel, hcounts, hobj⟩ :=
    SharedPtr.deleteObject_of_some (Option.isSome_iff_exists.mpr ⟨ms, hms₁⟩)
  rw [hobj₁] at hobj
  obtain ⟨howned, hz⟩ := ho heap' hcounts hobj
  have hcell : ∀ y, Machine.members { m with heap := heap' } y =
      if y = x then none else m.members y := by
    intro y
    show heap'.objects.cell y = _
    rw [hobj]
    exact Function.update_apply _ _ _ _
  have hsh : Shrinks m { m with heap := heap' } := by
    refine ⟨fun y hy => ?_, Nat.le_refl _⟩
    rw [hcell, hy, ite_self]
  have hspent : Spent start { m with heap := heap' } := by
    intro g y hg hy
    rw [hcell]
    rcases hs g y hg hy with rfl | hnone
    · rw [if_pos rfl]
    · rw [hnone, ite_self]
  unfold deleteObject Machine.members
  simp only [hms₁, hdel, lift, Outcome.ok_bind]
  refine (members_end hdes (hd.free hm hms howned hz hobj) hspent hlive).mono ?_
  rintro m' ⟨hd', hsh'⟩
  exact ⟨hd', hsh.trans hsh'⟩

/-- The holder of a `unique_ptr` in hand lets go. -/
theorem deleteUnique_ends {u : UniquePtr.Handle} (hm : Managed vars n m₀)
    (hdes : Destroys m₀ a start depth destroy)
    (hd : During m₀ a start m [.unique u] pending waiting)
    (hs : ∀ g y, start = some g → g.ptr = some y → u.ptr = some y ∨ m.members y = none)
    (hlive : m.live.length < depth) :
    (deleteObject destroy m u.ptr).Ends (fun _ => m₀.Doomed a a)
      fun m' => During m₀ a start m' [] pending waiting ∧ Shrinks m m' := by
  have ho : Owned m.heap waiting (.unique u :: m.rest a) := hd.owned
  cases hp : u.ptr with
  | none => exact ⟨hd.heap rfl (ho.drop_null hp rfl), Shrinks.refl⟩
  | some x =>
    obtain ⟨ms, hms⟩ := Option.isSome_iff_exists.mp (ho.alive List.mem_cons_self hp)
    refine deleteObject_ends hm hdes hd hms rfl (fun heap' hcounts hobj => ?_) ?_ hlive
    · exact ho.drop_unique hp rfl hcounts hobj
    · intro g y hg hy
      have := hs g y hg hy
      simpa [hp, eq_comm] using this

/-- What `release` leaves in the handle: null if no other handle shares the object. -/
def Left (s s' : SharedPtr.Handle) (hs : List Handle) : Prop :=
  (∀ c, s.sharedCount = some c → sharers c hs = 0) → s' = .null

/-- **`release`** of a `shared_ptr` in hand. -/
theorem release_ends {s : SharedPtr.Handle} (hm : Managed vars n m₀)
    (hdes : Destroys m₀ a start depth destroy)
    (hd : During m₀ a start m [.shared s] pending waiting)
    (hs : ∀ g y, start = some g → g.ptr = some y → s.ptr = some y ∨ m.members y = none)
    (hlive : m.live.length < depth) :
    (release destroy m s).Ends (fun _ => m₀.Doomed a a) fun r =>
      During m₀ a start r.1 [] pending waiting ∧ Shrinks m r.1 ∧ Left s r.2 (m.rest a) := by
  have ho : Owned m.heap waiting (.shared s :: m.rest a) := hd.owned
  have hpaired : s.ptr = none ↔ s.sharedCount = none :=
    ho.paired (.shared s) List.mem_cons_self rfl
  cases hc : s.sharedCount with
  | none =>
    have hp : s.ptr = none := hpaired.mpr hc
    unfold release
    rw [hc]
    refine ⟨hd.heap rfl (ho.drop_null hp hc), Shrinks.refl, fun _ => ?_⟩
    cases s
    cases hc
    cases hp
    rfl
  | some c =>
    have hcount : m.heap.counts.cell c = some (UInt64.ofNat (sharers c (m.rest a) + 1)) := by
      rw [(ho.count_of_mem List.mem_cons_self hc).2, sharers_cons]
      simp [Handle.sharedCount, hc]
    have hpred : UInt64.ofNat (sharers c (m.rest a) + 1) - 1 =
        UInt64.ofNat (sharers c (m.rest a)) := by
      rw [UInt64.ofNat_add]
      exact UInt64.add_sub_cancel _ _
    obtain ⟨heap₁, hw, hobj₁, hcell₁⟩ :=
      SharedPtr.writeCount_of_some hcount (UInt64.ofNat (sharers c (m.rest a) + 1) - 1)
    rw [hpred] at hw hcell₁
    have hread : heap₁.counts.cell c = some (UInt64.ofNat (sharers c (m.rest a))) := by
      rw [hcell₁, Function.update_self]
    have hsmall : sharers c (m.rest a) < 2 ^ 64 := by
      have hle := sharers_le_length c (m.rest a)
      have hlen := ho.small
      rw [List.length_cons] at hlen
      omega
    unfold release
    simp only [hc, SharedPtr.readCount_of_some hcount, hpred, hw, SharedPtr.readCount_of_some hread,
      lift, Outcome.ok_bind, SharedPtr.ofNat_eq_zero hsmall]
    by_cases hk : sharers c (m.rest a) = 0
    · -- the last sharer
      obtain ⟨x, hp⟩ : ∃ x, s.ptr = some x := by
        rw [← Option.ne_none_iff_exists']
        intro hn
        rw [hpaired.mp hn] at hc
        cases hc
      obtain ⟨ms, hms⟩ := Option.isSome_iff_exists.mp (ho.alive List.mem_cons_self hp)
      have hlast : ∀ heap' : Heaps, heap'.counts = heap₁.counts →
          heap'.objects.cell = Function.update m.heap.objects.cell x none →
          Owned heap' (c :: waiting) (m.rest a) ∧ holders x (m.rest a) = 0 := by
        intro heap' hcounts hobj
        refine ho.drop_last hc hk hp hobj ?_
        rw [hcounts, hcell₁]
      rw [if_pos hk, hp]
      refine (deleteObject_ends hm hdes hd hms hobj₁ hlast ?_ hlive).bind ?_
      · intro g y hg hy
        have := hs g y hg hy
        simpa [hp, eq_comm] using this
      · rintro m' ⟨hd', hsh⟩
        obtain ⟨k, hend⟩ := Option.isSome_iff_exists.mp (hd'.owned.ended c List.mem_cons_self).2
        obtain ⟨heap', hdel, hobj', hcell'⟩ := SharedPtr.deleteCount_of_some hend
        simp only [hdel, Outcome.ok_bind]
        refine ⟨hd'.heap (by rw [hobj']) (hd'.owned.counter_gone hobj' hcell'), ⟨fun y hy => ?_,
          hsh.live⟩, fun _ => rfl⟩
        show heap'.objects.cell y = none
        rw [hobj']
        exact hsh.members y hy
    · rw [if_neg hk]
      refine ⟨hd.heap (by rw [hobj₁]) (ho.drop_sharer hc (by omega) hobj₁ hcell₁), ?_, ?_⟩
      · refine ⟨fun y hy => ?_, Nat.le_refl _⟩
        show heap₁.objects.cell y = none
        rw [hobj₁]
        exact hy
      · intro hall
        exact absurd (hall c hc) hk

/-- The handle in the slot `a`, should it be destroyed while it lets go. -/
theorem During.self_of_some (hd : During m₀ a start m hand pending waiting)
    (hi : m.handle a = some h) : start = some h := by
  rcases hd.self with hself | ⟨hnone, -⟩
  · rw [← hself, hi]
  · rw [hi] at hnone
    cases hnone

/-- The handle that is letting go is destroyed, and its object is gone. -/
theorem During.delete_self {p : Option Addr} (hd : During m₀ a start m [] pending waiting)
    (hs : ∀ y, p = some y → m.members y = none) (hdoomed : m₀.Doomed a a) :
    (deleteObject destroy m p).Ends (fun _ => m₀.Doomed a a)
      fun m' => During m₀ a start m' [] pending waiting ∧ Shrinks m m' := by
  unfold deleteObject
  cases p with
  | none => exact ⟨hd, Shrinks.refl⟩
  | some x =>
    simp only [hs x rfl]
    exact hdoomed

/-- No other handle refers to the counter of the slot `a` any more. -/
theorem During.self_sharers {s : SharedPtr.Handle} {c : Addr} (hm : Managed vars n m₀)
    (hd : During m₀ a start m [] pending waiting) (ha : m₀.handle a = some (.shared s))
    (hc : s.sharedCount = some c) (hs : ∀ y, s.ptr = some y → m.members y = none) :
    sharers c (m.rest a) = 0 := by
  by_contra hne
  obtain ⟨g, hg, hgc⟩ := sharers_pos.mp (Nat.pos_of_ne_zero hne)
  obtain ⟨i, hia, hi⟩ := mem_rest_iff.mp hg
  have hlive : Handle.shared s ∈ m₀.live := mem_live_iff.mpr ⟨a, ha⟩
  have hptr : s.ptr = g.ptr :=
    hm.owned.counter _ hlive g (mem_live_iff.mpr ⟨i, hd.same i g hia hi⟩) c hc hgc
  have hpaired : s.ptr = none ↔ s.sharedCount = none := hm.owned.paired _ hlive rfl
  cases hp : s.ptr with
  | none =>
    rw [hpaired.mp hp] at hc
    cases hc
  | some x =>
    have halive := hd.owned.alive hg (hptr ▸ hp)
    have hgone : m.heap.objects.cell x = none := hs x hp
    rw [hgone] at halive
    cases halive

/-- The same with `release`: the counter, if it is still there, is about to be deleted. -/
theorem During.release_self {s : SharedPtr.Handle} (hm : Managed vars n m₀)
    (hd : During m₀ a start m [] pending waiting) (ha : m₀.handle a = some (.shared s))
    (hs : ∀ y, s.ptr = some y → m.members y = none) (hdoomed : m₀.Doomed a a) :
    (release destroy m s).Ends (fun _ => m₀.Doomed a a) fun r =>
      During m₀ a start r.1 [] pending waiting ∧ Shrinks m r.1 := by
  have hpaired : s.ptr = none ↔ s.sharedCount = none :=
    hm.owned.paired _ (mem_live_iff.mpr ⟨a, ha⟩) rfl
  unfold release
  cases hc : s.sharedCount with
  | none => exact ⟨hd, Shrinks.refl⟩
  | some c =>
    obtain ⟨x, hp⟩ : ∃ x, s.ptr = some x := by
      rw [← Option.ne_none_iff_exists']
      intro hn
      rw [hpaired.mp hn] at hc
      cases hc
    cases hcell : m.heap.counts.cell c with
    | none =>
      simp only [SharedPtr.Memory.readCount, hcell, lift]
      exact hdoomed
    | some v =>
      obtain ⟨heap₁, hw, hobj₁, hcell₁⟩ := SharedPtr.writeCount_of_some hcell (v - 1)
      have hread : heap₁.counts.cell c = some (v - 1) := by
        rw [hcell₁, Function.update_self]
      simp only [SharedPtr.readCount_of_some hcell, hw, SharedPtr.readCount_of_some hread, lift,
        Outcome.ok_bind]
      by_cases hv : v - 1 = 0
      · have hgone : Machine.members { m with heap := heap₁ } x = none := by
          unfold Machine.members
          rw [hobj₁]
          exact hs x hp
        rw [if_pos hv, hp]
        unfold deleteObject
        simp only [hgone]
        exact hdoomed
      · have hmem : c ∈ waiting :=
          hd.owned.waiting_of_some (hd.self_sharers hm ha hc hs) (by rw [hcell]; rfl)
        rw [if_neg hv]
        refine ⟨hd.heap (by rw [hobj₁]) (hd.owned.counter_set hmem hobj₁ hcell₁), fun y hy => ?_,
          Nat.le_refl _⟩
        show heap₁.objects.cell y = none
        rw [hobj₁]
        exact hy

/-- **The destructor of a member**, for every depth above the number of live handles. -/
theorem destroy_ends (hm : Managed vars n m₀)
    (hstart : ∀ h, start = some h → m₀.handle a = some h) :
    ∀ depth, Destroys m₀ a start depth (ObjectGraph.destroy depth)
  | 0 => fun _ _ _ _ _ _ hlive => absurd hlive (Nat.not_lt_zero _)
  | depth + 1 => by
    intro m i pending waiting hd hs hlive
    have ih := destroy_ends hm hstart depth
    obtain ⟨h, hi⟩ := Option.isSome_iff_exists.mp (hd.doomed i List.mem_cons_self).1
    have hlen := live_without hi
    have hdepth : (m.without i).live.length < depth := by omega
    have hsh : ∀ {m' : Machine}, Shrinks (m.without i) m' → Shrinks m m' := by
      intro m' hsh
      exact ⟨hsh.members, by have := hsh.live; omega⟩
    unfold ObjectGraph.destroy
    simp only [read_of_some hi, Outcome.ok_bind]
    by_cases hia : i = a
    · subst hia
      have hself := hd.self_of_some hi
      have hdoomed := (hd.doomed i List.mem_cons_self).2
      have hd' : During m₀ i start (m.without i) [] pending waiting := by
        refine hd.take ?_
        rw [rest_without_self]
        exact hd.owned
      have hgone : ∀ y, h.ptr = some y → (m.without i).members y = none := fun y hy => hs h y hself hy
      cases h with
      | unique u =>
        refine (hd'.delete_self hgone hdoomed).mono ?_
        rintro m' ⟨hd'', hsh'⟩
        exact ⟨hd'', hsh hsh'⟩
      | shared s =>
        refine (hd'.release_self hm (hstart _ hself) hgone hdoomed).bind ?_
        rintro ⟨m', s'⟩ ⟨hd'', hsh'⟩
        exact ⟨hd'', hsh hsh'⟩
    · have hd' : During m₀ a start (m.without i) [h] pending waiting :=
        hd.take (hd.owned.perm (rest_perm hia hi))
      have hs' : ∀ g y, start = some g → g.ptr = some y →
          h.ptr = some y ∨ (m.without i).members y = none :=
        fun g y hg hy => Or.inr (hs g y hg hy)
      cases h with
      | unique u =>
        refine (deleteUnique_ends hm ih hd' hs' hdepth).mono ?_
        rintro m' ⟨hd'', hsh'⟩
        exact ⟨hd'', hsh hsh'⟩
      | shared s =>
        refine (release_ends hm ih hd' hs' hdepth).bind ?_
        rintro ⟨m', s'⟩ ⟨hd'', hsh', -⟩
        exact ⟨hd'', hsh hsh'⟩

/-! ## The beginning and the end -/

theorem live_perm (ha : m.handle a = some h) : m.live.Perm (h :: m.rest a) :=
  perm_of_get (handle_some.mp ha)

/-- The handle in the slot `a` is about to let go. -/
theorem Managed.during (hm : Managed vars n m) (ha : m.handle a = some h) :
    During m a (some h) m [h] [] [] := by
  have hnot : ∀ x, m.members x = none → ¬ (m.members x).isSome = true := by
    intro x hx
    simp [hx]
  refine ⟨rfl, hm.owned.perm (live_perm ha), fun _ _ _ hi => hi, fun _ _ hx => hx, ?_, List.nodup_nil,
    fun _ hi => (nomatch hi), ?_, ?_, fun x hx hnone => absurd hx (hnot x hnone), Or.inl ha⟩
  · intro i x hi
    exact ⟨(hm.stored i x hi).2, List.not_mem_nil⟩
  · intro i _ hi hnone
    rw [hnone] at hi
    cases hi
  · rintro x hx i ⟨ms, hms, -⟩
    rw [hx] at hms
    cases hms

/-- A variable in the slot `a` is about to let go in its destructor. -/
theorem Managed.during_destroy (hm : Managed vars n m) (ha : m.handle a = some h) (hvar : a < vars) :
    During m a none (m.without a) [h] [] [] := by
  have hd := hm.during ha
  refine ⟨?_, ?_, fun i g hi hg => ?_, hd.kept, ?_, hd.nodup, fun _ hi => (nomatch hi), ?_, ?_,
    hd.released, Or.inl ?_⟩
  · exact List.length_set
  · rw [rest_without_self]
    exact hd.owned
  · exact (handle_without_some hg).2
  · intro i x hi
    have hia : i ≠ a := Nat.ne_of_gt (Nat.lt_of_lt_of_le hvar (hm.stored i x hi).1)
    rw [handle_without, if_neg hia]
    exact hd.stored i x hi
  · intro i hia hi hnone
    rw [handle_without, if_neg hia] at hnone
    exact hd.gone i hia hi hnone
  · intro x hx i hi
    have hia : i ≠ a := Nat.ne_of_gt (Nat.lt_of_lt_of_le hvar (hm.stored i x hi).1)
    rw [handle_without, if_neg hia]
    exact hd.dead x hx i hi
  · rw [handle_without, if_pos rfl]

/-- **Exactly the objects that `a` kept alive are gone.** -/
theorem During.dead_iff (hd : During m₀ a start m [] [] [])
    (hx : (m₀.members x).isSome = true) : m.members x = none ↔ x ∈ m₀.Released a := by
  refine ⟨hd.released x hx, fun hrel => ?_⟩
  refine released_subset (S := {y | m.members y = none}) ?_ hrel
  intro y _ hall
  by_contra halive
  have hsome : (m.heap.objects.cell y).isSome = true := Option.isSome_iff_ne_none.mpr halive
  obtain ⟨g, hg, hp⟩ := holders_pos.mp ((hd.owned.object y).mp hsome)
  obtain ⟨i, hia, hi⟩ := mem_rest_iff.mp hg
  -- the holder is not inside of anything that is gone
  rcases hall i ⟨g, hd.same i g hia hi, hp⟩ with heq | ⟨z, hz, hin⟩
  · exact hia heq
  · rcases hd.dead z hz i hin with hnone | hmem
    · rw [hnone] at hi
      cases hi
    · cases hmem

theorem During.doomed_gone (hd : During m₀ a start m [] [] [])
    (hi : m₀.Doomed a i) : m.handle i = none := by
  obtain ⟨x, hx, hin⟩ := hi
  have halive : (m₀.members x).isSome = true := by
    obtain ⟨ms, hms, -⟩ := hin
    rw [hms]
    rfl
  rcases hd.dead x ((hd.dead_iff halive).mpr hx) i hin with hnone | hmem
  · exact hnone
  · cases hmem

/-- Another handle than `a` is as it was, unless `a` kept it alive. -/
theorem During.handle_kept (hd : During m₀ a start m [] [] []) (hia : i ≠ a)
    (hi : m₀.handle i = some h) (hnot : ¬ m₀.Doomed a i) : m.handle i = some h := by
  cases hnow : m.handle i with
  | none => exact absurd (hd.gone i hia (by rw [hi]; rfl) hnow) hnot
  | some g =>
    rw [← hi]
    exact (hd.same i g hia hnow).symm

end CppBackend.ObjectGraph
