import CppBackend.SharedPtr.Ownership

/-!
# Programs with `shared_ptr`

`apply_spec` — every operation keeps the ownership of counters and objects, provided that
`reset` is only called on a handle that is null or the only owner of its object; it faults never.

* `shared_ptr_exact` — in every run without `reset`, the counters are exact, an object is
  allocated exactly while a handle refers to it, and nothing is leaked (`Exact`);
* `reset_gives_up` — with `reset`, a run keeps this law exactly if each of its resets is of
  that kind: `release` nulls the handle only on the last-owner path, so a handle that is reset
  while others share its object keeps both pointers, but is no longer counted
  (`reset_shared_dangles`).
-/

set_option autoImplicit false

namespace CppBackend.SharedPtr

open Library.Storage Library.Transition Library.Slots

variable {T : Type} {n : Nat} {m m' : Machine T} {i j : Nat} {h : Handle} {op : Op T}

/-- The live handles. -/
def Machine.live (m : Machine T) : List Handle := m.slots.reduceOption

/-- How many live handles share the object of `h`. -/
def Machine.owners (m : Machine T) (h : Handle) : Nat :=
  match h.sharedCount with
  | none => 0
  | some c => sharers c m.live

/-- What the reference counts promise. -/
structure Exact (m : Machine T) : Prop where
  counter : ∀ c k, m.mem.counts.cell c = some k → k.toNat = sharers c m.live ∧ 0 < k.toNat
  getCount : ∀ h ∈ m.live, ∃ k, h.getCount m.mem = .ok k ∧ k.toNat = m.owners h
  null : ∀ h ∈ m.live, h.ptr = none ↔ h.sharedCount = none
  samePtr : ∀ h ∈ m.live, ∀ h' ∈ m.live, h.sharedCount = h'.sharedCount → h.ptr = h'.ptr
  managed : ∀ a, a ∉ m.fresh →
    ((m.mem.objects.cell a).isSome = true ↔ ∃ h ∈ m.live, h.ptr = some a)
  counterOnce : ∀ c, m.mem.counts.cell c = none → m.mem.counts.frees c = m.mem.counts.allocs c
  objectOnce : ∀ a, m.mem.objects.cell a = none → m.mem.objects.frees a = m.mem.objects.allocs a
  nothingLeft : m.live = [] → (∀ c, m.mem.counts.cell c = none) ∧
    ∀ a, a ∉ m.fresh → m.mem.objects.cell a = none

/-- The ownership law for the handles in the slots. -/
structure Managed (n : Nat) (m : Machine T) : Prop where
  owned : Owned m.mem m.fresh m.live
  slots : m.slots.length = n

theorem handle_some : m.handle i = some h ↔ m.slots[i]? = some (some h) := by
  unfold Machine.handle
  exact Option.join_eq_some_iff

theorem vacant_iff : m.vacant i = true ↔ m.slots[i]? = some none := by
  unfold Machine.vacant
  exact beq_iff_eq

theorem Managed.exact (hm : Managed n m) (hn : n < 2 ^ 64) : Exact m := by
  obtain ⟨ho, hslots⟩ := hm
  have hlen : m.live.length ≤ n := hslots ▸ List.reduceOption_length_le m.slots
  have hval : ∀ c, (UInt64.ofNat (sharers c m.live)).toNat = sharers c m.live := by
    intro c
    have := sharers_le_length c m.live
    exact UInt64.toNat_ofNat_of_lt' (show _ < 2 ^ 64 by omega)
  have hobject : ∀ a, a ∉ m.fresh →
      ((m.mem.objects.cell a).isSome = true ↔ ∃ h ∈ m.live, h.ptr = some a) := by
    intro a ha
    rw [ho.object a]
    simp only [ha, false_or]
  refine ⟨?_, ?_, ho.paired, fun h hh h' hh' => (ho.linked h hh h' hh').mp, hobject,
    fun c hc => m.mem.counts.freed_once hc, fun a ha => m.mem.objects.freed_once ha, ?_⟩
  · intro c k hc
    rw [ho.count c] at hc
    split at hc
    · cases hc
    · rename_i hne
      cases hc
      rw [hval c]
      exact ⟨rfl, Nat.pos_of_ne_zero hne⟩
  · intro h hh
    unfold Handle.getCount Machine.owners
    cases hc : h.sharedCount with
    | none => exact ⟨0, rfl, rfl⟩
    | some c => exact ⟨_, readCount_of_some (ho.count_of_mem hh hc), hval c⟩
  · intro hnil
    constructor
    · intro c
      rw [ho.count c, hnil]
      rfl
    · intro a ha
      have hno := (hobject a ha).not.mpr (by rw [hnil]; simp)
      exact Option.not_isSome_iff_eq_none.mp hno

/-! ## Each operation -/

/-- Putting a handle into the slot `i`, over what was there. -/
theorem Managed.put {mem : Memory T} {fresh : List Addr} {slots : List (Option Handle)}
    (hslots : slots.length = n) (hi : i < slots.length)
    (ho : Owned mem fresh (h :: (slots.set i none).reduceOption)) :
    Managed n ⟨mem, fresh, slots.set i (some h)⟩ :=
  ⟨ho.perm (perm_set_some hi).symm, (List.length_set).trans hslots⟩

theorem newObject_managed (hm : Managed n m) {a : Addr} {x : T} (h : m.newObject a x = some m') :
    Managed n m' := by
  unfold Machine.newObject at h
  split at h
  · cases h
    exact ⟨newObject_spec hm.owned (by assumption) x, hm.slots⟩
  · cases h

theorem construct_managed (hm : Managed n m) {p : Option Addr} {c : Addr}
    (h : m.construct i p c = some m') : Managed n m' := by
  unfold Machine.construct at h
  split at h
  · rename_i hok
    rw [Bool.and_eq_true, vacant_iff] at hok
    obtain ⟨hi, hp⟩ := hok
    split at h
    · cases h
      refine Managed.put hm.slots (lt_of_get hi) ?_
      rw [set_eq_of_get hi]
      refine construct_spec hm.owned _ fun a ha => ?_
      subst ha
      exact List.contains_iff_mem.mp hp
    · cases h
  · cases h

/-- Releasing the handle in the slot `i`. -/
theorem release_managed (hn : n < 2 ^ 64) (hm : Managed n m) (hi : m.slots[i]? = some (some h)) :
    ∃ mem' h', release m.mem h = .ok (mem', h') ∧
      Owned mem' m.fresh (m.slots.set i none).reduceOption ∧
      (Sole h m.live → h' = .null) ∧ (¬ Sole h m.live → h' = h) := by
  have hp : m.live.Perm (h :: (m.slots.set i none).reduceOption) := perm_of_get hi
  have hlen := List.reduceOption_length_le (m.slots.set i none)
  rw [List.length_set, hm.slots] at hlen
  have hsole : Sole h m.live ↔ Sole h (h :: (m.slots.set i none).reduceOption) := by
    unfold Sole sharers
    simp only [hp.countP_eq]
  rw [hsole]
  exact release_spec (by omega) (hm.owned.perm hp)

theorem copyConstruct_managed (hm : Managed n m) (hi : m.slots[i]? = some none)
    (hj : m.slots[j]? = some (some h)) : ∃ mem', copyConstruct m.mem h = .ok (mem', h) ∧
      Managed n { m with mem := mem', slots := m.slots.set i (some h) } := by
  obtain ⟨mem', hs, ho⟩ := share_spec hm.owned (mem_live hj)
  refine ⟨mem', hs, Managed.put hm.slots (lt_of_get hi) ?_⟩
  rw [set_eq_of_get hi]
  exact ho

/-- The handle `h` leaves the slot `j`, which becomes null, for the slot `i`, which no live
    handle uses any more. -/
theorem move_managed {mem : Memory T} (hslots : m.slots.length = n) (hi : i < m.slots.length)
    (hij : i ≠ j) (hj : m.slots[j]? = some (some h))
    (ho : Owned mem m.fresh (m.slots.set i none).reduceOption) :
    Managed n ⟨mem, m.fresh, (m.slots.set j (some .null)).set i (some h)⟩ := by
  refine ⟨ho.add_null.perm (perm_move hij hi hj).symm, ?_⟩
  simp only [List.length_set]
  exact hslots

theorem copyAssign_managed {this : Handle} (hn : n < 2 ^ 64) (hm : Managed n m) (hij : i ≠ j)
    (hi : m.slots[i]? = some (some this)) (hj : m.slots[j]? = some (some h)) :
    ∃ mem', copyAssign m.mem this h = .ok (mem', h) ∧
      Managed n { m with mem := mem', slots := m.slots.set i (some h) } := by
  obtain ⟨mem₁, h₁, hrel, ho₁, _⟩ := release_managed hn hm hi
  obtain ⟨mem₂, hsh, ho₂⟩ := share_spec ho₁ (mem_live (get_set_ne hij hj none))
  refine ⟨mem₂, ?_, Managed.put hm.slots (lt_of_get hi) ho₂⟩
  unfold copyAssign
  simp only [hrel, hsh, bind, Except.bind]

theorem moveAssign_managed {this : Handle} (hn : n < 2 ^ 64) (hm : Managed n m) (hij : i ≠ j)
    (hi : m.slots[i]? = some (some this)) (hj : m.slots[j]? = some (some h)) :
    ∃ mem', moveAssign m.mem this h = .ok (mem', h, .null) ∧
      Managed n ⟨mem', m.fresh, (m.slots.set j (some .null)).set i (some h)⟩ := by
  obtain ⟨mem₁, h₁, hrel, ho₁, _⟩ := release_managed hn hm hi
  refine ⟨mem₁, ?_, move_managed hm.slots (lt_of_get hi) hij hj ho₁⟩
  unfold moveAssign
  simp only [hrel, bind, Except.bind, pure, Except.pure]
  rfl

theorem destroy_managed (hn : n < 2 ^ 64) (hm : Managed n m) (hi : m.slots[i]? = some (some h)) :
    ∃ mem', destroy m.mem h = .ok mem' ∧
      Managed n { m with mem := mem', slots := m.slots.set i none } := by
  obtain ⟨mem₁, h₁, hrel, ho₁, _⟩ := release_managed hn hm hi
  refine ⟨mem₁, ?_, ho₁, (List.length_set).trans hm.slots⟩
  unfold destroy
  simp only [hrel, bind, Except.bind, pure, Except.pure]

theorem reset_managed (hn : n < 2 ^ 64) (hm : Managed n m) (hi : m.slots[i]? = some (some h))
    (hs : Sole h m.live) : ∃ mem', reset m.mem h = .ok (mem', .null) ∧
      Managed n { m with mem := mem', slots := m.slots.set i (some .null) } := by
  obtain ⟨mem₁, h₁, hrel, ho₁, hnull, _⟩ := release_managed hn hm hi
  rw [hnull hs] at hrel
  exact ⟨mem₁, hrel, Managed.put hm.slots (lt_of_get hi) ho₁.add_null⟩

/-- A handle that is reset while others share its object keeps its pointers. -/
theorem reset_shared (hn : n < 2 ^ 64) (hm : Managed n m) (hi : m.slots[i]? = some (some h))
    (hs : ¬ Sole h m.live) : ∃ mem', reset m.mem h = .ok (mem', h) := by
  obtain ⟨mem₁, h₁, hrel, _, _, hkeep⟩ := release_managed hn hm hi
  rw [hkeep hs] at hrel
  exact ⟨mem₁, hrel⟩

/-- Every `reset` is called on a handle that is null or the only owner of its object. -/
def soleReset (s : State T) (op : Op T) (_ : State T) : Prop :=
  ∀ m i h, s = .ok m → op = .reset i → m.handle i = some h → Sole h m.live

/-- The slot `i` holds a null handle. -/
def Machine.nullAt (m : Machine T) (i : Nat) : Prop := m.handle i = some .null

/-- **Every operation keeps the ownership law** and succeeds. -/
theorem apply_spec (hn : n < 2 ^ 64) (hm : Managed n m) {s' : State T} (h : m.apply op = some s')
    (hr : soleReset (.ok m) op s') :
    ∃ m', s' = .ok m' ∧ Managed n m' ∧ ∀ i, op = .reset i → m'.nullAt i := by
  cases op with
  | newObject a x =>
    obtain ⟨m', hm', rfl⟩ := Option.map_eq_some_iff.mp h
    exact ⟨m', rfl, newObject_managed hm hm', fun _ hop => nomatch hop⟩
  | construct i p c =>
    obtain ⟨m', hm', rfl⟩ := Option.map_eq_some_iff.mp h
    exact ⟨m', rfl, construct_managed hm hm', fun _ hop => nomatch hop⟩
  | makeShared i a x c =>
    obtain ⟨m', hm', rfl⟩ := Option.map_eq_some_iff.mp h
    obtain ⟨m₁, h₁, h₂⟩ := Option.bind_eq_some_iff.mp hm'
    exact ⟨m', rfl, construct_managed (newObject_managed hm h₁) h₂, fun _ hop => nomatch hop⟩
  | copyConstruct i j =>
    simp only [Machine.apply] at h
    split at h
    · rename_i other hi hj
      obtain ⟨mem', he, hm'⟩ := copyConstruct_managed hm (vacant_iff.mp hi) (handle_some.mp hj)
      rw [he] at h
      cases h
      exact ⟨_, rfl, hm', fun _ hop => nomatch hop⟩
    · cases h
  | moveConstruct i j =>
    simp only [Machine.apply] at h
    split at h
    · rename_i other hi hj
      have hi' := vacant_iff.mp hi
      have hj' := handle_some.mp hj
      have hij : i ≠ j := by
        rintro rfl
        rw [hi'] at hj'
        cases hj'
      cases h
      refine ⟨_, rfl, move_managed hm.slots (lt_of_get hi') hij hj' ?_, fun _ hop => nomatch hop⟩
      rw [set_eq_of_get hi']
      exact hm.owned
    · cases h
  | copyAssign i j =>
    simp only [Machine.apply] at h
    split at h
    · rename_i this other hi hj
      split at h
      · cases h
        exact ⟨m, rfl, hm, fun _ hop => nomatch hop⟩
      · rename_i hij
        obtain ⟨mem', he, hm'⟩ :=
          copyAssign_managed hn hm hij (handle_some.mp hi) (handle_some.mp hj)
        rw [he] at h
        cases h
        exact ⟨_, rfl, hm', fun _ hop => nomatch hop⟩
    · cases h
  | moveAssign i j =>
    simp only [Machine.apply] at h
    split at h
    · rename_i this other hi hj
      split at h
      · cases h
        exact ⟨m, rfl, hm, fun _ hop => nomatch hop⟩
      · rename_i hij
        obtain ⟨mem', he, hm'⟩ :=
          moveAssign_managed hn hm hij (handle_some.mp hi) (handle_some.mp hj)
        rw [he] at h
        cases h
        exact ⟨_, rfl, hm', fun _ hop => nomatch hop⟩
    · cases h
  | destroy i =>
    simp only [Machine.apply] at h
    split at h
    · rename_i this hi
      obtain ⟨mem', he, hm'⟩ := destroy_managed hn hm (handle_some.mp hi)
      rw [he] at h
      cases h
      exact ⟨_, rfl, hm', fun _ hop => nomatch hop⟩
    · cases h
  | reset i =>
    simp only [Machine.apply] at h
    split at h
    · rename_i this hi
      have hi' := handle_some.mp hi
      obtain ⟨mem', he, hm'⟩ := reset_managed hn hm hi' (hr m i this rfl rfl hi)
      rw [he] at h
      cases h
      refine ⟨_, rfl, hm', fun k hop => ?_⟩
      cases hop
      exact handle_some.mpr (List.getElem?_set_self (lt_of_get hi'))
    · cases h

/-! ## Runs -/

/-- **The ownership law holds in every reachable state.** -/
theorem runs_managed (hn : n < 2 ^ 64) {s : State T} (h : Reach soleReset step (init T n) s) :
    ∃ m, s = .ok m ∧ Managed n m := by
  refine Reach.invariant (I := fun s => ∃ m, s = .ok m ∧ Managed n m) ?_ ?_ h
  · refine ⟨_, rfl, ?_, List.length_replicate⟩
    unfold Machine.live
    rw [List.reduceOption_replicate_none]
    exact ⟨fun _ => rfl, fun _ hm => (nomatch hm), fun _ hm => (nomatch hm),
      fun _ hm => (nomatch hm), fun a => by simp⟩
  · rintro s op s' ⟨m, rfl, hm⟩ hs hok
    obtain ⟨m', rfl, hm', _⟩ := apply_spec hn hm hs hok
    exact ⟨m', rfl, hm'⟩

def Op.isReset : Op T → Bool
  | .reset _ => true
  | _ => false

/-- No call of `reset`. -/
def noReset (_ : State T) (op : Op T) (_ : State T) : Prop := op.isReset = false

instance : ∀ s op s', Decidable (noReset (T := T) s op s') := fun _ op _ =>
  inferInstanceAs (Decidable (op.isReset = false))

/-- **Reference counting is exact and memory-safe**, for any number `n < 2^64` of handles and
    every finite sequence of constructions, copies, moves, assignments and destructions: no step
    touches a freed counter or object, and in every reachable state each counter is the number of
    live handles that refer to it, a managed object is allocated exactly if some live handle
    refers to it, everything that is no longer allocated was deleted exactly once, and when no
    handle is left nothing managed is allocated. -/
theorem shared_ptr_exact (T : Type) (n : Nat) (hn : n < 2 ^ 64) (s : State T)
    (h : Reach noReset step (init T n) s) : ∃ m, s = .ok m ∧ Exact m := by
  have hsole : Reach soleReset step (init T n) s := by
    refine Reach.mono (fun _ op _ hno => ?_) h
    rintro m i h rfl rfl _
    cases hno
  obtain ⟨m, rfl, hm⟩ := runs_managed hn hsole
  exact ⟨m, rfl, hm.exact hn⟩

/-- The chain of handles of the test program, and their destruction. -/
def chainRun : List (Op Nat) :=
  [.makeShared 0 0 10 0, .copyConstruct 1 0, .construct 2 none 1, .copyAssign 2 1,
    .moveConstruct 3 0, .construct 4 none 1, .moveAssign 4 3, .destroy 4, .destroy 3, .destroy 2,
    .destroy 1, .destroy 0]

theorem shared_ptr_exact_chain :
    ∃ m, (exec (guarded noReset step) (init Nat 5) chainRun).get (by decide) = .ok m ∧ Exact m :=
  shared_ptr_exact Nat 5 (by decide) _ (exec_guarded_get chainRun (by decide))

/-- The step leaves the reference counts exact, and a handle that it resets is empty. -/
def givesUp (_ : State T) (op : Op T) (s' : State T) : Prop :=
  ∃ m', s' = .ok m' ∧ Exact m' ∧ ∀ i, op = .reset i → ∃ h, m'.handle i = some h ∧
    h.get = none ∧ h.toBool = false ∧ h.getCount m'.mem = .ok 0

theorem givesUp_iff (hn : n < 2 ^ 64) (s : State T) (op : Op T) (s' : State T)
    (hr : Reach soleReset step (init T n) s) (hs : step s op = some s') :
    givesUp s op s' ↔ soleReset s op s' := by
  obtain ⟨m, rfl, hm⟩ := runs_managed hn hr
  constructor
  · rintro ⟨m', rfl, _, hempty⟩ m₀ i h h₀ rfl hi
    cases h₀
    by_contra hns
    obtain ⟨mem', he⟩ := reset_shared hn hm (handle_some.mp hi) hns
    simp only [step, Machine.apply, hi, he] at hs
    cases hs
    -- the handle is still there, with its counter
    obtain ⟨h', hh', hget, _⟩ := hempty i rfl
    rw [handle_some, List.getElem?_set_self (lt_of_get (handle_some.mp hi))] at hh'
    cases hh'
    have hnone := (hm.owned.paired h (mem_live (handle_some.mp hi))).mp hget
    exact hns fun c hc => by rw [hnone] at hc; cases hc
  · intro hok
    obtain ⟨m', rfl, hm', hnull⟩ := apply_spec hn hm hs hok
    exact ⟨m', rfl, hm'.exact hn, fun i hop => ⟨.null, hnull i hop, rfl, rfl, rfl⟩⟩

/-- **`reset` gives up one share** exactly if the handle is null or the only owner of its object:
    a run keeps the reference counts exact in all its states, with every reset handle empty and no
    access to freed memory, if and only if all its resets are of that kind. -/
theorem reset_gives_up (T : Type) (n : Nat) (hn : n < 2 ^ 64) (ops : List (Op T)) :
    Allowed givesUp step (init T n) ops ↔ Allowed soleReset step (init T n) ops :=
  Allowed.congr (givesUp_iff hn) ops Reach.refl

/-- A sole owner is reset. -/
theorem reset_gives_up_sole :
    Allowed givesUp step (init Nat 1) [.makeShared 0 0 7 0, .reset 0] := by
  refine (reset_gives_up Nat 1 (by decide) _).mpr ?_
  intro s₁ h₁
  refine ⟨fun _ _ _ _ hop => (nomatch hop), ?_⟩
  cases h₁
  intro s₂ h₂
  refine ⟨?_, trivial⟩
  intro m i h hm hop hi
  cases hm
  cases hop
  cases hi
  intro c hc
  cases hc
  rfl

/-- Handle 1 shares the object of handle 0 and is reset. -/
def sharedReset : List (Op Nat) := [.makeShared 0 0 7 0, .copyConstruct 1 0, .reset 1]

/-- After the reset, handle 1 still points at the object, although the counter is 1.  Destroying
    it deletes the object under handle 0, and destroying handle 0 touches the freed counter. -/
theorem reset_shared_dangles :
    (∃ m, exec step (init Nat 2) sharedReset = some (.ok m) ∧
      m.handle 1 = some ⟨some 0, some 0⟩ ∧ m.mem.counts.cell 0 = some 1) ∧
    (∃ m, exec step (init Nat 2) (sharedReset ++ [.destroy 1]) = some (.ok m) ∧
      m.handle 0 = some ⟨some 0, some 0⟩ ∧ m.mem.objects.cell 0 = none) ∧
    exec step (init Nat 2) (sharedReset ++ [.destroy 1, .destroy 0]) =
      some (.error (.counter 0)) :=
  ⟨⟨_, rfl, rfl, rfl⟩, ⟨_, rfl, rfl, rfl⟩, rfl⟩

end CppBackend.SharedPtr
