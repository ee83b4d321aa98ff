import CppBackend.Library.Transition
import CppBackend.ObjectGraph.Cascade

/-!
# Programs over objects that own handles

Every operation keeps the ownership law (`Managed`), or it faults (`apply_ends`).  `reset` of a
`shared_ptr` is only called on a handle that no other one shares its object with (`soleReset`): on
another one it leaves a pointer behind that is not counted.

* `assign_ends` — the assignments: they fault exactly if the target or the source is a member of an
  object that the target keeps alive, and otherwise the target gets the handle of the source;
* `runs_managed` — the law in every reachable state.
-/

set_option autoImplicit false

namespace CppBackend.ObjectGraph

open Library Library.Storage Library.Slots Library.Keyed Library.Transition

variable {vars n : Nat} {m₀ m m' : Machine} {a i j : Slot} {start : Option Handle} {g h : Handle}
  {x : Addr} {heap' : Heaps}

theorem handle_set_self {slots : List (Option Handle)} (heap : Heaps) (hi : i < slots.length)
    (o : Option Handle) : Machine.handle ⟨heap, slots.set i o⟩ i = o := by
  unfold Machine.handle
  rw [List.getElem?_set_self hi]
  rfl

theorem handle_set_ne {slots : List (Option Handle)} (heap : Heaps) (hji : j ≠ i)
    (o : Option Handle) : Machine.handle ⟨heap, slots.set i o⟩ j = Machine.handle ⟨heap, slots⟩ j := by
  unfold Machine.handle
  rw [List.getElem?_set_ne (Ne.symm hji)]

/-- Storing into a live handle leaves it alive, and the others too. -/
theorem live_set {slots : List (Option Handle)} {heap heap' : Heaps} (hi : i < slots.length)
    (hj : (Machine.handle ⟨heap, slots⟩ j).isSome = true) :
    (Machine.handle ⟨heap', slots.set i (some h)⟩ j).isSome = true := by
  by_cases hji : j = i
  · subst hji
    rw [handle_set_self _ hi]
    rfl
  · rw [handle_set_ne _ hji]
    exact hj

theorem lt_of_handle (hi : m.handle i = some h) : i < m.slots.length :=
  lt_of_get (handle_some.mp hi)

/-- The ownership law again, when no object has come to life. -/
theorem Managed.of (hm : Managed vars n m₀) (hlen : m.slots.length = m₀.slots.length)
    (ho : Owned m.heap [] m.live) (hkept : ∀ x ms, m.members x = some ms → m₀.members x = some ms)
    (hstored : ∀ i x, m.Inside i x → (m.handle i).isSome = true) : Managed vars n m := by
  have hinside : ∀ i x, m.Inside i x → m₀.Inside i x := by
    rintro i x ⟨ms, hms, hi⟩
    exact ⟨ms, hkept x ms hms, hi⟩
  refine ⟨hlen.trans hm.length, ho, fun x ms hms => hm.nodup x ms (hkept x ms hms), fun i x hi => ?_,
    fun i x y hx hy => hm.apart i x y (hinside i x hx) (hinside i y hy)⟩
  exact ⟨(hm.stored i x (hinside i x hi)).1, hstored i x hi⟩

/-! ## Letting go -/

theorem live_lt_depth : m.live.length < m.depth :=
  Nat.lt_succ_of_le (List.reduceOption_length_le m.slots)

theorem target_start {k : Handle} (hp : ∀ x, g.ptr = some x → k.ptr = some x) :
    ∀ g' y, some g = some g' → g'.ptr = some y → k.ptr = some y ∨ m.members y = none := by
  rintro g' y ⟨⟩ hy
  exact Or.inl (hp y hy)

/-- `delete ptr` of the `unique_ptr` in the slot `a`. -/
theorem letGo_unique {u : UniquePtr.Handle} (hm : Managed vars n m)
    (ha : m.handle a = some (.unique u)) :
    (deleteObject (destroy m.depth) m u.ptr).Ends (fun _ => m.Doomed a a)
      fun m' => During m a (some (.unique u)) m' [] [] [] := by
  have hstart : ∀ h, some (Handle.unique u) = some h → m.handle a = some h := by
    rintro h ⟨⟩
    exact ha
  refine (deleteUnique_ends hm (destroy_ends hm hstart m.depth) (hm.during ha)
    (target_start fun _ hx => hx) live_lt_depth).mono ?_
  rintro m' ⟨hd, -⟩
  exact hd

/-- The slot `a` is written to when its handle has let go. -/
theorem During.store (hd : During m₀ a start m [] [] []) (ha : m.handle a = some g) :
    During m₀ a (some h) { m with slots := m.slots.set a (some h) } [] [] [] := by
  have halen := lt_of_handle ha
  refine ⟨?_, ?_, fun i k hia hi => ?_, hd.kept, fun i x hi => ?_, hd.nodup,
    fun _ hi => (nomatch hi), fun i hia h₀ hnone => ?_, fun x hx i hi => ?_, hd.released, ?_⟩
  · rw [← hd.length]
    exact List.length_set
  · have hrest : Machine.rest { m with slots := m.slots.set a (some h) } a = m.rest a := by
      unfold Machine.rest
      rw [List.set_set]
    rw [hrest]
    exact hd.owned
  · rw [handle_set_ne _ hia] at hi
    exact hd.same i k hia hi
  · exact ⟨live_set halen (hd.stored i x hi).1, List.not_mem_nil⟩
  · rw [handle_set_ne _ hia] at hnone
    exact hd.gone i hia h₀ hnone
  · have hnone := (hd.dead x hx i hi).resolve_right List.not_mem_nil
    have hia : i ≠ a := by
      rintro rfl
      rw [ha] at hnone
      cases hnone
    rw [handle_set_ne _ hia]
    exact Or.inl hnone
  · exact Or.inl (handle_set_self _ halen _)

/-- A slot that has lost its handle was inside of an object that is gone. -/
theorem During.self_doomed (hd : During m₀ a (some g) m [] [] []) (ha : m.handle a = none) :
    m₀.Doomed a a := by
  rcases hd.self with hself | ⟨-, hdoomed⟩
  · rw [ha] at hself
    cases hself
  · exact hdoomed

/-- `release` of the `shared_ptr` in the slot `a`, and its store into the slot. -/
theorem letGo_shared {s : SharedPtr.Handle} (hm : Managed vars n m)
    (ha : m.handle a = some (.shared s)) :
    (releaseAt m.depth m a s).Ends (fun _ => m.Doomed a a) fun m' => ∃ s',
      During m a (some (.shared s')) m' [] [] [] ∧ m'.handle a = some (.shared s') ∧
      ((∀ c, s.sharedCount = some c → sharers c (m.rest a) = 0) → s' = .null) := by
  have hstart : ∀ h, some (Handle.shared s) = some h → m.handle a = some h := by
    rintro h ⟨⟩
    exact ha
  unfold releaseAt
  refine (release_ends hm (destroy_ends hm hstart m.depth) (hm.during ha)
    (target_start fun _ hx => hx) live_lt_depth).bind ?_
  rintro ⟨m', s'⟩ ⟨hd, -, hleft⟩
  simp only at hd
  show (m'.write a (.shared s')).Ends _ _
  unfold Machine.write
  cases hnow : m'.handle a with
  | none => exact hd.self_doomed hnow
  | some g =>
    exact ⟨s', hd.store hnow, handle_set_self _ (lt_of_handle hnow) _, hleft⟩

/-- The slot `a` gets the handle `g`, which the heap already counts. -/
theorem During.settle (hm : Managed vars n m₀) (hd : During m₀ a start m [] [] [])
    (ha : m.handle a = some h) (hobj : heap'.objects.cell = m.heap.objects.cell)
    (ho : Owned heap' [] (g :: m.rest a)) : Managed vars n ⟨heap', m.slots.set a (some g)⟩ := by
  have hmembers : ∀ x, Machine.members ⟨heap', m.slots.set a (some g)⟩ x = m.members x :=
    fun x => congrFun hobj x
  refine hm.of ?_ (ho.perm (perm_set_some (lt_of_handle ha)).symm) ?_ ?_
  · exact (List.length_set).trans hd.length
  · intro x ms hms
    rw [hmembers] at hms
    exact hd.kept x ms hms
  · rintro i x ⟨ms, hms, hi⟩
    rw [hmembers] at hms
    exact live_set (lt_of_handle ha) (hd.stored i x ⟨ms, hms, hi⟩).1

/-- The live handles and the one that the slot `a` is to get, in number. -/
theorem During.room (hn : n < 2 ^ 64) (hm : Managed vars n m₀)
    (hd : During m₀ a start m [] [] []) (ha : m.handle a = some h) :
    (m.rest a).length + 1 < 2 ^ 64 := by
  have hp := (live_perm ha).length_eq
  have hle := List.reduceOption_length_le m.slots
  have hlen := hd.length.trans hm.length
  rw [List.length_cons] at hp
  unfold Machine.live at hp
  omega

/-! ## The assignments -/

/-- The target and the source of an assignment, and what the target gets. -/
structure Assigned (vars n : Nat) (m₀ : Machine) (i j : Slot) (h : Handle) (m : Machine) : Prop where
  target : ¬ m₀.Doomed i i
  source : ¬ m₀.Doomed i j
  managed : Managed vars n m
  holds : m.handle i = some h

/-- The handle in the slot `j`, after the one in the slot `i` has let go. -/
theorem read_ends (hd : During m₀ i (some g) m [] [] []) (hij : i ≠ j)
    (hj : m₀.handle j = some h) : (m.read j).Ends (fun _ => m₀.Doomed i i ∨ m₀.Doomed i j)
      fun k => k = h ∧ m.handle j = some h ∧ ¬ m₀.Doomed i j := by
  unfold Machine.read
  cases hnow : m.handle j with
  | none =>
    refine Or.inr (Classical.byContradiction fun hnot => ?_)
    rw [hd.handle_kept (Ne.symm hij) hj hnot] at hnow
    cases hnow
  | some k =>
    have hsame := hd.same j k (Ne.symm hij) hnow
    rw [hj] at hsame
    cases hsame
    refine ⟨rfl, rfl, fun hdoomed => ?_⟩
    rw [hd.doomed_gone hdoomed] at hnow
    cases hnow

/-- The store into the slot `i`, after its handle has let go. -/
theorem write_ends (hd : During m₀ i (some g) m [] [] []) (h : Handle) :
    (m.write i h).Ends (fun _ => m₀.Doomed i i ∨ m₀.Doomed i j) fun m' =>
      m' = { m with slots := m.slots.set i (some h) } ∧ (∃ k, m.handle i = some k) ∧
      ¬ m₀.Doomed i i := by
  unfold Machine.write
  cases hnow : m.handle i with
  | none => exact Or.inl (hd.self_doomed hnow)
  | some k =>
    refine ⟨rfl, ⟨k, rfl⟩, fun hdoomed => ?_⟩
    rw [hd.doomed_gone hdoomed] at hnow
    cases hnow

/-- The handle `h` leaves the slot `j`, which becomes null, for the slot `i`. -/
theorem During.move (hn : n < 2 ^ 64) (hm : Managed vars n m₀) (hd : During m₀ i start m [] [] [])
    (hij : i ≠ j) (hi : m.handle i = some g) (hj : m.handle j = some h) (k : Kind) :
    Managed vars n ⟨m.heap, (m.slots.set i (some h)).set j (some (.null k))⟩ := by
  have hilen := lt_of_handle hi
  have hjlen : j < (m.slots.set i (some h)).length := by
    rw [List.length_set]
    exact lt_of_handle hj
  have hnull : Owned m.heap [] (.null k :: m.rest i) := hd.owned.add_null (hd.room hn hm hi) k
  refine hm.of ?_ (hnull.perm ?_) hd.kept fun l x hl => ?_
  · simp only [List.length_set]
    exact hd.length
  · unfold Machine.live
    rw [List.set_comm _ _ hij]
    exact (perm_move hij hilen (handle_some.mp hj)).symm
  · have hset : (Machine.handle { m with slots := m.slots.set i (some h) } l).isSome = true :=
      live_set hilen (hd.stored l x hl).1
    exact live_set hjlen hset

/-- The source is null afterwards. -/
theorem takeOver_ends (hn : n < 2 ^ 64) (hm : Managed vars n m₀)
    (hd : During m₀ i (some g) m [] [] []) (hij : i ≠ j) (hj : m₀.handle j = some h) :
    (takeOver m i j).Ends (fun _ => m₀.Doomed i i ∨ m₀.Doomed i j) (Assigned vars n m₀ i j h) := by
  unfold takeOver
  refine (read_ends hd hij hj).bind ?_
  rintro k ⟨rfl, hjnow, hsource⟩
  refine (write_ends hd k).bind ?_
  rintro m' ⟨rfl, ⟨k', hinow⟩, htarget⟩
  have hset : Machine.handle { m with slots := m.slots.set i (some k) } j = some k := by
    rw [handle_set_ne _ (Ne.symm hij)]
    exact hjnow
  show (Machine.write _ _ _).Ends _ _
  unfold Machine.write
  rw [hset]
  refine ⟨htarget, hsource, hd.move hn hm hij hinow hjnow _, ?_⟩
  · show Machine.handle ⟨m.heap, (m.slots.set i (some k)).set j _⟩ i = _
    rw [handle_set_ne _ hij]
    exact handle_set_self _ (lt_of_handle hinow) _

/-- One more owner for the object of a `shared_ptr`. -/
theorem share_spec {heap : Heaps} {hs : List Handle} {s : SharedPtr.Handle} (ho : Owned heap [] hs)
    (hlen : hs.length + 1 < 2 ^ 64) (hs' : .shared s ∈ hs) :
    ∃ heap', SharedPtr.share heap s = .ok (heap', s) ∧ heap'.objects = heap.objects ∧
      Owned heap' [] (.shared s :: hs) := by
  unfold SharedPtr.share
  cases hc : s.sharedCount with
  | none =>
    have hp : s.ptr = none := (ho.paired _ hs' rfl).mpr hc
    have hnull : Handle.shared s = .null .shared := by
      cases s
      cases hc
      cases hp
      rfl
    refine ⟨heap, rfl, rfl, ?_⟩
    rw [hnull]
    exact ho.add_null hlen .shared
  | some c =>
    have hcount := (ho.count_of_mem hs' hc).2
    obtain ⟨heap', hw, hobj, hcell⟩ :=
      SharedPtr.writeCount_of_some hcount (UInt64.ofNat (sharers c hs) + 1)
    refine ⟨heap', ?_, hobj, ho.add_sharer hlen hs' hc hobj hcell⟩
    simp only [SharedPtr.readCount_of_some hcount, hw, bind, Except.bind, pure, Except.pure]

theorem copy_ends {s : SharedPtr.Handle} (hn : n < 2 ^ 64) (hm : Managed vars n m₀)
    (hd : During m₀ i (some g) m [] [] []) (hij : i ≠ j) (hj : m₀.handle j = some (.shared s)) :
    (share m i j).Ends (fun _ => m₀.Doomed i i ∨ m₀.Doomed i j)
      (Assigned vars n m₀ i j (.shared s)) := by
  unfold share
  refine (read_ends hd hij hj).bind ?_
  rintro k ⟨rfl, hjnow, hsource⟩
  refine (write_ends hd (.shared s)).bind ?_
  rintro m' ⟨rfl, ⟨k', hinow⟩, htarget⟩
  have hmem : Handle.shared s ∈ m.rest i := mem_rest_iff.mpr ⟨j, Ne.symm hij, hjnow⟩
  obtain ⟨heap', hshare, hobj, ho⟩ := share_spec hd.owned (hd.room hn hm hinow) hmem
  simp only [hshare, lift, Outcome.ok_bind]
  refine ⟨htarget, hsource, hd.settle hm hinow (by rw [hobj]) ho, ?_⟩
  exact handle_set_self _ (lt_of_handle hinow) _

/-- **Move assignment** between two `unique_ptr`. -/
theorem moveAssignUnique_ends {u : UniquePtr.Handle} (hn : n < 2 ^ 64) (hm : Managed vars n m)
    (hij : i ≠ j) (hi : m.handle i = some (.unique u)) (hj : m.handle j = some h) :
    (moveAssignUnique m.depth m i j u).Ends (fun _ => m.Doomed i i ∨ m.Doomed i j)
      (Assigned vars n m i j h) := by
  unfold moveAssignUnique
  rw [if_neg hij]
  refine ((letGo_unique hm hi).mono_fault fun _ hdoomed => Or.inl hdoomed).bind fun m' hd => ?_
  exact takeOver_ends hn hm hd hij hj

/-- **Move assignment** between two `shared_ptr`. -/
theorem moveAssignShared_ends {s : SharedPtr.Handle} (hn : n < 2 ^ 64) (hm : Managed vars n m)
    (hij : i ≠ j) (hi : m.handle i = some (.shared s)) (hj : m.handle j = some h) :
    (moveAssignShared m.depth m i j s).Ends (fun _ => m.Doomed i i ∨ m.Doomed i j)
      (Assigned vars n m i j h) := by
  unfold moveAssignShared
  rw [if_neg hij]
  refine ((letGo_shared hm hi).mono_fault fun _ hdoomed => Or.inl hdoomed).bind ?_
  rintro m' ⟨s', hd, -, -⟩
  exact takeOver_ends hn hm hd hij hj

/-- **Copy assignment.** -/
theorem copyAssign_ends {s t : SharedPtr.Handle} (hn : n < 2 ^ 64) (hm : Managed vars n m)
    (hij : i ≠ j) (hi : m.handle i = some (.shared s)) (hj : m.handle j = some (.shared t)) :
    (copyAssign m.depth m i j s).Ends (fun _ => m.Doomed i i ∨ m.Doomed i j)
      (Assigned vars n m i j (.shared t)) := by
  unfold copyAssign
  rw [if_neg hij]
  refine ((letGo_shared hm hi).mono_fault fun _ hdoomed => Or.inl hdoomed).bind ?_
  rintro m' ⟨s', hd, -, -⟩
  exact copy_ends hn hm hd hij hj

inductive Assignment where
  | copy
  | move
  deriving DecidableEq, Repr

def Assignment.op : Assignment → Slot → Slot → Op
  | .copy => .copyAssign
  | .move => .moveAssign

/-- **Every assignment**, to itself and to another handle. -/
theorem assign_ends {k : Assignment} {r : Run Machine} (hn : n < 2 ^ 64) (hm : Managed vars n m)
    (h : m.apply vars (k.op i j) = some r) : ∃ g, m.handle j = some g ∧ (i = j → r = .ok m) ∧
      (i ≠ j → r.Ends (fun _ => m.Doomed i i ∨ m.Doomed i j) (Assigned vars n m i j g)) := by
  cases k with
  | copy =>
    simp only [Assignment.op, Machine.apply] at h
    split at h
    · rename_i this other hi hj
      cases h
      exact ⟨_, hj, fun hij => if_pos hij, fun hij => copyAssign_ends hn hm hij hi hj⟩
    · cases h
  | move =>
    simp only [Assignment.op, Machine.apply] at h
    split at h
    · rename_i this other hi hj
      cases h
      exact ⟨_, hj, fun hij => if_pos hij, fun hij => moveAssignUnique_ends hn hm hij hi hj⟩
    · rename_i this other hi hj
      cases h
      exact ⟨_, hj, fun hij => if_pos hij, fun hij => moveAssignShared_ends hn hm hij hi hj⟩
    · cases h

theorem assign_managed {r : Run Machine} (hn : n < 2 ^ 64) (hm : Managed vars n m) (k : Assignment)
    (h : m.apply vars (k.op i j) = some r) : r.Ends (fun _ => True) (Managed vars n) := by
  obtain ⟨g, -, hself, hother⟩ := assign_ends hn hm h
  by_cases hij : i = j
  · rw [hself hij]
    exact hm
  · exact ((hother hij).mono_fault fun _ _ => trivial).mono fun _ ha => ha.managed

/-! ## Construction -/

theorem vacant_iff : m.vacant i = true ↔ m.slots[i]? = some none := by
  unfold Machine.vacant
  exact beq_iff_eq

theorem construct_some (hc : m.construct vars i h = some m') :
    m.slots[i]? = some none ∧ m' = { m with slots := m.slots.set i (some h) } := by
  unfold Machine.construct at hc
  split at hc
  · rename_i hok
    cases hc
    exact ⟨vacant_iff.mp hok.2, rfl⟩
  · cases hc

/-- There is room for a handle in a slot that is vacant. -/
theorem vacant_room (hn : m.slots.length < 2 ^ 64) (hi : m.slots[i]? = some none) :
    m.live.length + 1 < 2 ^ 64 := by
  have hp := (perm_set_some (x := Handle.null .unique) (lt_of_get hi)).length_eq
  have hle := List.reduceOption_length_le (m.slots.set i (some (.null .unique)))
  rw [set_eq_of_get hi] at hp
  rw [List.length_set] at hle
  rw [List.length_cons] at hp
  unfold Machine.live
  omega

/-- A vacant slot gets the handle `h`, which the heap already counts. -/
theorem Managed.add (hm : Managed vars n m) (hi : m.slots[i]? = some none)
    (hobj : heap'.objects.cell = m.heap.objects.cell) (ho : Owned heap' [] (h :: m.live)) :
    Managed vars n ⟨heap', m.slots.set i (some h)⟩ := by
  have hmembers : ∀ x, Machine.members ⟨heap', m.slots.set i (some h)⟩ x = m.members x :=
    fun x => congrFun hobj x
  refine hm.of List.length_set (ho.perm ?_) (fun x ms hms => ?_) ?_
  · have hp := perm_set_some (x := h) (lt_of_get hi)
    rw [set_eq_of_get hi] at hp
    exact hp.symm
  · rw [hmembers] at hms
    exact hms
  · rintro l x ⟨ms, hms, hl⟩
    rw [hmembers] at hms
    exact live_set (lt_of_get hi) (hm.stored l x ⟨ms, hms, hl⟩).2

theorem Managed.add_null (hn : n < 2 ^ 64) (hm : Managed vars n m) (hi : m.slots[i]? = some none)
    (k : Kind) : Managed vars n { m with slots := m.slots.set i (some (.null k)) } :=
  hm.add hi rfl (hm.owned.add_null (vacant_room (by rw [hm.length]; exact hn) hi) k)

/-- The handle `h` leaves the slot `j`, which becomes null, for the vacant slot `i`. -/
theorem Managed.move (hn : n < 2 ^ 64) (hm : Managed vars n m) (hj : m.handle j = some h) (k : Kind)
    (hi : (m.slots.set j (some (.null k)))[i]? = some none) :
    Managed vars n ⟨m.heap, (m.slots.set j (some (.null k))).set i (some h)⟩ := by
  have hjlen := lt_of_handle hj
  have hij : j ≠ i := by
    rintro rfl
    rw [List.getElem?_set_self hjlen] at hi
    cases hi
  have hi' : m.slots[i]? = some none := by
    rw [List.getElem?_set_ne hij] at hi
    exact hi
  have hnull : Owned m.heap [] (.null k :: m.live) :=
    hm.owned.add_null (vacant_room (by rw [hm.length]; exact hn) hi') k
  have hrest : m.slots.set i none = m.slots := set_eq_of_get hi'
  refine hm.of ?_ (hnull.perm ?_) (fun _ _ hms => hms) fun l x hl => ?_
  · simp only [List.length_set]
  · have hp := perm_move (y := .null k) (Ne.symm hij) (lt_of_get hi') (handle_some.mp hj)
    rw [hrest] at hp
    exact hp.symm
  · have hset : (Machine.handle { m with slots := m.slots.set j (some (.null k)) } l).isSome = true :=
      live_set hjlen (hm.stored l x hl).2
    exact live_set (lt_of_get hi) hset

/-! ## New objects -/

theorem constructAll_length (members : List (Slot × Kind)) : ∀ slots : List (Option Handle),
    (constructAll slots members).length = slots.length := by
  induction members with
  | nil => exact fun _ => rfl
  | cons p members ih =>
    intro slots
    rw [constructAll, List.foldl_cons]
    exact (ih _).trans List.length_set

/-- The members of a new object are alive, and so is what was alive before. -/
theorem constructAll_live (members : List (Slot × Kind)) : ∀ {slots : List (Option Handle)},
    (∀ p ∈ members, p.1 < slots.length) →
    (Machine.handle ⟨heap', slots⟩ i).isSome = true ∨ i ∈ members.map Prod.fst →
    (Machine.handle ⟨heap', constructAll slots members⟩ i).isSome = true := by
  induction members with
  | nil =>
    rintro slots - (hi | hi)
    · exact hi
    · cases hi
  | cons p members ih =>
    intro slots hlen hi
    rw [constructAll, List.foldl_cons]
    refine ih (fun q hq => ?_) ?_
    · rw [List.length_set]
      exact hlen q (.tail _ hq)
    · have hp := hlen p List.mem_cons_self
      rw [List.map_cons, List.mem_cons] at hi
      rcases hi with hi | rfl | hi
      · exact Or.inl (live_set hp hi)
      · exact Or.inl (by rw [handle_set_self _ hp]; rfl)
      · exact Or.inr hi

/-- The null handles of the members own nothing. -/
theorem constructAll_owned {heap : Heaps} (members : List (Slot × Kind)) :
    ∀ {slots : List (Option Handle)}, slots.length < 2 ^ 64 → (members.map Prod.fst).Nodup →
    (∀ p ∈ members, slots[p.1]? = some none) → Owned heap [] slots.reduceOption →
    Owned heap [] (constructAll slots members).reduceOption := by
  induction members with
  | nil => exact fun _ _ _ ho => ho
  | cons p members ih =>
    intro slots hlen hnodup hvacant ho
    rw [constructAll, List.foldl_cons]
    rw [List.map_cons, List.nodup_cons] at hnodup
    have hp := hvacant p List.mem_cons_self
    refine ih (by rw [List.length_set]; exact hlen) hnodup.2 (fun q hq => ?_) ?_
    · refine get_set_ne (fun he => hnodup.1 ?_) (hvacant q (.tail _ hq)) _
      rw [he]
      exact List.mem_map_of_mem hq
    · have hperm := perm_set_some (x := Handle.null p.2) (lt_of_get hp)
      rw [set_eq_of_get hp] at hperm
      have hroom : slots.reduceOption.length + 1 < 2 ^ 64 :=
        vacant_room (m := ⟨heap, slots⟩) hlen hp
      exact (ho.add_null hroom p.2).perm hperm.symm

theorem newObject_counts {members : List (Slot × Kind)}
    (hnew : m.newObject vars x members = some m') : m'.heap.counts = m.heap.counts := by
  unfold Machine.newObject at hnew
  split at hnew
  · split at hnew
    · cases hnew
      rfl
    · cases hnew
  · cases hnew

/-- **A new object and its first owner.** -/
theorem Managed.adopt {members : List (Slot × Kind)} (hn : n < 2 ^ 64) (hm : Managed vars n m)
    (hnew : m.newObject vars a members = some m') (hi : m'.slots[i]? = some none)
    (hp : h.ptr = some a) (hk : h.kind = .shared → h.sharedCount ≠ none)
    (hobj : heap'.objects = m'.heap.objects)
    (hfree : ∀ c, h.sharedCount = some c → m.heap.counts.cell c = none)
    (hcounts : ∀ c, heap'.counts.cell c =
      if h.sharedCount = some c then some 1 else m.heap.counts.cell c) :
    Managed vars n ⟨heap', m'.slots.set i (some h)⟩ := by
  unfold Machine.newObject at hnew
  split at hnew
  · rename_i ha
    split at hnew
    · rename_i hroom
      cases hnew
      obtain ⟨hnodup, hvacant⟩ := hroom
      have hvac : ∀ p ∈ members, m.slots[p.1]? = some none := fun p hq => vacant_iff.mp (hvacant p hq).2
      have hcell : ∀ x, heap'.objects.cell x =
          if x = a then some (members.map Prod.fst) else m.members x := by
        intro x
        rw [hobj]
        exact Function.update_apply _ _ _ _
      have hmembers : ∀ x, Machine.members ⟨heap', (constructAll m.slots members).set i (some h)⟩ x =
          if x = a then some (members.map Prod.fst) else m.members x := hcell
      have hlen : m.slots.length < 2 ^ 64 := by
        rw [hm.length]
        exact hn
      have ho : Owned m.heap [] (constructAll m.slots members).reduceOption :=
        constructAll_owned members hlen hnodup hvac hm.owned
      have hroom : (constructAll m.slots members).reduceOption.length + 1 < 2 ^ 64 := by
        refine vacant_room (m := ⟨m.heap, constructAll m.slots members⟩) ?_ hi
        rw [constructAll_length]
        exact hlen
      have hperm := perm_set_some (x := h) (lt_of_get hi)
      rw [set_eq_of_get hi] at hperm
      have hlive : ∀ l, (m.handle l).isSome = true ∨ l ∈ members.map Prod.fst →
          (Machine.handle ⟨heap', (constructAll m.slots members).set i (some h)⟩ l).isSome = true := by
        intro l hl
        have hall : (Machine.handle ⟨m.heap, constructAll m.slots members⟩ l).isSome = true :=
          constructAll_live members (fun p hq => lt_of_get (hvac p hq)) hl
        exact live_set (lt_of_get hi) hall
      have hapart : ∀ l, l ∈ members.map Prod.fst → ∀ x, ¬ m.Inside l x := by
        intro l hl x hin
        obtain ⟨p, hq, rfl⟩ := List.mem_map.mp hl
        have halive := (hm.stored p.1 x hin).2
        unfold Machine.handle at halive
        rw [hvac p hq] at halive
        cases halive
      refine ⟨?_, (ho.add_first hroom ha hp hk (fun b => ?_) hfree hcounts).perm hperm.symm, ?_, ?_, ?_⟩
      · rw [List.length_set, constructAll_length]
        exact hm.length
      · rw [hcell]
        by_cases hb : b = a
        · simp [hb]
        · simp [hb, Machine.members]
      · intro x ms hms
        rw [hmembers] at hms
        split at hms
        · cases hms
          exact hnodup
        · exact hm.nodup x ms hms
      · rintro l x ⟨ms, hms, hl⟩
        rw [hmembers] at hms
        split at hms
        · cases hms
          obtain ⟨p, hq, rfl⟩ := List.mem_map.mp hl
          exact ⟨(hvacant p hq).1, hlive p.1 (Or.inr (List.mem_map_of_mem hq))⟩
        · obtain ⟨hvar, halive⟩ := hm.stored l x ⟨ms, hms, hl⟩
          exact ⟨hvar, hlive l (Or.inl halive)⟩
      · rintro l x y ⟨ms, hms, hl⟩ ⟨ms', hms', hl'⟩
        rw [hmembers] at hms hms'
        split at hms <;> split at hms'
        · rename_i hx hy
          rw [hx, hy]
        · cases hms
          exact absurd ⟨ms', hms', hl'⟩ (hapart l hl y)
        · cases hms'
          exact absurd ⟨ms, hms, hl⟩ (hapart l hl' x)
        · exact hm.apart l x y ⟨ms, hms, hl⟩ ⟨ms', hms', hl'⟩
    · cases hnew
  · cases hnew

/-! ## Each operation -/

/-- A variable is not a member of anything. -/
theorem Managed.not_doomed (hm : Managed vars n m) (hi : i < vars) : ¬ m.Doomed a i := by
  rintro ⟨x, -, hin⟩
  have := (hm.stored i x hin).1
  exact absurd hi (Nat.not_lt.mpr this)

/-- **Destroying a variable** never faults. -/
theorem destroy_variable (hm : Managed vars n m) (hvar : i < vars) (hi : m.handle i = some h) :
    ∃ m', destroy m.depth m i = .ok m' ∧ Managed vars n m' := by
  have hlen := live_without hi
  have hdepth : (m.without i).live.length < m.slots.length := by
    have := List.reduceOption_length_le m.slots
    unfold Machine.live at hlen ⊢
    omega
  have hd := hm.during_destroy hi hvar
  have hdes : Destroys m i none m.slots.length (destroy m.slots.length) :=
    destroy_ends hm (by rintro g ⟨⟩) _
  have hs : ∀ (g : Handle) y, none = some g → g.ptr = some y →
      h.ptr = some y ∨ (m.without i).members y = none := by
    rintro g y ⟨⟩
  have hend : ∀ m', During m i none m' [] [] [] → Managed vars n m' := by
    intro m' hd'
    have hnone : m'.handle i = none := hd'.self.elim id And.left
    refine hm.of hd'.length ?_ hd'.kept fun l x hl => (hd'.stored l x hl).1
    have hslot : m'.slots[i]? = some none := by
      have hilen : i < m'.slots.length := by
        rw [hd'.length]
        exact lt_of_handle hi
      unfold Machine.handle at hnone
      rw [List.getElem?_eq_getElem hilen] at hnone ⊢
      exact congrArg some hnone
    have ho := hd'.owned
    unfold Machine.rest at ho
    rw [set_eq_of_get hslot] at ho
    exact ho
  refine Outcome.Ends.exists_ok (E := fun _ => m.Doomed i i) ?_ fun _ => hm.not_doomed hvar
  unfold Machine.depth destroy
  simp only [read_of_some hi, Outcome.ok_bind]
  cases h with
  | unique u =>
    refine (deleteUnique_ends hm hdes hd hs hdepth).mono ?_
    rintro m' ⟨hd', -⟩
    exact hend m' hd'
  | shared s =>
    refine (release_ends hm hdes hd hs hdepth).bind ?_
    rintro ⟨m', s'⟩ ⟨hd', -, -⟩
    exact hend m' hd'

/-- Every `reset` of a `shared_ptr` is called on a handle that no other one shares its object with. -/
def soleReset (s : Run Machine) (op : Op) (_ : Run Machine) : Prop :=
  ∀ m i h, s = .ok m → op = .reset i → m.handle i = some (.shared h) →
    ∀ c, h.sharedCount = some c → sharers c (m.rest i) = 0

theorem resetUnique_ends {u : UniquePtr.Handle} (hn : n < 2 ^ 64) (hm : Managed vars n m)
    (hi : m.handle i = some (.unique u)) :
    (resetUnique m.depth m i u).Ends (fun _ => True) (Managed vars n) := by
  unfold resetUnique
  refine ((letGo_unique hm hi).mono_fault fun _ _ => trivial).bind fun m' hd => ?_
  unfold Machine.write
  cases hnow : m'.handle i with
  | none => trivial
  | some g => exact hd.settle hm hnow rfl (hd.owned.add_null (hd.room hn hm hnow) .unique)

theorem resetShared_ends {s : SharedPtr.Handle} (hn : n < 2 ^ 64) (hm : Managed vars n m)
    (hi : m.handle i = some (.shared s))
    (hsole : ∀ c, s.sharedCount = some c → sharers c (m.rest i) = 0) :
    (resetShared m.depth m i s).Ends (fun _ => True) (Managed vars n) := by
  refine ((letGo_shared hm hi).mono_fault fun _ _ => trivial).mono ?_
  rintro m' ⟨s', hd, hnow, hleft⟩
  rw [hleft hsole] at hnow
  have hself : m'.slots.set i (some (.null .shared)) = m'.slots :=
    set_eq_of_get (handle_some.mp hnow)
  have hsettle : Managed vars n ⟨m'.heap, m'.slots.set i (some (.null .shared))⟩ :=
    hd.settle hm hnow rfl (hd.owned.add_null (hd.room hn hm hnow) .shared)
  rw [hself] at hsettle
  exact hsettle

/-- **Every operation keeps the ownership law**, or it faults. -/
theorem apply_ends {op : Op} {r : Run Machine} (hn : n < 2 ^ 64) (hm : Managed vars n m)
    (h : m.apply vars op = some r) (hr : soleReset (.ok m) op r) :
    r.Ends (fun _ => True) (Managed vars n) := by
  cases op with
  | construct i k =>
    obtain ⟨m', hc, rfl⟩ := Option.map_eq_some_iff.mp h
    obtain ⟨hi, rfl⟩ := construct_some hc
    exact hm.add_null hn hi k
  | makeUnique i a members =>
    obtain ⟨m', hm', rfl⟩ := Option.map_eq_some_iff.mp h
    obtain ⟨m₁, hnew, hc⟩ := Option.bind_eq_some_iff.mp hm'
    obtain ⟨hi, rfl⟩ := construct_some hc
    refine hm.adopt hn hnew hi rfl (by intro hk; cases hk) rfl (by intro c hc; cases hc) fun c => ?_
    rw [newObject_counts hnew]
    simp [Handle.sharedCount]
  | makeShared i a members c =>
    obtain ⟨m', hm', rfl⟩ := Option.map_eq_some_iff.mp h
    obtain ⟨m₁, hnew, hc⟩ := Option.bind_eq_some_iff.mp hm'
    unfold Machine.makeShared at hc
    split at hc
    · rename_i hc₁
      obtain ⟨hi, rfl⟩ := construct_some hc
      have hfree : m.heap.counts.cell c = none := by
        rw [← newObject_counts hnew]
        exact hc₁
      show Managed vars n ⟨(SharedPtr.construct m₁.heap (some a) c hc₁).1, m₁.slots.set i _⟩
      refine hm.adopt hn hnew hi rfl (by intro _ hnone; cases hnone) rfl (fun d hd => ?_) fun d => ?_
      · cases hd
        exact hfree
      · show Function.update m₁.heap.counts.cell c (some 1) d = _
        rw [newObject_counts hnew, Function.update_apply]
        simp [Handle.sharedCount, SharedPtr.construct, eq_comm]
    · cases hc
  | copyConstruct i j =>
    simp only [Machine.apply] at h
    split at h
    · rename_i other hj
      obtain ⟨m', hc, rfl⟩ := Option.map_eq_some_iff.mp h
      obtain ⟨hi, rfl⟩ := construct_some hc
      obtain ⟨heap', hshare, hobj, ho⟩ := share_spec hm.owned
        (vacant_room (by rw [hm.length]; exact hn) hi) (mem_live_iff.mpr ⟨j, hj⟩)
      simp only [SharedPtr.copyConstruct, hshare, lift, Outcome.ok_bind]
      exact hm.add hi (by rw [hobj]) ho
    · cases h
  | moveConstruct i j =>
    simp only [Machine.apply] at h
    split at h
    · rename_i other hj
      obtain ⟨m', hc, rfl⟩ := Option.map_eq_some_iff.mp h
      obtain ⟨hi, rfl⟩ := construct_some hc
      exact hm.move hn hj _ hi
    · cases h
  | copyAssign i j => exact assign_managed hn hm .copy h
  | moveAssign i j => exact assign_managed hn hm .move h
  | destroy i =>
    simp only [Machine.apply] at h
    split at h
    · rename_i hok
      cases h
      obtain ⟨k, hi⟩ := Option.isSome_iff_exists.mp hok.2
      obtain ⟨m', he, hm'⟩ := destroy_variable hm hok.1 hi
      rw [he]
      exact hm'
    · cases h
  | reset i =>
    simp only [Machine.apply] at h
    split at h
    · rename_i this hi
      cases h
      exact resetUnique_ends hn hm hi
    · rename_i this hi
      cases h
      exact resetShared_ends hn hm hi (hr m i this rfl rfl hi)
    · cases h

/-! ## Runs -/

/-- **The ownership law holds in every reachable state.** -/
theorem runs_managed {cells : Nat} (hn : vars + cells < 2 ^ 64)
    (h : Reach soleReset (step vars) (init vars cells) (.ok m)) : Managed vars (vars + cells) m := by
  refine Reach.invariant (I := fun s => ∀ m, s = .ok m → Managed vars (vars + cells) m) ?_ ?_ h m rfl
  · rintro m ⟨⟩
    have hlive : Machine.live ⟨⟨.empty, .empty⟩, List.replicate (vars + cells) none⟩ = [] := by
      unfold Machine.live
      exact List.reduceOption_replicate_none
    refine ⟨List.length_replicate, ?_, fun x ms hms => (nomatch hms),
      fun i x ⟨ms, hms, _⟩ => (nomatch hms), fun i x y ⟨ms, hms, _⟩ => (nomatch hms)⟩
    rw [hlive]
    exact ⟨by simp, List.nodup_nil, fun _ _ => rfl, fun _ hc => (nomatch hc), fun _ hm => (nomatch hm),
      fun _ hm => (nomatch hm), fun _ hm => (nomatch hm), fun _ hm => (nomatch hm),
      fun x => by simp [holders, keyed]⟩
  · intro s op s' hI hs hok m hm
    cases s with
    | ok m₀ => exact (apply_ends hn (hI m₀ rfl) hs hok).of_ok hm
    | fault e => cases hs
    | unfinished => cases hs

end CppBackend.ObjectGraph
