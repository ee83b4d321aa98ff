import CppBackend.MultiReactor.Steps

/-!
# No callback runs on a deleted connection, on any thread

The main thread creates the connections, and the threads of the sub-reactors delete them, at the same time.  What keeps
them apart: a connection is in one epoll at most, that of its sub-reactor, and only the thread of this one gets hold
of its pointer (`Inv.watched`).  So when a thread deletes a connection, no other one has the pointer, and the rest of
its own batch belongs to other numbers.  Between `close` and the end of `delete` the number may be handed out again;
the new connection has another address then.

* `inv_dispatch` — the pointers in a batch are good at their dispatch;
* `inv_accept`, `inv_newConnection`, `inv_addChannel` — a connection comes;
* `inv_delChannel`, `inv_close`, `inv_delete` — a connection goes;
* `reactors_safe` — what holds in every run, whatever the interleaving.
-/

set_option autoImplicit false

namespace CppBackend.MultiReactor

open Library.Descriptors Library.Calls Library.Storage Library.Transition

variable {s s' : Server} {v w : Who} {fd c k : Nat} {a this : Addr} {pc : Pc}

structure Inv (s : Server) : Prop where
  tracked : Tracked s.process
  nonempty : 0 < s.size
  listening : s.process.table.conn s.listenFd = none
  watched : ∀ w fd a, (s.loop w).registered fd = some a → Watched s w fd a
  placed : ∀ a fd c k, s.objects.cell a = some (.connection fd c k) → k < s.size
  /-- A connection has one object, -/
  single : ∀ a b fd f c k j, s.objects.cell a = some (.connection fd c k) →
    s.objects.cell b = some (.connection f c j) → a = b
  /-- or none yet. -/
  owned : ∀ fd c, s.process.table.conn fd = some c →
    (∃ a k, s.objects.cell a = some (.connection fd c k)) ∨ (s.loop .main).pc = .newConnection fd c
  /-- The number of an object is open until the object is about to go. -/
  ending : ∀ a fd c k, s.objects.cell a = some (.connection fd c k) →
    s.process.table.conn fd = some c ∨ (s.loop (.sub k)).pc = .free a
  /-- An object is in the epoll of its sub-reactor, or is about to come or to go. -/
  attached : ∀ a fd c k, s.objects.cell a = some (.connection fd c k) → c ∉ s.refused →
    (s.loop (.sub k)).registered fd = some a ∨ (s.loop .main).pc = .addChannel a ∨
      (s.loop (.sub k)).pc.leaving = some a
  deleted : ∀ c, c ∈ s.deleted ↔
    Gone s.process.table c ∧ ∀ a fd k, s.objects.cell a ≠ some (.connection fd c k)
  once : s.deleted.Nodup
  nodup : ∀ w, ((s.loop w).batch.map Event.fd).Nodup
  pending : ∀ w, ∀ e ∈ (s.loop w).batch,
    (s.loop w).registered e.fd = some e.ptr ∧ e.target = s.objects.cell e.ptr
  main : MainAt s (s.loop .main).pc
  sub : ∀ k, SubAt s k (s.loop (.sub k)).pc
  dispatched : ∀ d ∈ s.dispatched, ∃ o, d.target = some o ∧ d.found = some o ∧ o.who = d.who

/-! ## What follows from it -/

theorem Inv.at_main (hi : Inv s) (hpc : (s.loop .main).pc = pc) : MainAt s pc := hpc ▸ hi.main

theorem Inv.at_sub (hi : Inv s) (hpc : (s.loop (.sub k)).pc = pc) : SubAt s k pc := hpc ▸ hi.sub k

/-- The object in an epoll is there, and the loop is its own. -/
theorem Inv.found (hi : Inv s) (h : (s.loop w).registered fd = some a) :
    ∃ o, s.objects.cell a = some o ∧ o.who = w := by
  rcases hi.watched w fd a h with ⟨rfl, -, ho⟩ | ⟨c, k, rfl, ho, -⟩
  · exact ⟨_, ho, rfl⟩
  · exact ⟨_, ho, rfl⟩

/-- Only its own object, in its own loop, is registered under the number of an open connection. -/
theorem Inv.registered_own (hi : Inv s) (hthis : s.objects.cell this = some (.connection fd c k))
    (hopen : s.process.table.conn fd = some c) (h : (s.loop w).registered fd = some a) :
    a = this ∧ w = .sub k := by
  rcases hi.watched w fd a h with ⟨-, rfl, -⟩ | ⟨d, j, rfl, ho, hd⟩
  · rw [hi.listening] at hopen
    cases hopen
  · rw [hopen, Option.some.injEq] at hd
    subst hd
    obtain rfl := hi.single a this fd fd c j k ho hthis
    rw [ho] at hthis
    cases hthis
    exact ⟨rfl, rfl⟩

/-- A thread with a connection in its hands is that of a sub-reactor, and the connection is one of its own. -/
theorem Inv.holder (hi : Inv s) (h : (s.loop w).pc.held = some a) :
    ∃ k, w = .sub k ∧ ∃ fd c, s.objects.cell a = some (.connection fd c k) := by
  cases w with
  | main =>
    rw [hi.main.not_held] at h
    cases h
  | sub k => exact ⟨k, rfl, (hi.sub k).held h⟩

/-- Two threads of sub-reactors have different connections in their hands. -/
theorem Inv.held_ne (hi : Inv s) {j : Nat} {b : Addr} (hk : (s.loop (.sub k)).pc.held = some a)
    (hj : (s.loop (.sub j)).pc.held = some b) (hne : j ≠ k) : b ≠ a := by
  rintro rfl
  obtain ⟨fd, c, ho⟩ := (hi.sub k).held hk
  obtain ⟨f, d, ho'⟩ := (hi.sub j).held hj
  rw [ho] at ho'
  cases ho'
  exact hne rfl

/-- Nobody knows the object that the main thread has in its hands. -/
theorem Inv.unknown (hi : Inv s) (hpc : (s.loop .main).pc = .addChannel a) {f : Nat} :
    (s.loop v).registered f ≠ some a := by
  intro hreg
  obtain ⟨fd, c, k, hthis, -, hnone, -⟩ := hi.at_main hpc
  rcases hi.watched v f a hreg with ⟨-, -, ho⟩ | ⟨d, j, -, ho, -⟩
  · rw [hthis] at ho
    cases ho
  · rw [hthis] at ho
    cases ho
    rw [hnone v] at hreg
    cases hreg

theorem Inv.not_held (hi : Inv s) (hpc : (s.loop .main).pc = .addChannel a) (j : Nat) :
    (s.loop (.sub j)).pc.held ≠ some a := by
  obtain ⟨-, -, -, -, -, -, hheld⟩ := hi.at_main hpc
  exact hheld j

/-! ## The threads in their own code -/

/-- The main thread goes on. -/
theorem inv_main (hi : Inv s) (hat : MainAt s pc) (hpc : ∀ fd c, (s.loop .main).pc ≠ .newConnection fd c)
    (hadd : ∀ a fd c k, (s.loop .main).pc = .addChannel a → s.objects.cell a = some (.connection fd c k) →
      c ∈ s.refused) : Inv (s.goto .main pc) where
  tracked := hi.tracked
  nonempty := hi.nonempty
  listening := hi.listening
  watched v fd a h := hi.watched v fd a (by simpa using h)
  placed := hi.placed
  single := hi.single
  owned fd c h := Or.inl ((hi.owned fd c h).resolve_right (hpc fd c))
  ending a fd c k h := by
    rw [goto_main_pc]
    exact hi.ending a fd c k h
  attached a fd c k h hno := by
    rw [goto_registered, goto_main_pc]
    rcases hi.attached a fd c k h hno with hr | hp | hl
    · exact Or.inl hr
    · exact absurd (hadd a fd c k hp h) hno
    · exact Or.inr (Or.inr hl)
  deleted := hi.deleted
  once := hi.once
  nodup v := by simpa using hi.nodup v
  pending v e he := by
    simp only [goto_batch, goto_registered, goto_objects] at he ⊢
    exact hi.pending v e he
  main := by
    rw [goto_pc_self]
    refine hat.same rfl rfl ?_ ?_
    · intro v f h
      rw [goto_registered]
      exact h
    · intro j a _ h
      rw [goto_main_pc] at h
      exact h
  sub k := by
    rw [goto_main_pc]
    exact (hi.sub k).same rfl rfl (goto_batch s _ _ _)
  dispatched := hi.dispatched

/-- The thread of a sub-reactor goes on, with a connection that the main thread does not have. -/
theorem inv_sub (hi : Inv s) (hat : SubAt s k pc) (hpc : ∀ a, (s.loop (.sub k)).pc ≠ .free a)
    (hleave : ∀ a, (s.loop (.sub k)).pc.leaving = some a → pc.leaving = some a)
    (hheld : ∀ a, pc.held = some a → (s.loop .main).pc ≠ .addChannel a) : Inv (s.goto (.sub k) pc) where
  tracked := hi.tracked
  nonempty := hi.nonempty
  listening := hi.listening
  watched v fd a h := hi.watched v fd a (by simpa using h)
  placed := hi.placed
  single := hi.single
  owned fd c h := by
    rw [goto_sub_pc]
    exact hi.owned fd c h
  ending a fd c j h := by
    by_cases hj : j = k
    · subst hj
      exact Or.inl ((hi.ending a fd c j h).resolve_right (hpc a))
    · rw [goto_other_pc s _ hj]
      exact hi.ending a fd c j h
  attached a fd c j h hno := by
    rw [goto_registered, goto_sub_pc]
    refine (hi.attached a fd c j h hno).imp_right (Or.imp_right fun hl => ?_)
    by_cases hj : j = k
    · subst hj
      rw [goto_pc_self]
      exact hleave a hl
    · rw [goto_other_pc s _ hj]
      exact hl
  deleted := hi.deleted
  once := hi.once
  nodup v := by simpa using hi.nodup v
  pending v e he := by
    simp only [goto_batch, goto_registered, goto_objects] at he ⊢
    exact hi.pending v e he
  main := by
    rw [goto_sub_pc]
    refine hi.main.same rfl rfl ?_ ?_
    · intro v f h
      rw [goto_registered]
      exact h
    · intro j a hp h
      by_cases hj : j = k
      · subst hj
        rw [goto_pc_self] at h
        exact absurd hp (hheld a h)
      · rwa [goto_other_pc s _ hj] at h
  sub j := by
    by_cases hj : j = k
    · subst hj
      rw [goto_pc_self]
      exact hat.same rfl rfl (goto_batch s _ _ _)
    · rw [goto_other_pc s _ hj]
      exact (hi.sub j).same rfl rfl (goto_batch s _ _ _)
  dispatched := hi.dispatched

/-- A thread goes on to where it has nothing in its hands. -/
theorem inv_idle (hi : Inv s) (hidle : pc = .wait ∨ pc = .next) (hlight : (s.loop w).pc.light = true) :
    Inv (s.goto w pc) := by
  cases w with
  | main =>
    refine inv_main hi ?_ (fun fd c h => ?_) fun a fd c k h => ?_
    · rcases hidle with rfl | rfl <;> trivial
    · rw [h] at hlight
      cases hlight
    · rw [h] at hlight
      cases hlight
  | sub k =>
    refine inv_sub hi ?_ (fun a h => ?_) (fun a h => ?_) fun a h => ?_
    · rcases hidle with rfl | rfl <;> trivial
    · rw [h] at hlight
      cases hlight
    · generalize (s.loop (.sub k)).pc = old at hlight h
      cases old <;> cases h <;> cases hlight
    · rcases hidle with rfl | rfl <;> cases h

/-! ## The batch -/

/-- A thread outside of its callbacks gets another batch. -/
theorem inv_batch (hi : Inv s) (hpc : (s.loop w).pc = .wait ∨ (s.loop w).pc = .next) {events : List Event}
    (hnodup : (events.map Event.fd).Nodup)
    (hpending : ∀ e ∈ events, (s.loop w).registered e.fd = some e.ptr ∧ e.target = s.objects.cell e.ptr) :
    Inv (s.set w { s.loop w with batch := events }) := by
  have hsame : ∀ v, ((s.set w { s.loop w with batch := events }).loop v).registered = (s.loop v).registered ∧
      ((s.set w { s.loop w with batch := events }).loop v).pc = (s.loop v).pc := by
    intro v
    by_cases hv : v = w
    · subst hv
      rw [set_loop_self]
      exact ⟨rfl, rfl⟩
    · rw [set_loop_of_ne hv]
      exact ⟨rfl, rfl⟩
  refine ⟨hi.tracked, hi.nonempty, hi.listening, fun v fd a h => ?_, hi.placed, hi.single, fun fd c h => ?_,
    fun a fd c k h => ?_, fun a fd c k h hno => ?_, hi.deleted, hi.once, fun v => ?_, fun v e he => ?_, ?_,
    fun k => ?_, hi.dispatched⟩
  · rw [(hsame v).1] at h
    exact hi.watched v fd a h
  · rw [(hsame _).2]
    exact hi.owned fd c h
  · rw [(hsame _).2]
    exact hi.ending a fd c k h
  · rw [(hsame _).1, (hsame _).2, (hsame _).2]
    exact hi.attached a fd c k h hno
  · by_cases hv : v = w
    · subst hv
      rw [set_loop_self]
      exact hnodup
    · rw [set_loop_of_ne hv]
      exact hi.nodup v
  · rw [(hsame v).1]
    by_cases hv : v = w
    · subst hv
      rw [set_loop_self] at he
      exact hpending e he
    · rw [set_loop_of_ne hv] at he
      exact hi.pending v e he
  · rw [(hsame _).2]
    refine hi.main.same rfl rfl ?_ ?_
    · intro v f h
      rw [(hsame v).1]
      exact h
    · intro j a _ h
      rw [(hsame _).2] at h
      exact h
  · rw [(hsame _).2]
    by_cases hk : Who.sub k = w
    · subst hk
      rcases hpc with hp | hp <;> rw [hp] <;> trivial
    · refine (hi.sub k).same rfl rfl ?_
      rw [set_loop_of_ne hk]

theorem inv_wait (hi : Inv s) (hpc : (s.loop w).pc = .wait) {events : List Event}
    (hr : s.reportable w events = true) : Inv (s.set w { s.loop w with batch := events, pc := .next }) := by
  simp only [Server.reportable, Bool.and_eq_true, decide_eq_true_eq, List.all_eq_true] at hr
  obtain ⟨⟨-, hnodup⟩, hready⟩ := hr
  have hbatch : Inv (s.set w { s.loop w with batch := events }) := by
    refine inv_batch hi (Or.inl hpc) hnodup fun e he => ?_
    simpa [Server.ready] using hready e he
  rw [← set_goto s w { s.loop w with batch := events }]
  apply inv_idle hbatch (Or.inr rfl)
  rw [set_loop_self]
  show (s.loop w).pc.light = true
  rw [hpc]
  rfl

/-- The callback gets an object that is in the epoll, and whose number is not in the rest of the batch. -/
theorem inv_callback (hi : Inv s) (hpc : (s.loop w).pc = .next) {e : Event}
    (hreg : (s.loop w).registered e.fd = some e.ptr) (hnot : e.fd ∉ (s.loop w).batch.map Event.fd) :
    Inv (s.goto w (callback s e)) := by
  have hidle : Inv (s.goto w .next) := inv_idle hi (Or.inr rfl) (by rw [hpc]; rfl)
  unfold callback
  rcases hi.watched w e.fd e.ptr hreg with ⟨rfl, -, ho⟩ | ⟨c, k, rfl, ho, hopen⟩
  · rw [ho]
    cases e.events.epollin with
    | false => exact hidle
    | true =>
      refine inv_main hi (show MainAt s .handleAccept from trivial) (fun fd c h => ?_) fun a fd c k h => ?_
      · rw [hpc] at h
        cases h
      · rw [hpc] at h
        cases h
  · rw [ho]
    cases e.events.epollin with
    | false => exact hidle
    | true =>
      refine inv_sub hi ⟨e.fd, c, ho, hopen, hnot⟩ (fun a h => ?_) (fun a h => ?_) fun a ha hmain => ?_
      · rw [hpc] at h
        cases h
      · rw [hpc] at h
        cases h
      · cases ha
        exact hi.unknown hmain hreg

/-- `data.ptr` of the first entry points to what it pointed to at the collection. -/
theorem inv_dispatch (hi : Inv s) (hpc : (s.loop w).pc = .next) : Inv (s.dispatch w) := by
  cases hb : (s.loop w).batch with
  | nil =>
    rw [dispatch_nil hb]
    exact inv_idle hi (Or.inl rfl) (by rw [hpc]; rfl)
  | cons e rest =>
    have hnodup := hi.nodup w
    have hpend := hi.pending w
    simp only [hb, List.map_cons, List.nodup_cons] at hnodup
    simp only [hb, List.forall_mem_cons] at hpend
    obtain ⟨⟨hreg, htarget⟩, hrest⟩ := hpend
    obtain ⟨o, ho, hwho⟩ := hi.found hreg
    have hbatch : Inv (s.set w { s.loop w with batch := rest }) := inv_batch hi (Or.inr hpc) hnodup.2 hrest
    have hgo := inv_callback (e := e) hbatch (by rw [set_loop_self]; exact hpc)
      (by rw [set_loop_self]; exact hreg) (by rw [set_loop_self]; exact hnodup.1)
    rw [dispatch_cons hb]
    refine ⟨hgo.tracked, hgo.nonempty, hgo.listening, hgo.watched, hgo.placed, hgo.single, hgo.owned, hgo.ending,
      hgo.attached, hgo.deleted, hgo.once, hgo.nodup, hgo.pending, hgo.main, hgo.sub, fun d hd => ?_⟩
    rcases List.mem_append.mp hd with hd | hd
    · exact hi.dispatched d hd
    · rw [List.mem_singleton.mp hd]
      exact ⟨o, htarget.trans ho, ho, hwho⟩

/-! ## A connection comes -/

/-- The next connection has no object. -/
theorem Inv.fresh (hi : Inv s) {j f : Nat} : s.objects.cell a ≠ some (.connection f s.process.table.next j) := by
  intro ha
  rcases hi.ending a f _ j ha with hopen | hpc
  · exact absurd (s.process.table.bounded f _ hopen) (Nat.lt_irrefl _)
  · obtain ⟨g, c, hcell, hg⟩ := hi.at_sub hpc
    rw [ha] at hcell
    cases hcell
    exact absurd hg.1 (Nat.lt_irrefl _)

/-- The main thread accepts a connection, which has no object yet. -/
theorem inv_accept (hi : Inv s) (hpc : (s.loop .main).pc = .handleAccept) (hfree : s.free fd = true) :
    Inv ({ s with process := s.process.accept fd }.goto .main (.newConnection fd s.process.table.next)) := by
  simp only [Server.free, Bool.and_eq_true, bne_iff_ne, Option.isNone_iff_eq_none] at hfree
  obtain ⟨⟨hlisten, -⟩, hfree⟩ := hfree
  have hkeep : ∀ {f c}, s.process.table.conn f = some c → (s.process.table.accept fd).conn f = some c :=
    fun h => accept_open hfree h
  refine ⟨tracked_accept hi.tracked hfree, hi.nonempty, ?_, fun v f a h => ?_, hi.placed, hi.single,
    fun f c h => ?_, fun a f c k h => ?_, fun a f c k h hno => ?_, fun c => ?_, hi.once, fun v => ?_,
    fun v e he => ?_, ?_, fun k => ?_, hi.dispatched⟩
  · show (s.process.table.accept fd).conn s.listenFd = none
    rw [accept_of_ne (Ne.symm hlisten)]
    exact hi.listening
  · rw [goto_registered] at h
    rcases hi.watched v f a h with hw | ⟨c, k, hv, ho, hopen⟩
    · exact Or.inl hw
    · exact Or.inr ⟨c, k, hv, ho, hkeep hopen⟩
  · change (s.process.table.accept fd).conn f = some c at h
    by_cases hf : f = fd
    · subst hf
      rw [accept_self] at h
      cases h
      exact Or.inr (goto_pc_self _ _ _)
    · rw [accept_of_ne hf] at h
      rcases hi.owned f c h with ho | hp
      · exact Or.inl ho
      · rw [hpc] at hp
        cases hp
  · rw [goto_main_pc]
    exact (hi.ending a f c k h).imp_left hkeep
  · rw [goto_registered, goto_main_pc]
    rcases hi.attached a f c k h hno with hr | hp | hl
    · exact Or.inl hr
    · rw [hpc] at hp
      cases hp
    · exact Or.inr (Or.inr hl)
  · refine (hi.deleted c).trans ⟨fun h => ⟨gone_accept h.1 fd, h.2⟩, fun h => ?_⟩
    exact ⟨gone_of_gone_accept hfree h.1, h.2⟩
  · rw [goto_batch]
    exact hi.nodup v
  · rw [goto_batch] at he
    rw [goto_registered]
    exact hi.pending v e he
  · rw [goto_pc_self]
    exact ⟨accept_self _ _, fun a f k => hi.fresh⟩
  · rw [goto_main_pc]
    exact (hi.sub k).frame (goto_batch _ _ _ _) (fun _ _ _ _ h => h) (fun _ _ _ _ _ h => hkeep h)
      fun _ h => gone_accept h fd

/-- Nothing is registered under the number of a connection without an object. -/
theorem Inv.unregistered (hi : Inv s) (hopen : s.process.table.conn fd = some c)
    (hnone : ∀ a f k, s.objects.cell a ≠ some (.connection f c k)) : (s.loop w).registered fd = none := by
  cases h : (s.loop w).registered fd with
  | none => rfl
  | some b =>
    rcases hi.watched w fd b h with ⟨-, hl, -⟩ | ⟨d, j, -, ho, hd⟩
    · rw [hl, hi.listening] at hopen
      cases hopen
    · rw [hopen, Option.some.injEq] at hd
      rw [← hd] at ho
      exact absurd ho (hnone b fd j)

/-- The object of the connection is created, at an address that nothing points to. -/
theorem inv_newConnection (hi : Inv s) (hpc : (s.loop .main).pc = .newConnection fd c)
    (ha : s.objects.cell a = none) (hk : k < s.size) (next : BitVec 32) :
    Inv ({ s with objects := s.objects.alloc a (.connection fd c k) ha, next := next }.goto .main
      (.addChannel a)) := by
  obtain ⟨hopen, hnone⟩ := hi.at_main hpc
  have hcell : ∀ {b o}, s.objects.cell b = some o →
      (s.objects.alloc a (.connection fd c k) ha).cell b = some o :=
    fun h => (Heap.alloc_eq_some ha).mpr (Or.inr h)
  have hback : ∀ {b f d j}, (s.objects.alloc a (.connection fd c k) ha).cell b = some (.connection f d j) →
      (b = a ∧ f = fd ∧ d = c ∧ j = k) ∨ s.objects.cell b = some (.connection f d j) := by
    intro b f d j hb
    refine ((Heap.alloc_eq_some ha).mp hb).imp_left ?_
    rintro ⟨hba, heq⟩
    cases heq
    exact ⟨hba, rfl, rfl, rfl⟩
  have hself : (s.objects.alloc a (.connection fd c k) ha).cell a = some (.connection fd c k) :=
    (Heap.alloc_eq_some ha).mpr (Or.inl ⟨rfl, rfl⟩)
  refine ⟨hi.tracked, hi.nonempty, hi.listening, fun v f b h => ?_, fun b f d j h => ?_,
    fun b b' f f' d j j' h h' => ?_, fun f d h => ?_, fun b f d j h => ?_, fun b f d j h hno => ?_, fun d => ?_,
    hi.once, fun v => ?_, fun v e he => ?_, ?_, fun j => ?_, hi.dispatched⟩
  · rw [goto_registered] at h
    rcases hi.watched v f b h with ⟨hv, hf, ho⟩ | ⟨d, j, hv, ho, hd⟩
    · exact Or.inl ⟨hv, hf, hcell ho⟩
    · exact Or.inr ⟨d, j, hv, hcell ho, hd⟩
  · rcases hback h with ⟨-, -, -, rfl⟩ | h
    · exact hk
    · exact hi.placed b f d j h
  · rcases hback h with ⟨hb, -, hd, -⟩ | hold <;> rcases hback h' with ⟨hb', -, hd', -⟩ | hold'
    · rw [hb, hb']
    · rw [hd] at hold'
      exact absurd hold' (hnone _ _ _)
    · rw [hd'] at hold
      exact absurd hold (hnone _ _ _)
    · exact hi.single b b' f f' d j j' hold hold'
  · rcases hi.owned f d h with ⟨b, j, ho⟩ | hp
    · exact Or.inl ⟨b, j, hcell ho⟩
    · rw [hpc] at hp
      cases hp
      exact Or.inl ⟨a, k, hself⟩
  · rw [goto_main_pc]
    rcases hback h with ⟨-, rfl, rfl, -⟩ | h
    · exact Or.inl hopen
    · exact hi.ending b f d j h
  · rw [goto_registered, goto_main_pc, goto_pc_self]
    rcases hback h with ⟨hb, -⟩ | h
    · exact Or.inr (Or.inl (congrArg Pc.addChannel hb.symm))
    · rcases hi.attached b f d j h hno with hr | hp | hl
      · exact Or.inl hr
      · rw [hpc] at hp
        cases hp
      · exact Or.inr (Or.inr hl)
  · refine (hi.deleted d).trans ⟨fun h => ⟨h.1, fun b f j hb => ?_⟩, fun h => ⟨h.1, fun b f j hb => ?_⟩⟩
    · rcases hback hb with ⟨-, -, rfl, -⟩ | hb
      · exact not_gone_of_open hopen h.1
      · exact h.2 b f j hb
    · exact h.2 b f j (hcell hb)
  · rw [goto_batch]
    exact hi.nodup v
  · rw [goto_batch] at he
    rw [goto_registered]
    obtain ⟨hreg, htarget⟩ := hi.pending v e he
    obtain ⟨o, ho, -⟩ := hi.found hreg
    exact ⟨hreg, by rw [htarget, ho]; exact (hcell ho).symm⟩
  · rw [goto_pc_self]
    refine ⟨fd, c, k, hself, hopen, fun v => ?_, fun j hj => ?_⟩
    · rw [goto_registered]
      exact hi.unregistered hopen hnone
    · rw [goto_main_pc] at hj
      obtain ⟨f, d, ho⟩ := (hi.sub j).held hj
      rw [ha] at ho
      cases ho
  · rw [goto_main_pc]
    exact (hi.sub j).frame (goto_batch _ _ _ _) (fun _ _ _ _ h => hcell h) (fun _ _ _ _ _ h => h) fun _ h => h

/-- The channel of the new connection goes into the epoll of its sub-reactor. -/
theorem inv_addChannel (hi : Inv s) (hpc : (s.loop .main).pc = .addChannel this)
    (hthis : s.objects.cell this = some (.connection fd c k)) :
    Inv ((s.addChannel k fd this).goto .main .handleAccept) := by
  obtain ⟨f, d, j, hcell, hopen, hnone, -⟩ := hi.at_main hpc
  rw [hthis] at hcell
  cases hcell
  refine ⟨hi.tracked, hi.nonempty, hi.listening, fun v f a h => ?_, hi.placed, hi.single, fun f d h => ?_,
    fun a f d j h => ?_, fun a f d j h hno => ?_, hi.deleted, hi.once, fun v => ?_, fun v e he => ?_, ?_,
    fun j => ?_, hi.dispatched⟩
  · rw [goto_registered, addChannel_registered] at h
    split at h
    · rename_i hv
      obtain ⟨rfl, rfl⟩ := hv
      cases h
      exact Or.inr ⟨c, k, rfl, hthis, hopen⟩
    · exact hi.watched v f a h
  · refine Or.inl ((hi.owned f d h).resolve_right ?_)
    rw [hpc]
    exact nofun
  · rw [goto_main_pc, addChannel_pc]
    exact hi.ending a f d j h
  · rw [goto_registered, addChannel_registered, goto_main_pc, addChannel_pc]
    rcases hi.attached a f d j h hno with hr | hp | hl
    · left
      rw [if_neg]
      · exact hr
      · rintro ⟨hj, hf⟩
        rw [hj, hf, hnone] at hr
        cases hr
    · rw [hpc] at hp
      cases hp
      change s.objects.cell this = _ at h
      rw [hthis] at h
      cases h
      exact Or.inl (if_pos ⟨rfl, rfl⟩)
    · exact Or.inr (Or.inr hl)
  · rw [goto_batch, addChannel_batch]
    exact hi.nodup v
  · rw [goto_batch, addChannel_batch] at he
    obtain ⟨hold, htarget⟩ := hi.pending v e he
    rw [goto_registered, addChannel_registered, if_neg]
    · exact ⟨hold, htarget⟩
    · rintro ⟨rfl, hf⟩
      rw [hf, hnone] at hold
      cases hold
  · rw [goto_pc_self]
    trivial
  · rw [goto_main_pc, addChannel_pc]
    refine (hi.sub j).same rfl rfl ?_
    rw [goto_batch, addChannel_batch]

/-- `epoll_ctl` fails: the connection is in no epoll, for ever. -/
theorem inv_refused (hi : Inv s) (hpc : (s.loop .main).pc = .addChannel this)
    (hthis : s.objects.cell this = some (.connection fd c k)) :
    Inv ({ s with refused := s.refused ++ [c] }.goto .main .handleAccept) := by
  have hrefused : Inv { s with refused := s.refused ++ [c] } :=
    ⟨hi.tracked, hi.nonempty, hi.listening, hi.watched, hi.placed, hi.single, hi.owned, hi.ending,
      fun a fd d k h hno => hi.attached a fd d k h fun hd => hno (List.mem_append_left _ hd), hi.deleted, hi.once,
      hi.nodup, hi.pending, hi.main.same rfl rfl (fun _ _ h => h) fun _ _ _ h => h,
      fun j => (hi.sub j).same rfl rfl rfl, hi.dispatched⟩
  refine inv_main hrefused (show MainAt _ .handleAccept from trivial) (fun f d h => ?_) fun a f d j h ha => ?_
  · rw [show (s.loop .main).pc = .newConnection f d from h] at hpc
    cases hpc
  · rw [show (s.loop .main).pc = .addChannel a from h] at hpc
    cases hpc
    change s.objects.cell this = _ at ha
    rw [hthis] at ha
    cases ha
    exact List.mem_append_right _ (List.mem_singleton_self _)

/-! ## A connection goes -/

/-- `recv` on an open connection. -/
theorem inv_call (hi : Inv s) (hopen : s.process.table.conn fd = some c) (chunk : List UInt8) :
    Inv { s with process := s.process.call (.recv chunk) fd c } := by
  refine ⟨tracked_call hi.tracked (by simp) hopen, hi.nonempty, hi.listening, hi.watched, hi.placed, hi.single,
    hi.owned, hi.ending, hi.attached, hi.deleted, hi.once, hi.nodup, hi.pending, ?_, fun k => ?_, hi.dispatched⟩
  · exact hi.main.same rfl rfl (fun _ _ h => h) fun _ _ _ h => h
  · exact (hi.sub k).same rfl rfl rfl

/-- `recv` gives something, or the connection is to go. -/
theorem inv_handleRead (hi : Inv s) (hpc : (s.loop w).pc = .handleRead this) (chunk : List UInt8) :
    Inv (s.handleRead w this chunk) := by
  obtain ⟨k, rfl, -⟩ := hi.holder (w := w) (a := this) (by rw [hpc]; rfl)
  obtain ⟨fd, c, hthis, hopen, hnot⟩ := hi.at_sub hpc
  simp only [Server.handleRead, Server.method, hthis]
  split
  · have hgo : Inv (s.goto (.sub k) (.delChannel this)) := by
      refine inv_sub hi ⟨fd, c, hthis, hopen, hnot⟩ (fun a h => ?_) (fun a h => ?_) fun a ha hmain => ?_
      · rw [hpc] at h
        cases h
      · rw [hpc] at h
        cases h
      · cases ha
        exact hi.not_held hmain k (by rw [hpc]; rfl)
    exact inv_call hgo hopen chunk
  · have hgo : Inv (s.goto (.sub k) .next) := inv_idle hi (Or.inr rfl) (by rw [hpc]; rfl)
    exact inv_call hgo hopen chunk

/-- `epoll_ctl` takes the channel of a connection out that is about to go. -/
theorem inv_unwatch (hi : Inv s) (hthis : s.objects.cell this = some (.connection fd c k))
    (hopen : s.process.table.conn fd = some c) (hnot : fd ∉ (s.loop (.sub k)).batch.map Event.fd)
    (hleave : (s.loop (.sub k)).pc.leaving = some this) : Inv (s.delChannel k fd) := by
  refine ⟨hi.tracked, hi.nonempty, hi.listening, fun v f a h => ?_, hi.placed, hi.single, fun f d h => ?_,
    fun a f d j h => ?_, fun a f d j h hno => ?_, hi.deleted, hi.once, fun v => ?_, fun v e he => ?_, ?_,
    fun j => ?_, hi.dispatched⟩
  · rw [delChannel_registered] at h
    split at h
    · cases h
    · exact hi.watched v f a h
  · rw [delChannel_pc]
    exact hi.owned f d h
  · rw [delChannel_pc]
    exact hi.ending a f d j h
  · rw [delChannel_registered, delChannel_pc, delChannel_pc]
    rcases hi.attached a f d j h hno with hr | hp | hl
    · split
      · rename_i hj
        obtain ⟨hj, rfl⟩ := hj
        cases hj
        obtain ⟨rfl, -⟩ := hi.registered_own hthis hopen hr
        exact Or.inr (Or.inr hleave)
      · exact Or.inl hr
    · exact Or.inr (Or.inl hp)
    · exact Or.inr (Or.inr hl)
  · rw [delChannel_batch]
    exact hi.nodup v
  · rw [delChannel_batch] at he
    rw [delChannel_registered, if_neg]
    · exact hi.pending v e he
    · rintro ⟨rfl, hf⟩
      exact hnot (hf ▸ List.mem_map_of_mem he)
  · rw [delChannel_pc]
    refine hi.main.same rfl rfl ?_ ?_
    · intro v f h
      rw [delChannel_registered]
      split
      · rfl
      · exact h
    · intro j a _ h
      rw [delChannel_pc] at h
      exact h
  · rw [delChannel_pc]
    exact (hi.sub j).same rfl rfl (delChannel_batch _ _ _ _)

theorem inv_delChannel (hi : Inv s) (hpc : (s.loop (.sub k)).pc = .delChannel this)
    (hthis : s.objects.cell this = some (.connection fd c k)) :
    Inv ((s.delChannel k fd).goto (.sub k) (.close this)) := by
  obtain ⟨f, d, hcell, hopen, hnot⟩ := hi.at_sub hpc
  rw [hthis] at hcell
  cases hcell
  have hdel : Inv (s.delChannel k fd) := inv_unwatch hi hthis hopen hnot (by rw [hpc]; rfl)
  refine inv_sub hdel ⟨fd, c, hthis, hopen, ?_⟩ (fun a h => ?_) (fun a h => ?_) fun a ha hmain => ?_
  · rw [delChannel_batch]
    exact hnot
  · rw [delChannel_pc, hpc] at h
    cases h
  · rw [delChannel_pc, hpc] at h
    exact h
  · cases ha
    rw [delChannel_pc] at hmain
    exact hi.not_held hmain k (by rw [hpc]; rfl)

/-- The number of another object stays open. -/
theorem Inv.stays_open (hi : Inv s) (hthis : s.objects.cell this = some (.connection fd c k))
    (hopen : s.process.table.conn fd = some c) {f d j : Nat} (ho : s.objects.cell a = some (.connection f d j))
    (hne : a ≠ this) (hd : s.process.table.conn f = some d) : (s.process.table.close fd).conn f = some d := by
  refine close_open hopen hd ?_
  rintro rfl
  exact hne (hi.single a this f fd d j k ho hthis)

/-- What the main thread has in its hands outlives a connection in the hands of another thread. -/
theorem main_close (hi : Inv s) (hpc : (s.loop (.sub k)).pc = .close this)
    (hthis : s.objects.cell this = some (.connection fd c k)) (hopen : s.process.table.conn fd = some c) :
    MainAt ((s.close fd c).goto (.sub k) (.free this)) (s.loop .main).pc := by
  refine hi.main.frame (fun f d hd hno => ⟨close_open hopen hd ?_, hno⟩) (fun a f d j ha ho hd => ⟨ho, ?_⟩)
    (fun v f h => ?_) fun j a ha h => ?_
  · rintro rfl
    exact hno _ _ _ hthis
  · refine hi.stays_open hthis hopen ho ?_ hd
    rintro rfl
    exact hi.not_held ha k (by rw [hpc]; rfl)
  · rw [goto_registered, close_registered, h, ite_self]
  · by_cases hj : j = k
    · subst hj
      rw [goto_pc_self] at h
      rw [hpc]
      exact h
    · rwa [goto_other_pc _ _ hj] at h

/-- The number is closed, with the object still there. -/
theorem inv_close (hi : Inv s) (hpc : (s.loop (.sub k)).pc = .close this)
    (hthis : s.objects.cell this = some (.connection fd c k)) :
    Inv ((s.close fd c).goto (.sub k) (.free this)) := by
  obtain ⟨f, d, hcell, hopen, hnot⟩ := hi.at_sub hpc
  rw [hthis] at hcell
  cases hcell
  have hheld : (s.loop (.sub k)).pc.held = some this := by rw [hpc]; rfl
  have hsub : ∀ {j}, j ≠ k → (((s.close fd c).goto (.sub k) (.free this)).loop (.sub j)).pc =
      (s.loop (.sub j)).pc := fun hj => goto_other_pc _ _ hj
  refine ⟨tracked_close hi.tracked hopen, hi.nonempty, ?_, fun v f a h => ?_, hi.placed, hi.single,
    fun f d h => ?_, fun a f d j h => ?_, fun a f d j h hno => ?_, fun d => ?_, hi.once, fun v => ?_,
    fun v e he => ?_, ?_, fun j => ?_, hi.dispatched⟩
  · show (s.process.table.close fd).conn s.listenFd = none
    rw [close_conn, hi.listening, ite_self]
  · rw [goto_registered, close_registered] at h
    split at h
    · cases h
    · rename_i hf
      refine (hi.watched v f a h).imp_right ?_
      rintro ⟨d, j, hv, ho, hd⟩
      exact ⟨d, j, hv, ho, close_eq_some.mpr ⟨hf, hd⟩⟩
  · rw [goto_sub_pc]
    exact hi.owned f d (close_eq_some.mp h).2
  · by_cases hj : j = k
    · subst hj
      rw [goto_pc_self]
      by_cases ha : a = this
      · exact Or.inr (congrArg Pc.free ha.symm)
      · refine Or.inl (hi.stays_open hthis hopen h ha ((hi.ending a f d j h).resolve_right ?_))
        rw [hpc]
        exact nofun
    · rw [hsub hj]
      refine (hi.ending a f d j h).imp_left fun hd => hi.stays_open hthis hopen h ?_ hd
      rintro rfl
      change s.objects.cell a = _ at h
      rw [hthis] at h
      cases h
      exact hj rfl
  · rw [goto_registered, close_registered, goto_sub_pc]
    rcases hi.attached a f d j h hno with hr | hp | hl
    · split
      · rename_i hf
        subst hf
        obtain ⟨rfl, hj⟩ := hi.registered_own hthis hopen hr
        cases hj
        exact Or.inr (Or.inr (by rw [goto_pc_self]; rfl))
      · exact Or.inl hr
    · exact Or.inr (Or.inl hp)
    · by_cases hj : j = k
      · subst hj
        rw [hpc] at hl
        exact Or.inr (Or.inr (by rw [goto_pc_self]; exact hl))
      · exact Or.inr (Or.inr (by rw [hsub hj]; exact hl))
  · refine (hi.deleted d).trans ⟨fun h => ⟨gone_close h.1 fd, h.2⟩, fun h => ?_⟩
    refine ⟨gone_of_gone_close hopen ?_ h.1, h.2⟩
    rintro rfl
    exact h.2 _ _ _ hthis
  · rw [goto_batch]
    exact hi.nodup v
  · rw [goto_batch] at he
    obtain ⟨hreg, htarget⟩ := hi.pending v e he
    rw [goto_registered, close_registered, if_neg]
    · exact ⟨hreg, htarget⟩
    · intro hf
      rw [hf] at hreg
      obtain ⟨-, rfl⟩ := hi.registered_own hthis hopen hreg
      exact hnot (hf ▸ List.mem_map_of_mem he)
  · rw [goto_sub_pc]
    exact main_close hi hpc hthis hopen
  · by_cases hj : j = k
    · subst hj
      rw [goto_pc_self]
      exact ⟨fd, c, hthis, gone_of_close hopen⟩
    · rw [hsub hj]
      refine (hi.sub j).frame (goto_batch _ _ _ _) (fun _ _ _ _ h => h) (fun a f d ha ho hd => ?_)
        fun _ h => gone_close h fd
      exact hi.stays_open hthis hopen ho (hi.held_ne hheld ha hj) hd

/-- No epoll has a connection that is closed. -/
theorem Inv.registered_ne (hi : Inv s) (hthis : s.objects.cell this = some (.connection fd c k))
    (hgone : Gone s.process.table c) {f : Nat} (h : (s.loop v).registered f = some a) : a ≠ this := by
  rintro rfl
  rcases hi.watched v f a h with ⟨-, -, ho⟩ | ⟨d, j, -, ho, hd⟩
  · rw [hthis] at ho
    cases ho
  · rw [hthis] at ho
    cases ho
    exact not_gone_of_open hd hgone

section Delete

variable {objects : Heap Object}

theorem cell_delete (hcell : objects.cell = Function.update s.objects.cell this none) {o : Object} :
    objects.cell a = some o ↔ a ≠ this ∧ s.objects.cell a = some o := by
  rw [hcell]
  exact update_none_eq_some

/-- One more connection has been deleted. -/
theorem deleted_delete (hi : Inv s) (hthis : s.objects.cell this = some (.connection fd c k))
    (hgone : Gone s.process.table c) (hcell : objects.cell = Function.update s.objects.cell this none) (d : Nat) :
    d ∈ s.deleted ++ [c] ↔
      Gone s.process.table d ∧ ∀ a f j, objects.cell a ≠ some (.connection f d j) := by
  rw [List.mem_append, List.mem_singleton, hi.deleted d]
  constructor
  · rintro (⟨hg, hno⟩ | rfl)
    · exact ⟨hg, fun a f j h => hno a f j ((cell_delete hcell).mp h).2⟩
    · refine ⟨hgone, fun a f j h => ?_⟩
      obtain ⟨hne, ho⟩ := (cell_delete hcell).mp h
      exact hne (hi.single a this f fd d j k ho hthis)
  · rintro ⟨hg, hno⟩
    refine or_iff_not_imp_right.mpr fun hd => ⟨hg, fun a f j ho => hno a f j ((cell_delete hcell).mpr ⟨?_, ho⟩)⟩
    rintro rfl
    rw [hthis] at ho
    cases ho
    exact hd rfl

/-- What the main thread has in its hands outlives an object in the hands of another thread. -/
theorem main_delete (hi : Inv s) (hheld : (s.loop (.sub k)).pc.held = some this)
    (hcell : objects.cell = Function.update s.objects.cell this none) {deleted : List Nat} :
    MainAt ({ s with objects := objects, deleted := deleted }.goto (.sub k) .next) (s.loop .main).pc := by
  refine hi.main.frame (fun f d hd hno => ⟨hd, fun a g j h => hno a g j ((cell_delete hcell).mp h).2⟩)
    (fun a f d j ha ho hd => ⟨(cell_delete hcell).mpr ⟨?_, ho⟩, hd⟩) (fun v f h => ?_) fun j a ha h => ?_
  · rintro rfl
    exact hi.not_held ha k hheld
  · rw [goto_registered]
    exact h
  · by_cases hj : j = k
    · subst hj
      rw [goto_pc_self] at h
      cases h
    · rwa [goto_other_pc _ _ hj] at h

end Delete

/-- The object is deleted, with its number closed already. -/
theorem inv_delete (hi : Inv s) (hpc : (s.loop (.sub k)).pc = .free this) : Inv (s.delete (.sub k) this) := by
  obtain ⟨fd, c, hthis, hgone⟩ := hi.at_sub hpc
  obtain ⟨objects, hfree, hcell⟩ := Heap.free_of_some hthis
  have hheld : (s.loop (.sub k)).pc.held = some this := by rw [hpc]; rfl
  have hlater : ∀ {b o}, objects.cell b = some o ↔ b ≠ this ∧ s.objects.cell b = some o := cell_delete hcell
  simp only [Server.delete, Server.method, hthis, hfree]
  have hsub : ∀ {j}, j ≠ k → (({ s with objects := objects, deleted := s.deleted ++ [c] }.goto (.sub k)
      .next).loop (.sub j)).pc = (s.loop (.sub j)).pc := fun hj => goto_other_pc _ _ hj
  refine ⟨hi.tracked, hi.nonempty, hi.listening, fun v f a h => ?_, fun a f d j h => hi.placed a f d j (hlater.mp h).2,
    fun a b f g d i j h h' => hi.single a b f g d i j (hlater.mp h).2 (hlater.mp h').2,
    fun f d h => ?_, fun a f d j h => ?_, fun a f d j h hno => ?_, fun d => ?_, ?_, fun v => ?_, fun v e he => ?_, ?_,
    fun j => ?_, hi.dispatched⟩
  · rw [goto_registered] at h
    have hne := hi.registered_ne hthis hgone h
    rcases hi.watched v f a h with ⟨hv, hf, ho⟩ | ⟨d, j, hv, ho, hd⟩
    · exact Or.inl ⟨hv, hf, hlater.mpr ⟨hne, ho⟩⟩
    · exact Or.inr ⟨d, j, hv, hlater.mpr ⟨hne, ho⟩, hd⟩
  · rw [goto_sub_pc]
    refine (hi.owned f d h).imp_left ?_
    rintro ⟨b, j, ho⟩
    refine ⟨b, j, hlater.mpr ⟨?_, ho⟩⟩
    rintro rfl
    rw [hthis] at ho
    cases ho
    exact not_gone_of_open h hgone
  · obtain ⟨hne, ho⟩ := hlater.mp h
    by_cases hj : j = k
    · subst hj
      refine Or.inl ((hi.ending a f d j ho).resolve_right ?_)
      rw [hpc]
      rintro ⟨rfl⟩
      exact hne rfl
    · rw [hsub hj]
      exact hi.ending a f d j ho
  · obtain ⟨hne, ho⟩ := hlater.mp h
    rw [goto_registered, goto_sub_pc]
    refine (hi.attached a f d j ho hno).imp_right (Or.imp_right fun hl => ?_)
    by_cases hj : j = k
    · subst hj
      rw [hpc] at hl
      cases hl
      exact absurd rfl hne
    · rw [hsub hj]
      exact hl
  · exact deleted_delete hi hthis hgone hcell d
  · refine List.nodup_append.mpr ⟨hi.once, List.nodup_singleton c, ?_⟩
    rintro d hd e he rfl
    rw [List.mem_singleton] at he
    exact ((hi.deleted d).mp hd).2 this fd k (he ▸ hthis)
  · rw [goto_batch]
    exact hi.nodup v
  · rw [goto_batch] at he
    rw [goto_registered]
    obtain ⟨hreg, htarget⟩ := hi.pending v e he
    obtain ⟨o, ho, -⟩ := hi.found hreg
    refine ⟨hreg, ?_⟩
    rw [htarget, ho]
    exact (hlater.mpr ⟨hi.registered_ne hthis hgone hreg, ho⟩).symm
  · rw [goto_sub_pc]
    exact main_delete hi hheld hcell
  · by_cases hj : j = k
    · subst hj
      rw [goto_pc_self]
      trivial
    · rw [hsub hj]
      exact (hi.sub j).frame (goto_batch _ _ _ _) (fun a f d ha ho => hlater.mpr ⟨hi.held_ne hheld ha hj, ho⟩)
        (fun _ _ _ _ _ h => h) fun _ h => h

/-! ## Every run -/

theorem inv_init (listenFd : Nat) (epfds : List Nat) (subReactorNum : Int) (a : Addr) :
    Inv (init listenFd epfds subReactorNum a) := by
  have hcell : ∀ {b o}, (init listenFd epfds subReactorNum a).objects.cell b = some o →
      b = a ∧ o = .acceptor listenFd :=
    fun h => ((Heap.alloc_eq_some rfl).mp h).resolve_right (by simp [Heap.empty])
  refine ⟨tracked_empty, ?_, rfl, fun v fd b h => ?_, fun b fd c k h => ?_, fun b b' fd fd' c k k' h => ?_,
    fun fd c h => (by cases h), fun b fd c k h => ?_, fun b fd c k h => ?_, fun c => ?_, List.nodup_nil,
    fun v => ?_, fun v e he => ?_, trivial, fun k => trivial, fun d hd => (by cases hd)⟩
  · show 0 < if subReactorNum ≤ 0 then 1 else subReactorNum.toNat
    split <;> omega
  · cases v with
    | main =>
      obtain ⟨rfl, rfl⟩ : fd = listenFd ∧ a = b := by simpa [init, Function.update_apply] using h
      exact Or.inl ⟨rfl, rfl, (Heap.alloc_eq_some rfl).mpr (Or.inl ⟨rfl, rfl⟩)⟩
    | sub k => cases h
  · cases (hcell h).2
  · cases (hcell h).2
  · cases (hcell h).2
  · cases (hcell h).2
  · constructor
    · intro h
      cases h
    · intro h
      exact absurd h.1.1 (Nat.not_lt_zero c)
  · cases v <;> exact List.nodup_nil
  · cases v <;> cases he

theorem inv_step {act : Action} (hi : Inv s) (h : step s act = some s') : Inv s' := by
  cases step_inv h with
  | wait hpc hr => exact inv_wait hi hpc hr
  | dispatch hpc => exact inv_dispatch hi hpc
  | accept hpc hfree => exact inv_accept hi hpc hfree
  | acceptFails hpc => exact inv_idle hi (Or.inr rfl) (by rw [hpc]; rfl)
  | @newConnection fd c a _ hpc hnew =>
    obtain ⟨idx, next, hget, hlt⟩ := SubReactors.getNextSubReactor_lt hi.nonempty s.next
    simp only [Server.newConnection, hget] at hnew
    split at hnew <;> cases hnew
    exact inv_newConnection hi hpc ‹_› hlt next
  | @addChannel this hpc ok =>
    obtain ⟨fd, c, k, hthis, -⟩ := hi.at_main hpc
    simp only [Server.method, hthis]
    cases ok with
    | true => exact inv_addChannel hi hpc hthis
    | false => exact inv_refused hi hpc hthis
  | recv hpc chunk => exact inv_handleRead hi hpc chunk
  | delChannel hpc =>
    obtain ⟨k, rfl, fd, c, hthis⟩ := hi.holder (by rw [hpc]; rfl)
    simp only [Server.method, hthis]
    exact inv_delChannel hi hpc hthis
  | close hpc =>
    obtain ⟨k, rfl, fd, c, hthis⟩ := hi.holder (by rw [hpc]; rfl)
    simp only [Server.method, hthis]
    exact inv_close hi hpc hthis
  | free hpc =>
    obtain ⟨k, rfl, -⟩ := hi.holder (by rw [hpc]; rfl)
    exact inv_delete hi hpc

theorem reach_inv {listenFd : Nat} {epfds : List Nat} {subReactorNum : Int} {a : Addr}
    (hr : Reach anyStep step (init listenFd epfds subReactorNum a) s) : Inv s :=
  hr.invariant (inv_init listenFd epfds subReactorNum a) fun _ _ _ hi h _ => inv_step hi h

/-- The connections and their objects come and go together, and each object belongs to one thread. -/
structure ReactorsSafe (s : Server) : Prop where
  /-- A dispatched pointer points to an object, the one that was registered at the collection, and it is dispatched in
      the loop of the object. -/
  dispatched : ∀ d ∈ s.dispatched, ∃ o, d.target = some o ∧ d.found = some o ∧ o.who = d.who
  defined : ∀ w, (s.loop w).pc ≠ .dangling
  /-- Two threads are never in callbacks of one connection. -/
  apart : ∀ v w a, (s.loop v).pc.held = some a → (s.loop w).pc.held = some a → v = w
  /-- Every `recv` and `close` reached the connection of its object. -/
  own : ∀ o ∈ s.process.ops, o.hit = some o.conn
  /-- No connection is deleted twice, or closed twice, -/
  once : s.deleted.Nodup ∧ ∀ c, s.process.closes c ≤ 1
  /-- and its number is closed when it is deleted. -/
  closed : ∀ c ∈ s.deleted, Gone s.process.table c ∧ s.process.closes c = 1
  /-- An accepted connection that has not been deleted has an object, or is about to get it. -/
  alive : ∀ c < s.process.table.next, c ∉ s.deleted →
    (∃ a fd k, s.objects.cell a = some (.connection fd c k)) ∨ ∃ fd, (s.loop .main).pc = .newConnection fd c
  /-- The sub-reactor of a connection exists and has its channel, unless `epoll_ctl` has failed, or the connection is
      about to come or to go. -/
  attached : ∀ a fd c k, s.objects.cell a = some (.connection fd c k) →
    k < s.size ∧ (c ∉ s.refused → (s.loop (.sub k)).registered fd = some a ∨ (s.loop .main).pc = .addChannel a ∨
      (s.loop (.sub k)).pc.leaving = some a)
  /-- What an epoll points to is there. -/
  watched : ∀ w fd a, (s.loop w).registered fd = some a → ∃ o, s.objects.cell a = some o ∧ o.who = w

/-- **No thread runs a callback on a deleted connection**, in any interleaving of the main reactor and its sub-reactors,
    for any batches and whatever `accept`, `new`, `recv` and the `epoll_ctl` of `AddChannel` return. -/
theorem reactors_safe {listenFd : Nat} {epfds : List Nat} {subReactorNum : Int} {a : Addr}
    (hr : Reach anyStep step (init listenFd epfds subReactorNum a) s) : ReactorsSafe s := by
  have hi := reach_inv hr
  refine ⟨hi.dispatched, fun w hpc => ?_, fun v w b hv hw => ?_, hi.tracked.own, ⟨hi.once, hi.tracked.closes_le⟩,
    fun c hc => ?_, fun c hc hd => ?_, fun b fd c k hb => ⟨hi.placed b fd c k hb, hi.attached b fd c k hb⟩,
    fun w fd b h => hi.found h⟩
  · cases w with
    | main => exact hi.at_main hpc
    | sub k => exact hi.at_sub hpc
  · obtain ⟨k, rfl, fd, c, hcell⟩ := hi.holder hv
    obtain ⟨j, rfl, f, d, hcell'⟩ := hi.holder hw
    rw [hcell] at hcell'
    cases hcell'
    rfl
  · have hg : Gone s.process.table c := ((hi.deleted c).mp hc).1
    exact ⟨hg, hi.tracked.gone c hg⟩
  · by_cases hopen : ∃ fd, s.process.table.conn fd = some c
    · obtain ⟨fd, hfd⟩ := hopen
      refine (hi.owned fd c hfd).imp ?_ fun hpc => ⟨fd, hpc⟩
      rintro ⟨b, k, hb⟩
      exact ⟨b, fd, k, hb⟩
    · refine Or.inl (not_forall_not.mp fun hno => hd ?_)
      exact (hi.deleted c).mpr ⟨⟨hc, not_exists.mp hopen⟩, fun b fd k hb => hno b ⟨fd, k, hb⟩⟩

/-- Client 0 hangs up; while its object is being deleted, the main thread accepts client 1 under the same number. -/
def overlap : List Action :=
  [.wait .main (some [⟨3, 100, ⟨true, false, false⟩, some (.acceptor 3)⟩]), .dispatch .main, .accept 7,
    .newConnection 200, .addChannel true,
    .wait (.sub 0) (some [⟨7, 200, ⟨true, false, true⟩, some (.connection 7 0 0)⟩]), .dispatch (.sub 0),
    .recv (.sub 0) [], .delChannel (.sub 0), .close (.sub 0), .accept 7, .newConnection 300, .free (.sub 0),
    .addChannel true]

theorem reactors_safe_overlap : ∃ s : Server, exec step (init 3 [4, 5, 6] 2 100) overlap = some s ∧
    s.deleted = [0] ∧ s.process.table.conn 7 = some 1 ∧ s.objects.cell 200 = none ∧
    s.objects.cell 300 = some (.connection 7 1 1) ∧ (s.loop (.sub 1)).registered 7 = some 300 ∧ ReactorsSafe s :=
  have hr : Reach anyStep step (init 3 [4, 5, 6] 2 100) ((exec step (init 3 [4, 5, 6] 2 100) overlap).get rfl) :=
    exec_reach_get overlap rfl
  ⟨_, rfl, rfl, rfl, rfl, rfl, rfl, reactors_safe hr⟩

end CppBackend.MultiReactor
