import CppBackend.SingleReactor.Model

/-!
# No callback runs on a deleted connection

The pointers in the rest of a batch belong to numbers that stay in the epoll: a callback deletes only
the connection that it is called on, whose number is not in the rest, and `accept` returns a number
that is not in the epoll, for an object at an address that nothing in the epoll points to.
-/

set_option autoImplicit false

namespace CppBackend.SingleReactor

open Library.Descriptors Library.Calls Library.Storage Library.Transition

structure Inv (s : Server) : Prop where
  tracked : Tracked s.process
  /-- The object of a connection has its number open and in the epoll. -/
  live : ∀ a fd c, s.objects.cell a = some (.connection fd c) →
    s.process.table.conn fd = some c ∧ s.registered fd = some a
  owned : ∀ fd c, s.process.table.conn fd = some c →
    ∃ a, s.objects.cell a = some (.connection fd c)
  /-- What is in the epoll points to the object that has the number. -/
  watched : ∀ fd a, s.registered fd = some a →
    fd = s.listenFd ∧ s.objects.cell a = some (.acceptor fd) ∨
      ∃ c, s.objects.cell a = some (.connection fd c)
  deleted : ∀ c, c ∈ s.deleted ↔ Gone s.process.table c
  once : s.deleted.Nodup
  nodup : (s.batch.map Event.fd).Nodup
  pending : ∀ e ∈ s.batch, s.registered e.fd = some e.ptr ∧ e.target = s.objects.cell e.ptr
  current : ∀ this, s.pc = .handleRead this →
    ∃ fd c, s.objects.cell this = some (.connection fd c) ∧ fd ∉ s.batch.map Event.fd
  dispatched : ∀ d ∈ s.dispatched, ∃ o, d.target = some o ∧ d.found = some o
  defined : s.pc ≠ .dangling

variable {s s' : Server} {fd c : Nat} {a this : Addr}

/-- A step that changes nothing but where control is. -/
theorem inv_idle (hi : Inv s) {pc : Pc} (hpc : ∀ this, pc ≠ .handleRead this)
    (hd : pc ≠ .dangling) : Inv { s with pc := pc } :=
  ⟨hi.tracked, hi.live, hi.owned, hi.watched, hi.deleted, hi.once, hi.nodup, hi.pending,
    fun this h => absurd h (hpc this), hi.dispatched, hd⟩

theorem inv_wait (hi : Inv s) {events : List Event} (hr : s.reportable events = true) :
    Inv { s with batch := events, pc := .next } := by
  simp only [Server.reportable, Bool.and_eq_true, decide_eq_true_eq, List.all_eq_true] at hr
  obtain ⟨⟨_, hnodup⟩, hready⟩ := hr
  refine ⟨hi.tracked, hi.live, hi.owned, hi.watched, hi.deleted, hi.once, hnodup, fun e he => ?_,
    fun _ h => (nomatch h), hi.dispatched, by simp⟩
  simpa [Server.ready] using hready e he

/-- The object in the epoll is there. -/
theorem Inv.found (hi : Inv s) (h : s.registered fd = some a) :
    ∃ o, s.objects.cell a = some o := by
  rcases hi.watched fd a h with ⟨_, h⟩ | ⟨c, h⟩
  · exact ⟨_, h⟩
  · exact ⟨_, h⟩

/-- The first entry of the batch points to what it pointed to at the collection. -/
theorem inv_dispatch (hi : Inv s) : Inv s.dispatch := by
  unfold Server.dispatch
  cases hb : s.batch with
  | nil =>
    have htop : Inv { s with pc := .top } := inv_idle hi (by simp) (by simp)
    simpa [hb] using htop
  | cons e rest =>
    have hnodup := hi.nodup
    have hpend := hi.pending
    simp only [hb, List.map_cons, List.nodup_cons] at hnodup
    simp only [hb, List.forall_mem_cons] at hpend
    obtain ⟨⟨hreg, htarget⟩, hrest⟩ := hpend
    obtain ⟨o, ho⟩ := hi.found hreg
    refine ⟨hi.tracked, hi.live, hi.owned, hi.watched, hi.deleted, hi.once, hnodup.2, hrest,
      fun this h => ?_, fun d hd => ?_, ?_⟩
    · cases o with
      | acceptor l => cases hin : e.events.epollin <;> simp [ho, hin] at h
      | connection fd c =>
        cases hin : e.events.epollin
        · simp [ho, hin] at h
        · simp [ho, hin] at h
          refine ⟨fd, c, h ▸ ho, ?_⟩
          rcases hi.watched _ _ hreg with ⟨_, hw⟩ | ⟨d, hw⟩
          · simp [hw] at ho
          · simp only [hw, Option.some.injEq, Object.connection.injEq] at ho
            exact ho.1 ▸ hnodup.1
    · rcases List.mem_append.mp hd with hd | hd
      · exact hi.dispatched d hd
      · rw [List.mem_singleton.mp hd]
        exact ⟨o, htarget.trans ho, ho⟩
    · cases o <;> cases hin : e.events.epollin <;> simp [ho, hin]

/-- A connection is created for a number that is not in the epoll, at an address that nothing in the
epoll points to. -/
theorem inv_accept (hi : Inv s) (hpc : s.pc = .handleAccept) (hfree : s.free fd = true)
    (ha : s.objects.cell a = none) :
    Inv ({ s with process := s.process.accept fd }.newConnection fd s.process.table.next a ha) := by
  simp only [Server.free, Bool.and_eq_true, bne_iff_ne, Option.isNone_iff_eq_none] at hfree
  obtain ⟨⟨hlisten, _⟩, hfree⟩ := hfree
  have hunreg : s.registered fd = none := by
    cases hr : s.registered fd with
    | none => rfl
    | some b =>
      rcases hi.watched fd b hr with ⟨h, _⟩ | ⟨c, h⟩
      · exact absurd h hlisten
      · simp [(hi.live b fd c h).1] at hfree
  have hne : ∀ {b o}, s.objects.cell b = some o → b ≠ a := by
    rintro b o hb rfl
    simp [ha] at hb
  refine ⟨tracked_accept hi.tracked hfree, fun b f d hb => ?_, fun f d hd => ?_, fun f b hb => ?_,
    fun d => ?_, hi.once, hi.nodup, fun e he => ?_, fun this h => ?_, hi.dispatched, hi.defined⟩
  · by_cases hba : b = a
    · simp [Server.newConnection, Server.addChannel, hba] at hb ⊢
      simp [← hb.1, ← hb.2]
    · have hb' : s.objects.cell b = some (.connection f d) := by
        simpa [Server.newConnection, Server.addChannel, hba] using hb
      obtain ⟨hopen, hreg⟩ := hi.live b f d hb'
      have hf := ne_of_open hfree hopen
      simp [Server.newConnection, Server.addChannel, accept_of_ne hf, hf, hopen, hreg]
  · by_cases hf : f = fd
    · refine ⟨a, ?_⟩
      simp [Server.newConnection, Server.addChannel, hf] at hd ⊢
      exact hd
    · have hd' : s.process.table.conn f = some d := by
        simpa [Server.newConnection, Server.addChannel, accept_of_ne hf] using hd
      obtain ⟨b, hb⟩ := hi.owned f d hd'
      exact ⟨b, by simp [Server.newConnection, Server.addChannel, hne hb, hb]⟩
  · by_cases hf : f = fd
    · refine Or.inr ⟨s.process.table.next, ?_⟩
      simp [Server.newConnection, Server.addChannel, hf] at hb ⊢
      simp [hb]
    · have hb' : s.registered f = some b := by
        simpa [Server.newConnection, Server.addChannel, hf] using hb
      obtain ⟨o, ho⟩ := hi.found hb'
      simpa [Server.newConnection, Server.addChannel, hne ho] using hi.watched f b hb'
  · exact (hi.deleted d).trans ⟨fun h => gone_accept h fd, gone_of_gone_accept hfree⟩
  · obtain ⟨hreg, htarget⟩ := hi.pending e he
    have hf : e.fd ≠ fd := fun h => by simp [h, hunreg] at hreg
    obtain ⟨o, ho⟩ := hi.found hreg
    simp [Server.newConnection, Server.addChannel, hf, hne ho, hreg, htarget]
  · exact (nomatch hpc.symm.trans h)

/-- A number is in the epoll for one object, and an object is there under one number. -/
theorem Inv.registered_ne (hi : Inv s) {f : Nat} {b : Addr} (h : s.registered f = some b)
    (hthis : s.objects.cell this = some (.connection fd c)) (hf : f ≠ fd) : b ≠ this := by
  rintro rfl
  rcases hi.watched f b h with ⟨_, hw⟩ | ⟨d, hw⟩
  · simp [hw] at hthis
  · simp only [hw, Option.some.injEq, Object.connection.injEq] at hthis
    exact hf hthis.1

/-- Deleting a connection takes its number, which is not in the rest of the batch, out of the epoll
and closes it. -/
theorem inv_delete (hi : Inv s) (hpc : s.pc = .next)
    (hthis : s.objects.cell this = some (.connection fd c)) (hbatch : fd ∉ s.batch.map Event.fd) :
    Inv ((s.delChannel fd).delete this fd c) := by
  obtain ⟨hopen, hreg⟩ := hi.live this fd c hthis
  obtain ⟨objects, hfree, hcell⟩ := Heap.free_of_some hthis
  have hother : ∀ {b f d}, b ≠ this → s.objects.cell b = some (.connection f d) → f ≠ fd := by
    rintro b f d hb hcell rfl
    have hreg' := (hi.live b f d hcell).2
    rw [hreg, Option.some.injEq] at hreg'
    exact hb hreg'.symm
  simp only [Server.delete, Server.delChannel, hfree]
  refine ⟨tracked_close hi.tracked hopen, fun b f d hb => ?_, fun f d hd => ?_, fun f b hb => ?_,
    fun d => ?_, ?_, hi.nodup, fun e he => ?_, fun b h => ?_, hi.dispatched, hi.defined⟩
  · by_cases hbt : b = this
    · simp [hcell, hbt] at hb
    · simp only [hcell, Function.update_of_ne hbt] at hb
      have hf := hother hbt hb
      simpa [hf, close_of_ne hf] using hi.live b f d hb
  · obtain ⟨hf, hd'⟩ := close_eq_some.mp hd
    obtain ⟨b, hb⟩ := hi.owned f d hd'
    have hbt : b ≠ this := by
      rintro rfl
      simp only [hthis, Option.some.injEq, Object.connection.injEq] at hb
      exact hf hb.1.symm
    exact ⟨b, by simp [hcell, hbt, hb]⟩
  · by_cases hf : f = fd
    · simp [hf] at hb
    · have hb' : s.registered f = some b := by simpa [hf] using hb
      simpa [hcell, hi.registered_ne hb' hthis hf] using hi.watched f b hb'
  · simp only [List.mem_append, List.mem_singleton, hi.deleted d, close_table]
    constructor
    · rintro (h | rfl)
      · exact gone_close h fd
      · exact gone_of_close hopen
    · intro h
      by_cases hd : d = c
      · exact Or.inr hd
      · exact Or.inl (gone_of_gone_close hopen hd h)
  · refine List.nodup_append.mpr ⟨hi.once, by simp, ?_⟩
    rintro d hd e he rfl
    rw [List.mem_singleton] at he
    exact not_gone_of_open hopen (he ▸ (hi.deleted d).mp hd)
  · obtain ⟨hreg', htarget⟩ := hi.pending e he
    have hf : e.fd ≠ fd := fun h => hbatch (h ▸ List.mem_map_of_mem he)
    simp [hf, hreg', htarget, hcell, hi.registered_ne hreg' hthis hf]
  · exact (nomatch hpc.symm.trans h)

theorem inv_handleRead (hi : Inv s) (hpc : s.pc = .handleRead this) (chunk : List UInt8) :
    Inv (s.handleRead this chunk) := by
  obtain ⟨fd, c, hthis, hbatch⟩ := hi.current this hpc
  obtain ⟨hopen, _⟩ := hi.live this fd c hthis
  have hrecv : Inv { s with process := s.process.call (.recv chunk) fd c, pc := .next } :=
    ⟨tracked_call hi.tracked (by simp) hopen, hi.live, hi.owned, hi.watched, hi.deleted, hi.once,
      hi.nodup, hi.pending, fun _ h => (nomatch h), hi.dispatched, by simp⟩
  simp only [Server.handleRead, hthis]
  split
  · exact inv_delete hrecv rfl hthis hbatch
  · exact hrecv

theorem inv_init (listenFd epfd : Nat) (a : Addr) : Inv (init listenFd epfd a) := by
  have hcell : (init listenFd epfd a).objects.cell =
      Function.update (fun _ => none) a (some (.acceptor listenFd)) := rfl
  refine ⟨tracked_empty, fun b fd c hb => ?_, fun _ _ h => (nomatch h), fun fd b hb => Or.inl ?_,
    fun c => ?_, List.nodup_nil, List.nodup_nil, fun _ h => (nomatch h), fun _ h => (nomatch h),
    fun _ h => (nomatch h), by simp [init]⟩
  · by_cases hba : b = a <;> simp [hcell, hba] at hb
  · by_cases hf : fd = listenFd
    · simp [init, hf] at hb
      simp [hb, hf, init]
    · simp [init, hf] at hb
  · exact ⟨fun h => (nomatch h), fun h => absurd h.1 (Nat.not_lt_zero c)⟩

theorem inv_step {act : Action} (hi : Inv s) (h : step s act = some s') : Inv s' := by
  cases act with
  | stop =>
    cases h
    exact ⟨hi.tracked, hi.live, hi.owned, hi.watched, hi.deleted, hi.once, hi.nodup, hi.pending,
      hi.current, hi.dispatched, hi.defined⟩
  | test =>
    simp only [step] at h
    split at h
    · cases h
      exact inv_idle hi (by split <;> simp) (by split <;> simp)
    · cases h
  | wait events =>
    simp only [step] at h
    split at h
    · cases h
      exact inv_wait hi rfl
    · split at h
      · rename_i hr
        cases h
        exact inv_wait hi hr
      · cases h
    · cases h
  | dispatch =>
    simp only [step] at h
    split at h
    · cases h
      exact inv_dispatch hi
    · cases h
  | accept clientFd a =>
    simp only [step] at h
    split at h
    · rename_i hpc
      split at h
      · rename_i hfree
        split at h
        · rename_i ha
          cases h
          exact inv_accept hi hpc hfree ha
        · cases h
      · cases h
    · cases h
  | acceptFails =>
    simp only [step] at h
    split at h
    · cases h
      exact inv_idle hi (by simp) (by simp)
    · cases h
  | recv chunk =>
    simp only [step] at h
    split at h
    · rename_i hpc
      split at h
      · cases h
        exact inv_handleRead hi hpc chunk
      · cases h
    · cases h

theorem reach_inv {listenFd epfd : Nat} {a : Addr}
    (hr : Reach anyStep step (init listenFd epfd a) s) : Inv s :=
  hr.invariant (inv_init listenFd epfd a) fun _ _ _ hi h _ => inv_step hi h

/-- The connections and their objects come and go together. -/
structure CallbacksSafe (s : Server) : Prop where
  /-- A dispatched pointer points to an object, the one that was registered at the collection. -/
  dispatched : ∀ d ∈ s.dispatched, ∃ o, d.target = some o ∧ d.found = some o
  defined : s.pc ≠ .dangling
  /-- Every `recv` and `close` reached the connection of its object. -/
  own : ∀ o ∈ s.process.ops, o.hit = some o.conn
  /-- No connection is deleted twice, -/
  once : s.deleted.Nodup
  /-- and its number is closed when it is deleted, and only then. -/
  closed : ∀ c, (c ∈ s.deleted ↔ Gone s.process.table c) ∧
    s.process.closes c = if c ∈ s.deleted then 1 else 0
  /-- An accepted connection that has not been deleted has an object, -/
  alive : ∀ c < s.process.table.next, c ∉ s.deleted →
    ∃ a fd, s.objects.cell a = some (.connection fd c)
  /-- which is in the epoll under its open number. -/
  registered : ∀ a fd c, s.objects.cell a = some (.connection fd c) →
    s.process.table.conn fd = some c ∧ s.registered fd = some a

/-- **Reactor callbacks never run on a deleted connection**, in any run, for any batches and whatever
`accept`, `new` and `recv` return. -/
theorem callbacks_safe {listenFd epfd : Nat} {a : Addr}
    (hr : Reach anyStep step (init listenFd epfd a) s) : CallbacksSafe s := by
  have hi := reach_inv hr
  refine ⟨hi.dispatched, hi.defined, hi.tracked.own, hi.once, fun c => ⟨hi.deleted c, ?_⟩,
    fun c hc hd => ?_, hi.live⟩
  · split
    · rename_i hd
      exact hi.tracked.gone c ((hi.deleted c).mp hd)
    · rename_i hd
      exact hi.tracked.live c fun hg => hd ((hi.deleted c).mpr hg)
  · by_cases hopen : ∃ fd, s.process.table.conn fd = some c
    · obtain ⟨fd, hfd⟩ := hopen
      obtain ⟨b, hb⟩ := hi.owned fd c hfd
      exact ⟨b, fd, hb⟩
    · exact absurd ((hi.deleted c).mpr ⟨hc, fun fd hfd => hopen ⟨fd, hfd⟩⟩) hd

/-- Client 0 hangs up, and in the same batch client 1 receives its number and its address. -/
def reuse : List Action :=
  [.test, .wait (some [⟨3, 100, ⟨true, false, false⟩, some (.acceptor 3)⟩]), .dispatch,
    .accept 5 200, .acceptFails, .dispatch, .test,
    .wait (some [⟨5, 200, ⟨true, false, true⟩, some (.connection 5 0)⟩,
      ⟨3, 100, ⟨true, false, false⟩, some (.acceptor 3)⟩]), .dispatch, .recv [], .dispatch,
    .accept 5 200, .acceptFails]

theorem callbacks_safe_reuse : ∃ s : Server, Reach anyStep step (init 3 4 100) s ∧
    s.deleted = [0] ∧ s.process.table.conn 5 = some 1 ∧
    s.objects.cell 200 = some (.connection 5 1) ∧ CallbacksSafe s :=
  have hr : Reach anyStep step (init 3 4 100) ((exec step (init 3 4 100) reuse).get rfl) :=
    exec_reach_get reuse rfl
  ⟨_, hr, rfl, rfl, rfl, callbacks_safe hr⟩

end CppBackend.SingleReactor
