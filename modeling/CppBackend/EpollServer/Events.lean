import CppBackend.EpollServer.Model

/-!
# No event is applied to a stale number

While a batch is worked off, its remaining events are events of numbers that stay registered: a
step closes only the number of the event in hand, which is not in the rest of the batch, or the
number that `accept` has just handed out, which was not open (`Inv.pending`, `Inv.held`).
-/

set_option autoImplicit false

namespace CppBackend.EpollServer

open Library.Descriptors Library.Calls Library.Transition

/-- The number in hand, and the connection that is meant by it. -/
def Pc.holds : Pc → Option (Nat × Nat)
  | .add fd c | .recv fd c | .send fd c _ | .delete fd c | .close fd c => some (fd, c)
  | .top | .wait | .next | .accept | .left => none

/-- The number in hand is answered, and still registered. -/
def Pc.answers : Pc → Bool
  | .recv _ _ | .send _ _ _ => true
  | _ => false

structure Inv (s : Server) : Prop where
  tracked : Tracked s.process
  /-- The interest set has only open connections, -/
  watched : ∀ fd c, s.interest fd = some c → s.process.table.conn fd = some c
  /-- and all of them but the one in hand. -/
  covered : ∀ fd c, s.process.table.conn fd = some c →
    s.interest fd = some c ∨ s.pc.holds = some (fd, c)
  held : ∀ fd c, s.pc.holds = some (fd, c) →
    s.process.table.conn fd = some c ∧ fd ∉ s.batch.map Event.fd
  registered : ∀ fd c, s.pc.holds = some (fd, c) → s.pc.answers = true → s.interest fd = some c
  nodup : (s.batch.map Event.fd).Nodup
  pending : ∀ e ∈ s.batch, e.fd = s.serverFd ∨ s.interest e.fd = some e.conn

variable {s s' : Server} {fd c : Nat}

/-- A step that goes from no number in hand to none. -/
theorem inv_idle (hi : Inv s) {pc : Pc} {running : Bool} (h : s.pc.holds = none)
    (h' : pc.holds = none) : Inv { s with isRunning := running, pc := pc } := by
  refine ⟨hi.tracked, hi.watched, fun fd c hc => ?_, fun fd c hc => ?_, fun fd c hc => ?_, hi.nodup,
    hi.pending⟩
  · have := hi.covered fd c hc
    simp_all
  · simp [h'] at hc
  · simp [h'] at hc

theorem inv_wait (hi : Inv s) (h : s.pc.holds = none) {events : List Event}
    (hr : s.reportable events = true) : Inv { s with batch := events, pc := .next } := by
  simp only [Server.reportable, Bool.and_eq_true, decide_eq_true_eq, List.all_eq_true] at hr
  obtain ⟨⟨_, hnodup⟩, hready⟩ := hr
  refine ⟨hi.tracked, hi.watched, fun fd c hc => ?_, fun fd c hc => (nomatch hc),
    fun fd c hc => (nomatch hc), hnodup, ?_⟩
  · have := hi.covered fd c hc
    simp_all
  · intro e he
    simpa [Server.ready] using hready e he

/-- The event that is taken out of the batch is about a connection that is open. -/
theorem inv_dispatch (hi : Inv s) (hpc : s.pc = .next) : Inv s.dispatch := by
  have hcov : ∀ fd c, s.process.table.conn fd = some c → s.interest fd = some c := by
    intro fd c hc
    simpa [hpc, Pc.holds] using hi.covered fd c hc
  unfold Server.dispatch
  split
  · exact inv_idle hi (by simp [hpc, Pc.holds]) rfl
  · rename_i e rest hb
    have hnodup := hi.nodup
    have hpend := hi.pending
    simp only [hb, List.map_cons, List.nodup_cons] at hnodup
    simp only [hb, List.forall_mem_cons] at hpend
    split
    · exact ⟨hi.tracked, hi.watched, fun fd c hc => Or.inl (hcov fd c hc),
        fun fd c hc => (nomatch hc), fun fd c hc => (nomatch hc), hnodup.2, hpend.2⟩
    · rename_i hne
      have hreg := hpend.1.resolve_left hne
      split
      · refine ⟨hi.tracked, hi.watched, fun fd c hc => Or.inl (hcov fd c hc), fun fd c hc => ?_,
          fun fd c hc _ => ?_, hnodup.2, hpend.2⟩
        · simp only [Pc.holds, Option.some.injEq, Prod.mk.injEq] at hc
          obtain ⟨rfl, rfl⟩ := hc
          exact ⟨hi.watched _ _ hreg, hnodup.1⟩
        · simp only [Pc.holds, Option.some.injEq, Prod.mk.injEq] at hc
          obtain ⟨rfl, rfl⟩ := hc
          exact hreg
      · exact ⟨hi.tracked, hi.watched, fun fd c hc => Or.inl (hcov fd c hc),
          fun fd c hc => by simp [hpc, Pc.holds] at hc, fun fd c hc => by simp [hpc, Pc.holds] at hc,
          hnodup.2, hpend.2⟩

/-- The number that `accept` returns is not in the rest of the batch. -/
theorem inv_accept (hi : Inv s) (hpc : s.pc = .accept) (hfree : s.free fd = true) :
    Inv { s with process := s.process.accept fd, pc := .add fd s.process.table.next } := by
  simp only [Server.free, Bool.and_eq_true, bne_iff_ne, Option.isNone_iff_eq_none] at hfree
  obtain ⟨⟨hserver, _⟩, hfree⟩ := hfree
  have hnew : s.interest fd = none := by
    cases hc : s.interest fd with
    | none => rfl
    | some c => simp [hi.watched fd c hc] at hfree
  refine ⟨tracked_accept hi.tracked hfree, fun f c hc => accept_open hfree (hi.watched f c hc), ?_,
    ?_, fun f c _ ha => (nomatch ha), hi.nodup, hi.pending⟩
  · intro f c hc
    by_cases hf : f = fd
    · subst hf
      simp only [accept_table, accept_self, Option.some.injEq] at hc
      simp [Pc.holds, hc]
    · rw [accept_table, accept_of_ne hf] at hc
      have := hi.covered f c hc
      simp_all [Pc.holds]
  · intro f c hc
    simp only [Pc.holds, Option.some.injEq, Prod.mk.injEq] at hc
    obtain ⟨rfl, rfl⟩ := hc
    refine ⟨by simp, fun hm => ?_⟩
    obtain ⟨e, he, hfd⟩ := List.mem_map.mp hm
    have := hi.pending e he
    simp_all

/-- A step of the handling that neither opens nor closes anything. -/
theorem inv_handling (hi : Inv s) {p : Process} {pc : Pc} (ht : Tracked p)
    (hp : p.table = s.process.table) (hpc : s.pc.holds = some (fd, c))
    (hpc' : pc.holds = some (fd, c)) (ha : pc.answers = true → s.interest fd = some c) :
    Inv { s with process := p, pc := pc } := by
  refine ⟨ht, by simpa [hp] using hi.watched, fun f d hd => ?_, fun f d hd => ?_,
    fun f d hd hans => ?_, hi.nodup, hi.pending⟩
  · rcases hi.covered f d (hp ▸ hd) with h | h
    · exact Or.inl h
    · simp_all
  · simp only [hpc', Option.some.injEq, Prod.mk.injEq] at hd
    obtain ⟨rfl, rfl⟩ := hd
    simpa [hp] using hi.held fd c hpc
  · simp only [hpc', Option.some.injEq, Prod.mk.injEq] at hd
    obtain ⟨rfl, rfl⟩ := hd
    exact ha hans

/-- The client has been answered and stays registered. -/
theorem inv_answered (hi : Inv s) {p : Process} (ht : Tracked p)
    (hp : p.table = s.process.table) (hpc : s.pc.holds = some (fd, c))
    (ha : s.interest fd = some c) : Inv { s with process := p, pc := .next } := by
  refine ⟨ht, by simpa [hp] using hi.watched, fun f d hd => Or.inl ?_, fun f d hd => (nomatch hd),
    fun f d hd => (nomatch hd), hi.nodup, hi.pending⟩
  rcases hi.covered f d (hp ▸ hd) with h | h
  · exact h
  · rw [hpc, Option.some.injEq, Prod.mk.injEq] at h
    obtain ⟨rfl, rfl⟩ := h
    exact ha

theorem inv_add (hi : Inv s) (hpc : s.pc = .add fd c) :
    Inv { s with interest := Function.update s.interest fd (some c), pc := .next } := by
  obtain ⟨hopen, hbatch⟩ := hi.held fd c (by simp [hpc, Pc.holds])
  refine ⟨hi.tracked, fun f d hd => ?_, fun f d hd => Or.inl ?_, fun f d hd => (nomatch hd),
    fun f d hd => (nomatch hd), hi.nodup, fun e he => ?_⟩
  · by_cases hf : f = fd
    · simp_all
    · exact hi.watched f d (by simpa [hf] using hd)
  · by_cases hf : f = fd
    · simp_all
    · have := hi.covered f d hd
      simp_all [Pc.holds, Ne.symm hf]
  · have hne : e.fd ≠ fd := fun h => hbatch (h ▸ List.mem_map_of_mem he)
    simpa [hne] using hi.pending e he

theorem inv_delete (hi : Inv s) (hpc : s.pc = .delete fd c) (ok : Bool) :
    Inv { s with interest := if ok then Function.update s.interest fd none else s.interest
                 pc := .close fd c } := by
  obtain ⟨hopen, hbatch⟩ := hi.held fd c (by simp [hpc, Pc.holds])
  cases ok with
  | false => exact inv_handling hi hi.tracked rfl (by simp [hpc, Pc.holds]) rfl fun h => (nomatch h)
  | true =>
    refine ⟨hi.tracked, fun f d hd => ?_, fun f d hd => ?_, fun f d hd => ?_,
      fun f d _ ha => (nomatch ha), hi.nodup, fun e he => ?_⟩
    · by_cases hf : f = fd
      · simp [hf] at hd
      · exact hi.watched f d (by simpa [hf] using hd)
    · by_cases hf : f = fd
      · simp_all [Pc.holds]
      · have := hi.covered f d hd
        simp_all [Pc.holds, Ne.symm hf]
    · apply hi.held
      simpa [hpc, Pc.holds] using hd
    · have hne : e.fd ≠ fd := fun h => hbatch (h ▸ List.mem_map_of_mem he)
      simpa [hne] using hi.pending e he

theorem inv_close (hi : Inv s) (hpc : s.pc = .close fd c) :
    Inv { s with process := s.process.close fd c
                 interest := Function.update s.interest fd none, pc := .next } := by
  obtain ⟨hopen, hbatch⟩ := hi.held fd c (by simp [hpc, Pc.holds])
  refine ⟨tracked_close hi.tracked hopen, fun f d hd => ?_, fun f d hd => Or.inl ?_,
    fun f d hd => (nomatch hd), fun f d hd => (nomatch hd), hi.nodup, fun e he => ?_⟩
  · by_cases hf : f = fd
    · simp [hf] at hd
    · have := hi.watched f d (by simpa [hf] using hd)
      simpa [close_of_ne hf] using this
  · obtain ⟨hf, hd'⟩ := close_eq_some.mp hd
    have := hi.covered f d hd'
    simp_all [Pc.holds, Ne.symm hf]
  · have hne : e.fd ≠ fd := fun h => hbatch (h ▸ List.mem_map_of_mem he)
    simpa [hne] using hi.pending e he

theorem inv_init (serverFd epfd : Nat) : Inv (init serverFd epfd) :=
  ⟨tracked_empty, fun _ _ h => (nomatch h), fun _ _ h => (nomatch h), fun _ _ h => (nomatch h),
    fun _ _ h => (nomatch h), List.nodup_nil, fun _ h => (nomatch h)⟩

theorem inv_step {a : Action} (hi : Inv s) (h : step s a = some s') : Inv s' := by
  cases a with
  | stop =>
    cases h
    exact ⟨hi.tracked, hi.watched, hi.covered, hi.held, hi.registered, hi.nodup, hi.pending⟩
  | test =>
    simp only [step] at h
    split at h
    · rename_i hpc
      cases h
      exact inv_idle hi (by simp [hpc, Pc.holds]) (by split <;> rfl)
    · cases h
  | wait events =>
    simp only [step] at h
    split at h
    · rename_i hpc
      cases h
      exact inv_idle hi (by simp [hpc, Pc.holds]) (by split <;> rfl)
    · rename_i hpc
      split at h
      · rename_i hr
        cases h
        exact inv_wait hi (by simp [hpc, Pc.holds]) hr
      · cases h
    · cases h
  | dispatch =>
    simp only [step] at h
    split at h
    · rename_i hpc
      cases h
      exact inv_dispatch hi hpc
    · cases h
  | accept clientFd =>
    simp only [step] at h
    split at h
    · rename_i hpc
      cases h
      exact inv_idle hi (by simp [hpc, Pc.holds]) rfl
    · rename_i hpc
      split at h
      · rename_i hfree
        cases h
        exact inv_accept hi hpc hfree
      · cases h
    · cases h
  | ctl ok =>
    simp only [step] at h
    split at h
    · rename_i hpc
      split at h
      · cases h
        exact inv_add hi hpc
      · cases h
        exact inv_handling hi hi.tracked rfl (by simp [hpc, Pc.holds]) rfl fun h => (nomatch h)
    · rename_i hpc
      cases h
      exact inv_delete hi hpc ok
    · cases h
  | recv chunk =>
    simp only [step] at h
    split at h
    · rename_i fd c hpc
      split at h
      · cases h
        have hholds : s.pc.holds = some (fd, c) := by simp [hpc, Pc.holds]
        have hans : s.interest fd = some c := hi.registered fd c hholds (by simp [hpc, Pc.answers])
        exact inv_handling hi (tracked_call hi.tracked (by simp) (hi.held fd c hholds).1) rfl hholds
          (by split <;> rfl) fun _ => hans
      · cases h
    · cases h
  | send ok =>
    simp only [step] at h
    split at h
    · rename_i fd c chunk hpc
      cases h
      have hholds : s.pc.holds = some (fd, c) := by simp [hpc, Pc.holds]
      have hans : s.interest fd = some c := hi.registered fd c hholds (by simp [hpc, Pc.answers])
      have ht := tracked_call (k := .send (response chunk)) hi.tracked (by simp)
        (hi.held fd c hholds).1
      cases ok with
      | true => exact inv_answered hi ht rfl hholds hans
      | false => exact inv_handling hi ht rfl hholds rfl fun h => (nomatch h)
    · cases h
  | close =>
    simp only [step] at h
    split at h
    · rename_i hpc
      cases h
      exact inv_close hi hpc
    · cases h

theorem reach_inv {serverFd epfd : Nat} (hr : Reach anyStep step (init serverFd epfd) s) : Inv s :=
  hr.invariant (inv_init serverFd epfd) fun _ _ _ hi h _ => inv_step hi h

/-- Events are applied to the connections that they were reported for. -/
structure NotStale (s : Server) : Prop where
  /-- The rest of a batch is about open connections. -/
  pending : ∀ e ∈ s.batch, e.fd = s.serverFd ∨ s.process.table.conn e.fd = some e.conn
  /-- Every `recv`, `send` and `close` reached the connection of its event. -/
  own : ∀ o ∈ s.process.ops, o.hit = some o.conn
  once : ∀ c, s.process.closes c ≤ 1
  /-- Between two events, a client is open and registered, or it is closed. -/
  settled : s.pc.holds = none → ∀ c < s.process.table.next,
    (∃ fd, s.process.table.conn fd = some c ∧ s.interest fd = some c) ∨
      Gone s.process.table c ∧ s.process.closes c = 1

/-- **Events are never applied to a stale or reused number**, in any run, for any batches and
    whatever `accept`, `epoll_ctl`, `recv` and `send` return. -/
theorem events_not_stale {serverFd epfd : Nat}
    (hr : Reach anyStep step (init serverFd epfd) s) : NotStale s := by
  have hi := reach_inv hr
  refine ⟨fun e he => ?_, hi.tracked.own, hi.tracked.closes_le, fun hpc c hc => ?_⟩
  · exact (hi.pending e he).imp_right (hi.watched e.fd e.conn)
  · by_cases hopen : ∃ fd, s.process.table.conn fd = some c
    · obtain ⟨fd, hfd⟩ := hopen
      have := hi.covered fd c hfd
      exact Or.inl ⟨fd, hfd, by simpa [hpc] using this⟩
    · have hgone : Gone s.process.table c := ⟨hc, fun fd hfd => hopen ⟨fd, hfd⟩⟩
      exact Or.inr ⟨hgone, hi.tracked.gone c hgone⟩

/-- Client 0 hangs up under the number 5, and the next event of the batch brings client 1, who
    receives the number 5, is answered, and hangs up as well. -/
def reuse : List Action :=
  [.test, .wait (some [⟨3, ⟨true, false, false⟩, 0⟩]), .dispatch, .accept (some 5), .ctl true,
    .dispatch, .test,
    .wait (some [⟨5, ⟨true, false, true⟩, 0⟩, ⟨3, ⟨true, false, false⟩, 0⟩]), .dispatch, .recv [],
    .ctl true, .close, .dispatch, .accept (some 5), .ctl true, .dispatch, .test,
    .wait (some [⟨5, ⟨true, false, false⟩, 1⟩]), .dispatch, .recv [104], .send false, .ctl false,
    .close]

theorem events_not_stale_reuse : ∃ s : Server, Reach anyStep step (init 3 4) s ∧
    s.process.ops = [⟨.recv [], 0, some 0⟩, ⟨.close, 0, some 0⟩, ⟨.recv [104], 1, some 1⟩,
      ⟨.send (response [104]), 1, some 1⟩, ⟨.close, 1, some 1⟩] ∧ NotStale s :=
  have hr : Reach anyStep step (init 3 4) ((exec step (init 3 4) reuse).get rfl) :=
    exec_reach_get reuse rfl
  ⟨_, hr, rfl, events_not_stale hr⟩

end CppBackend.EpollServer
