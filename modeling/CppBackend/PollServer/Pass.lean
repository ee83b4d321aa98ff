import CppBackend.PollServer.Table

/-!
# One pass over the poll table

`cnt` counts every entry with an event but goes down only for those with `POLLIN`, and the handlers write to
the table while the loop walks over it.  At the number `next` of a pass (`Unscanned`), the reports that
are still to be looked at are as `poll` left them, and `cnt` is at least their number, so that it is 0 only
when none is left.

* `passing_step` — what a step of a pass keeps, and how it shortens the pass;
* `pass_dispatches` — at its end, exactly the entries with `POLLIN` have been dispatched, each once.
-/

set_option autoImplicit false

namespace CppBackend.PollServer

open Library.Descriptors Library.Poll Library.Transition

variable {s s' : Server} {ready : Nat → Bool} {mask : Nat → Flags} {n next due fd i : Nat}

/-! ## The table under the loop -/

theorem read_write_of_ne (hne : i ≠ fd) (e : Pollfd) : (s.write fd e).read i = s.read i := by
  simp [Server.read, Server.write, List.getD_eq_getElem?_getD, Ne.symm hne]

theorem getD_resize (fds : List Pollfd) (m i : Nat) :
    (resize fds m).getD i fresh = fds.getD i fresh := by
  unfold resize
  rw [List.getD_eq_getElem?_getD, List.getD_eq_getElem?_getD]
  by_cases hi : i < fds.length
  · rw [List.getElem?_append_left hi]
  · rw [List.getElem?_append_right (by omega), List.getElem?_eq_none (by omega : fds.length ≤ i),
      List.getElem?_replicate]
    split <;> rfl

theorem read_newClient_of_ne (hne : i ≠ fd) : (s.newClient fd).read i = s.read i := by
  show ((if s.fds.length ≤ fd then resize s.fds (fd + 1) else s.fds).set fd _).getD i fresh = _
  rw [List.getD_eq_getElem?_getD, List.getElem?_set_ne (Ne.symm hne), ← List.getD_eq_getElem?_getD]
  split
  · exact getD_resize s.fds (fd + 1) i
  · rfl

theorem read_newClient_self : ((s.newClient fd).read fd).revents.pollin = false := by
  show (((if s.fds.length ≤ fd then resize s.fds (fd + 1) else s.fds).set fd
    (watching fd)).getD fd fresh).revents.pollin = false
  rw [List.getD_eq_getElem?_getD, List.getElem?_set_self (grown_length s.fds fd).1]
  rfl

theorem read_drop_of_ne (hne : i ≠ fd) : (s.drop fd).read i = s.read i := read_write_of_ne hne closed

theorem read_communicate_of_ne (hne : i ≠ fd) (chunk : List UInt8) :
    (s.communicate fd chunk).read i = s.read i := by
  unfold Server.communicate
  split
  · exact read_drop_of_ne hne
  · rfl

/-! ## The invariant of a pass -/

/-- The numbers below `next` have been handled, and `due` of them are to be counted off; `ready` are the
    numbers that `poll` has reported with `POLLIN`. -/
structure Unscanned (ready : Nat → Bool) (n next due : Nat) (s : Server) : Prop where
  cur : s.curMaxFd = n
  bound : next ≤ n + 1
  dispatched : s.dispatched = (List.range next).filter ready
  same : ∀ i, next ≤ i → i ≤ n → (s.read i).revents.pollin = ready i
  counted : (List.range' next (n + 1 - next)).countP ready + due ≤ s.cnt

/-- All of them. -/
def Dispatched (ready : Nat → Bool) (n : Nat) (s : Server) : Prop :=
  s.dispatched = (List.range (n + 1)).filter ready

/-- Where the pass is. -/
def Passing (ready : Nat → Bool) (n : Nat) (s : Server) : Prop :=
  match s.pc with
  | .scan fd => Unscanned ready n fd 0 s
  | .newClient => Unscanned ready n (s.serverFd + 1) 1 s
  | .communicate fd => Unscanned ready n (fd + 1) 1 s
  | .recv fd => Unscanned ready n (fd + 1) 1 s
  | .top => Dispatched ready n s
  | .poll => False
  | .left => False

/-- What is left of the pass: three steps at most for each number. -/
def remaining (n : Nat) (s : Server) : Nat :=
  match s.pc with
  | .scan fd => 3 * (n + 1 - fd) + 1
  | .newClient => 3 * (n - s.serverFd) + 2
  | .communicate fd => 3 * (n - fd) + 3
  | .recv fd => 3 * (n - fd) + 2
  | _ => 0

/-- The rest of a pass from the number `next` on. -/
theorem countP_from (h : next ≤ n) : (List.range' next (n + 1 - next)).countP ready =
    (if ready next then 1 else 0) + (List.range' (next + 1) (n + 1 - (next + 1))).countP ready := by
  have hsub : n + 1 - next = (n + 1 - (next + 1)) + 1 := by omega
  rw [hsub, List.range'_succ, List.countP_cons, Nat.add_comm]

/-- The loop goes on to the next number; `due` says whether this one is to be counted off. -/
theorem Unscanned.advance (h : Unscanned ready n fd 0 s) (hin : fd ≤ n)
    (hdue : due = if ready fd then 1 else 0)
    (hs : s'.curMaxFd = s.curMaxFd ∧ s'.cnt = s.cnt ∧ ∀ i, s'.read i = s.read i)
    (hdispatched : s'.dispatched = s.dispatched ++ if ready fd then [fd] else []) :
    Unscanned ready n (fd + 1) due s' := by
  obtain ⟨hcur, hcnt, hread⟩ := hs
  have hcounted := h.counted
  rw [countP_from hin] at hcounted
  refine ⟨hcur.trans h.cur, by omega, ?_, fun i hi hle => ?_, by omega⟩
  · rw [hdispatched, h.dispatched, List.range_succ, List.filter_append]
    congr 1
    cases hfd : ready fd <;> simp [hfd]
  · rw [hread]
    exact h.same i (by omega) hle

/-- What a pass is about is left alone. -/
theorem Unscanned.keep (h : Unscanned ready n next due s) (hfds : s'.fds = s.fds)
    (hcur : s'.curMaxFd = s.curMaxFd) (hcnt : s'.cnt = s.cnt)
    (hdispatched : s'.dispatched = s.dispatched) : Unscanned ready n next due s' := by
  refine ⟨hcur.trans h.cur, h.bound, hdispatched.trans h.dispatched, fun i hi hle => ?_, hcnt ▸ h.counted⟩
  rw [← h.same i hi hle, Server.read, Server.read, hfds]

/-- Counting off, with the entries from `next` on as they were. -/
theorem Unscanned.countOff (h : Unscanned ready n next 1 s) (hcur : s'.curMaxFd = s.curMaxFd)
    (hcnt : s'.cnt = s.cnt - 1) (hdispatched : s'.dispatched = s.dispatched)
    (hread : ∀ i, next ≤ i → i ≤ n → (s'.read i).revents.pollin = ready i) :
    Unscanned ready n next 0 s' := by
  have hcounted := h.counted
  exact ⟨hcur.trans h.cur, h.bound, hdispatched.trans h.dispatched, hread, by omega⟩

/-- The loop is left early only when nothing is left to be dispatched. -/
theorem Unscanned.ended (h : Unscanned ready n fd 0 s) (hend : s.curMaxFd < fd ∨ s.cnt = 0) :
    Dispatched ready n s := by
  have hbound := h.bound
  have hcounted := h.counted
  have hnone : (List.range' fd (n + 1 - fd)).countP ready = 0 := by
    rcases hend with hlt | hzero
    · have hcur := h.cur
      have hsub : n + 1 - fd = 0 := by omega
      rw [hsub]
      rfl
    · omega
  have hrest : (List.range' fd (n + 1 - fd)).filter ready = [] := by
    rw [← List.length_eq_zero_iff, ← List.countP_eq_length_filter]
    exact hnone
  have hsplit : List.range (n + 1) = List.range fd ++ List.range' fd (n + 1 - fd) := by
    have happend := List.range'_append_1 (s := 0) (m := fd) (n := n + 1 - fd)
    rw [Nat.zero_add, Nat.add_sub_of_le hbound] at happend
    rw [List.range_eq_range', List.range_eq_range', happend]
  unfold Dispatched
  rw [h.dispatched, hsplit, List.filter_append, hrest, List.append_nil]

/-! ## The steps of a pass -/

/-- An entry that is still to be dispatched is not the one that `accept` hands out. -/
theorem Unscanned.not_handed (h : Unscanned ready n next due s) (hi : Inv s) (hne : fd ≠ s.serverFd)
    (hfree : s.table.conn fd = none) (hge : next ≤ fd) (hle : fd ≤ n) : ready fd = false := by
  by_contra hready
  rw [Bool.not_eq_false, ← h.same fd hge hle] at hready
  have hclient := (hi.ready_owned hready).resolve_right hne
  rw [hi.clients, hfree] at hclient
  cases hclient

/-- Everything of a pass but `stop()` belongs to `poll_loop`. -/
def Action.works : Action → Bool
  | .stop => false
  | _ => true

theorem Passing.stop (h : Passing ready n s) : Passing ready n { s with isRunning := false } := by
  unfold Passing at h ⊢
  cases hpc : s.pc with
  | scan fd =>
    rw [hpc] at h
    exact h.keep rfl rfl rfl rfl
  | newClient =>
    rw [hpc] at h
    exact h.keep rfl rfl rfl rfl
  | communicate fd =>
    rw [hpc] at h
    exact h.keep rfl rfl rfl rfl
  | recv fd =>
    rw [hpc] at h
    exact h.keep rfl rfl rfl rfl
  | top =>
    rw [hpc] at h
    exact h
  | poll =>
    rw [hpc] at h
    exact h
  | left =>
    rw [hpc] at h
    exact h

theorem passing_step {a : Action} (hi : Inv s) (h : Passing ready n s) (ha : a ≠ .test)
    (hs : step s a = some s') : Passing ready n s' ∧
      remaining n s' + (if a.works then 1 else 0) ≤ remaining n s := by
  cases step_inv hs with
  | stop => exact ⟨h.stop, Nat.le_refl _⟩
  | goOn => exact absurd rfl ha
  | leave => exact absurd rfl ha
  | poll hpc => simp only [Passing, hpc] at h
  | pollFails hpc => simp only [Passing, hpc] at h
  | passEnds hpc hend =>
    simp only [Passing, hpc] at h
    exact ⟨h.ended hend, by simp [remaining, hpc, Action.works]⟩
  | @skip fd hpc hin hcnt hnot =>
    simp only [Passing, hpc] at h
    have hle : fd ≤ n := h.cur ▸ hin
    have hno : ready fd = false := by
      rw [← h.same fd (Nat.le_refl _) hle]
      exact hi.not_ready hnot
    refine ⟨h.advance hle (by simp [hno]) ⟨rfl, rfl, fun _ => rfl⟩ (by simp [hno, Server.looked]), ?_⟩
    simp only [remaining, hpc, Action.works, Server.looked, if_true]
    omega
  | @dispatch fd hpc hin hcnt hready =>
    simp only [Passing, hpc] at h
    have hle : fd ≤ n := h.cur ▸ hin
    rw [h.same fd (Nat.le_refl _) hle] at hready
    have hnext : Unscanned ready n (fd + 1) 1
        { s.looked fd (if fd = s.serverFd then .newClient else .communicate fd) with
          dispatched := s.dispatched ++ [fd] } :=
      h.advance hle (by simp [hready]) ⟨rfl, rfl, fun _ => rfl⟩ (by simp [hready])
    by_cases hserver : fd = s.serverFd
    · rw [if_pos hserver] at hnext ⊢
      refine ⟨hserver ▸ hnext, ?_⟩
      simp only [remaining, hpc, Action.works, Server.looked, if_true]
      omega
    · rw [if_neg hserver] at hnext ⊢
      refine ⟨hnext, ?_⟩
      simp only [remaining, hpc, Action.works, Server.looked, if_true]
      omega
  | acceptFails hpc =>
    simp only [Passing, hpc] at h
    refine ⟨h.countOff rfl rfl rfl h.same, ?_⟩
    simp only [remaining, hpc, Action.works, Server.handled, if_true]
    omega
  | @accept fd hpc hne hfree =>
    simp only [Passing, hpc] at h
    refine ⟨h.countOff rfl rfl rfl fun i hge hle => ?_, ?_⟩
    · show ((s.newClient fd).read i).revents.pollin = ready i
      by_cases hifd : i = fd
      · subst hifd
        rw [read_newClient_self, h.not_handed hi hne hfree hge hle]
      · rw [read_newClient_of_ne hifd]
        exact h.same i hge hle
    · simp only [remaining, hpc, Action.works, Server.handled, if_true]
      show 3 * (n + 1 - (s.serverFd + 1)) + 1 + 1 ≤ _
      omega
  | @communicate fd hpc =>
    simp only [Passing, hpc] at h
    refine ⟨h.keep rfl rfl rfl rfl, ?_⟩
    simp only [remaining, hpc, Action.works, if_true]
    omega
  | @shutDown fd hpc =>
    simp only [Passing, hpc] at h
    refine ⟨h.countOff rfl rfl rfl fun i hge hle => ?_, ?_⟩
    · show ((s.drop fd).read i).revents.pollin = ready i
      rw [read_drop_of_ne (by omega)]
      exact h.same i hge hle
    · simp only [remaining, hpc, Action.works, Server.handled, if_true]
      omega
  | @recv fd chunk hpc =>
    simp only [Passing, hpc] at h
    refine ⟨h.countOff ?_ ?_ ?_ fun i hge hle => ?_, ?_⟩
    · show (s.communicate fd chunk).curMaxFd = s.curMaxFd
      unfold Server.communicate
      split <;> rfl
    · show (s.communicate fd chunk).cnt - 1 = s.cnt - 1
      unfold Server.communicate
      split <;> rfl
    · show (s.communicate fd chunk).dispatched = s.dispatched
      unfold Server.communicate
      split <;> rfl
    · show ((s.communicate fd chunk).read i).revents.pollin = ready i
      rw [read_communicate_of_ne (by omega)]
      exact h.same i hge hle
    · simp only [remaining, hpc, Action.works, Server.handled, if_true]
      omega

/-! ## Whole passes -/

/-- The first entries, by their numbers. -/
theorem map_read_range (hlen : n ≤ s.fds.length) : (List.range n).map s.read = s.fds.take n := by
  apply List.ext_getElem
  · simp [hlen]
  · intro i h1 h2
    simp only [List.length_map, List.length_range] at h1
    simp [Server.read, List.getElem?_eq_getElem (show i < s.fds.length by omega)]

/-- At the beginning of a pass `cnt` covers every `POLLIN`. -/
theorem passing_poll (hi : Inv s) (hs : step s (.poll mask) = some s') :
    Passing (fun fd => (s'.read fd).revents.pollin) s.curMaxFd s' ∧
      remaining s.curMaxFd s' = 3 * (s.curMaxFd + 1) + 1 := by
  have hi' := inv_step hi hs
  cases step_inv hs with
  | poll hpc =>
    refine ⟨⟨rfl, Nat.zero_le _, rfl, fun _ _ _ => rfl, ?_⟩, rfl⟩
    have hlen : s.curMaxFd + 1 ≤ (s.polled mask).fds.length := hi'.pass
    show (List.range' 0 (s.curMaxFd + 1)).countP _ + 0 ≤ ((s.polled mask).fds.take _).countP _
    rw [← map_read_range hlen, List.countP_map, ← List.range_eq_range', Nat.add_zero]
    apply List.countP_mono_left
    intro fd _ hready
    simp [Flags.any, hready]

/-- A pass that has not ended goes on. -/
theorem Passing.goes_on (h : Passing ready n s) (hpc : s.pc ≠ .top) :
    ∃ a s', a ≠ .test ∧ a.works = true ∧ step s a = some s' := by
  cases hat : s.pc with
  | top => exact absurd hat hpc
  | poll => simp only [Passing, hat] at h
  | left => simp only [Passing, hat] at h
  | scan fd => exact ⟨.scan, s.scan fd, by simp, rfl, by simp [step, hat]⟩
  | newClient => exact ⟨.accept none, s.handled s.serverFd, by simp, rfl, by simp [step, hat]⟩
  | communicate fd =>
    exact ⟨.communicate, if s.isRunning then { s with pc := .recv fd } else (s.drop fd).handled fd,
      by simp, rfl, by simp [step, hat]⟩
  | recv fd =>
    exact ⟨.recv [], (s.communicate fd []).handled fd, by simp, rfl, by simp [step, hat]⟩

/-- **The early exit never skips work**: whatever `poll` has reported, and whatever `accept` and `recv`
    return and `stop()` does during the pass, at its end the entries with `POLLIN` have been dispatched,
    in order and each once; and the pass does end. -/
theorem pass_dispatches {serverFd : Nat} (hr : Reach anyStep step (init serverFd) s)
    (hpoll : step s (.poll mask) = some s') (as : List Action) (hpass : ∀ a ∈ as, a ≠ .test) {t : Server}
    (hrun : exec step s' as = some t) :
    (t.pc = .top → t.dispatched =
      (List.range (s.curMaxFd + 1)).filter fun fd => (s'.read fd).revents.pollin) ∧
    as.countP Action.works ≤ 3 * (s.curMaxFd + 1) + 1 ∧
    (t.pc ≠ .top → ∃ a t', a ≠ .test ∧ a.works = true ∧ step t a = some t') := by
  have hi := reach_inv hr
  obtain ⟨hstart, hremaining⟩ := passing_poll hi hpoll
  obtain ⟨⟨-, hpassing⟩, hcount⟩ := exec_measure
    (I := fun u => Inv u ∧ Passing (fun fd => (s'.read fd).revents.pollin) s.curMaxFd u)
    (fun u a u' hu ha hs => by
      obtain ⟨hnext, hle⟩ := passing_step hu.1 hu.2 ha hs
      exact ⟨⟨inv_step hu.1 hs, hnext⟩, hle⟩)
    as ⟨inv_step hi hpoll, hstart⟩ hpass hrun
  refine ⟨fun htop => ?_, by omega, hpassing.goes_on⟩
  simpa only [Passing, htop, Dispatched] using hpassing

/-- An error for number 0, and `POLLIN` for the others that ask for it. -/
def errorAtZero (fd : Nat) : Flags := if fd = 0 then ⟨false, true, false, false⟩ else .input

/-- The listening socket 3 is dispatched, and gets a client under the number 5. -/
def scanToNewcomer : List Action := [.scan, .scan, .scan, .scan, .accept (some 5), .scan]

/-- The error is counted and not dispatched; a client comes to the listening socket. -/
theorem pass_dispatches_error : ∃ s s' t : Server, Reach anyStep step (init 3) s ∧
    step s (.poll errorAtZero) = some s' ∧ exec step s' scanToNewcomer = some t ∧ s'.cnt = 2 ∧
    t.clientFds = {5} ∧
    t.dispatched = (List.range 4).filter fun fd => (s'.read fd).revents.pollin := by
  have hr : Reach anyStep step (init 3) { init 3 with curMaxFd := 3, pc := .poll } :=
    Reach.refl.tail (a := .test) rfl trivial
  have hpoll : step { init 3 with curMaxFd := 3, pc := .poll } (.poll errorAtZero) =
      some (Server.polled { init 3 with curMaxFd := 3, pc := .poll } errorAtZero) := rfl
  obtain ⟨t, hrun, ht⟩ := (Option.any_eq_true _ _).mp
    (show (exec step (Server.polled { init 3 with curMaxFd := 3, pc := .poll } errorAtZero)
        scanToNewcomer).any (fun t => t.pc == .top && t.clientFds == {5}) = true by decide +kernel)
  simp only [Bool.and_eq_true, beq_iff_eq] at ht
  exact ⟨_, _, t, hr, hpoll, hrun, rfl, ht.2,
    (pass_dispatches hr hpoll _ (by simp [scanToNewcomer]) hrun).1 ht.1⟩

end CppBackend.PollServer
