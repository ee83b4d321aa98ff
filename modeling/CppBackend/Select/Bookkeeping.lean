import CppBackend.Select.Steps

/-!
# The three structures of the select servers agree

As long as the numbers are below `FD_SETSIZE`, `client_fds` has the open connections, `read_fds` these and
`server_fd`, and `max_fd` is the maximum of `read_fds`: both ways of updating it when a client arrives give the value
that is computed anew when one leaves (`Program.Grows`).  A client that comes under the number 1024 is in `client_fds`
and not in `read_fds` (`client_unwatched`).
-/

set_option autoImplicit false

namespace CppBackend.Select

open Library.Descriptors Library.Transition

theorem recompute_eq (serverFd : Nat) (clientFds : Finset Nat) :
    recompute serverFd clientFds = (insert serverFd clientFds).sup id := by
  unfold recompute begin
  split
  · rename_i h
    simp [h]
  · simp

/-- The program finds the new maximum when a client is inserted. -/
def Program.Grows (p : Program) : Prop := ∀ (serverFd : Nat) (clientFds : Finset Nat) (cfd : Nat),
  p.grow serverFd (recompute serverFd clientFds) (insert cfd clientFds) cfd =
    recompute serverFd (insert cfd clientFds)

theorem runSelectLoop_grows : runSelectLoop.Grows := by
  intro serverFd clientFds cfd
  simp [runSelectLoop, recompute]

theorem selectLoop_grows : selectLoop.Grows := by
  intro serverFd clientFds cfd
  simp [selectLoop, recompute_eq]
  omega

/-- The bound of the loop lies between the two values that it is made from. -/
def Program.Bounded (p : Program) : Prop :=
  ∀ maxFd curMaxFd, min maxFd curMaxFd ≤ p.bound maxFd curMaxFd ∧ p.bound maxFd curMaxFd ≤ max maxFd curMaxFd

theorem runSelectLoop_bounded : runSelectLoop.Bounded := fun maxFd curMaxFd => by
  simp [runSelectLoop]

theorem selectLoop_bounded : selectLoop.Bounded := fun maxFd curMaxFd => by
  simp [selectLoop]

/-- What holds between any two steps, until `error` throws. -/
structure Inv (s : Server) : Prop where
  clients : ∀ fd, fd ∈ s.clientFds ↔ (s.table.conn fd).isSome = true
  reads : s.readFds.bits = insert s.serverFd s.clientFds
  maxFd : s.maxFd = recompute s.serverFd s.clientFds
  server : s.serverFd ∉ s.clientFds
  /-- Every number has a bit. -/
  fits : ∀ fd ∈ insert s.serverFd s.clientFds, fd < fdSetSize
  cur : s.curMaxFd < fdSetSize
  current : ∀ fd, s.pc = .recv fd → fd ≠ s.serverFd ∧ fd < fdSetSize
  copied : s.pc = .select → s.tempFds = s.readFds.bits ∧ s.curMaxFd = s.maxFd

variable {p : Program} {s s' : Server}

theorem recompute_mem (serverFd : Nat) (clientFds : Finset Nat) :
    recompute serverFd clientFds ∈ insert serverFd clientFds := by
  rw [recompute_eq]
  have hne : (insert serverFd clientFds).Nonempty := Finset.insert_nonempty _ _
  obtain ⟨m, hm, he⟩ := Finset.exists_mem_eq_sup _ hne id
  rw [he]
  exact hm

theorem le_recompute {serverFd : Nat} {clientFds : Finset Nat} :
    ∀ fd ∈ insert serverFd clientFds, fd ≤ recompute serverFd clientFds := by
  intro fd hfd
  rw [recompute_eq]
  exact Finset.le_sup (f := id) hfd

theorem Inv.maxFd_lt (hi : Inv s) : s.maxFd < fdSetSize := by
  rw [hi.maxFd]
  exact hi.fits _ (recompute_mem _ _)

/-- The loop over the numbers stays where there are bits. -/
theorem Inv.bound (hp : p.Bounded) (hi : Inv s) {fd : Nat} (hin : fd ≤ p.bound s.maxFd s.curMaxFd) :
    fd < fdSetSize :=
  (hin.trans (hp s.maxFd s.curMaxFd).2).trans_lt (max_lt hi.maxFd_lt hi.cur)

theorem inv_acceptClient (hp : p.Grows) (hi : Inv s) {cfd : Nat} (hne : cfd ≠ s.serverFd)
    (hcfd : cfd < fdSetSize) (hpc : s.pc = .scan (s.serverFd + 1)) : Inv (s.acceptClient p cfd) := by
  refine ⟨fun fd => ?_, ?_, ?_, ?_, fun fd hfd => ?_, hi.cur, fun _ h => ?_, fun h => ?_⟩
  · by_cases hfd : fd = cfd
    · simp [Server.acceptClient, hfd]
    · simp [Server.acceptClient, hfd, accept_of_ne, hi.clients]
  · simp only [Server.acceptClient, set_bits hcfd, hi.reads]
    exact Finset.insert_comm _ _ _
  · simp only [Server.acceptClient, hi.maxFd]
    exact hp _ _ _
  · simp [Server.acceptClient, hne.symm, hi.server]
  · simp only [Server.acceptClient, Finset.insert_comm s.serverFd cfd] at hfd
    rcases Finset.mem_insert.mp hfd with rfl | hfd
    · exact hcfd
    · exact hi.fits fd hfd
  · exact (nomatch hpc.symm.trans h)
  · exact (nomatch hpc.symm.trans h)

theorem inv_closeClient (hi : Inv s) {fd : Nat} (hne : fd ≠ s.serverFd)
    (hpc : s.pc = .scan (fd + 1)) : Inv (s.closeClient fd) := by
  refine ⟨fun f => ?_, ?_, rfl, ?_, fun f hf => ?_, hi.cur, fun f h => ?_, fun h => ?_⟩
  · by_cases hf : f = fd
    · simp [Server.closeClient, hf]
    · simp [Server.closeClient, hf, close_of_ne, hi.clients]
  · simp only [Server.closeClient, clr_bits, hi.reads]
    exact Finset.erase_insert_of_ne hne.symm
  · simp [Server.closeClient, hi.server]
  · exact hi.fits f (Finset.insert_subset_insert _ (Finset.erase_subset _ _) hf)
  · exact (nomatch hpc.symm.trans h)
  · exact (nomatch hpc.symm.trans h)

/-- A step that changes neither the structures nor who is open. -/
theorem Inv.same (hi : Inv s)
    (h : { s with isRunning := s'.isRunning
                  tempFds := s'.tempFds
                  curMaxFd := s'.curMaxFd
                  firstNew := s'.firstNew
                  handled := s'.handled
                  replies := s'.replies
                  pc := s'.pc } = s') (hcur : s'.curMaxFd < fdSetSize)
    (hpc : ∀ fd, s'.pc = .recv fd → fd ≠ s.serverFd ∧ fd < fdSetSize)
    (hcopied : s'.pc = .select → s'.tempFds = s.readFds.bits ∧ s'.curMaxFd = s.maxFd) : Inv s' := by
  rw [← h]
  exact ⟨hi.clients, hi.reads, hi.maxFd, hi.server, hi.fits, hcur, hpc, hcopied⟩

/-- The step leads to the loop over the numbers, or out of it. -/
theorem Inv.goes (hi : Inv s)
    (h : { s with tempFds := s'.tempFds
                  firstNew := s'.firstNew
                  handled := s'.handled
                  replies := s'.replies
                  pc := s'.pc } = s')
    (hrecv : ∀ fd, s'.pc ≠ .recv fd) (hselect : s'.pc ≠ .select) : Inv s' := by
  rw [← h]
  exact hi.same rfl hi.cur (fun fd hpc => absurd hpc (hrecv fd)) fun hpc => absurd hpc hselect

/-- Every number has had a bit, and the invariant holds until `error` throws. -/
structure Kept (s : Server) : Prop where
  overrun : s.overrun = false
  inv : s.pc ≠ .thrown → Inv s

/-- The number that `accept` returns has a bit. -/
def Action.hasBit (a : Action) : Prop := ∀ cfd, a = .accept (some cfd) → cfd < fdSetSize

def HasBit (_ : Server) (a : Action) (_ : Server) : Prop := a.hasBit

instance (s : Server) (a : Action) (s' : Server) : Decidable (HasBit s a s') :=
  match a with
  | .accept (some cfd) =>
    decidable_of_iff (cfd < fdSetSize) ⟨fun h _ he => by cases he; exact h, fun h => h cfd rfl⟩
  | .accept none => .isTrue fun _ he => by cases he
  | .stop => .isTrue fun _ he => by cases he
  | .test => .isTrue fun _ he => by cases he
  | .select _ => .isTrue fun _ he => by cases he
  | .selectFails _ => .isTrue fun _ he => by cases he
  | .scan => .isTrue fun _ he => by cases he
  | .scanBehind _ => .isTrue fun _ he => by cases he
  | .spill _ _ => .isTrue fun _ he => by cases he
  | .recv _ => .isTrue fun _ he => by cases he

theorem kept_init {serverFd : Nat} (hserver : serverFd < fdSetSize) : Kept (init serverFd) := by
  refine ⟨beyond_eq_false.mpr hserver, fun _ => ⟨fun _ => ⟨fun h => (nomatch h), fun h => (nomatch h)⟩, ?_, rfl,
    fun h => (nomatch h), fun fd hfd => ?_, Nat.zero_lt_succ _, fun _ h => (nomatch h), fun h => (nomatch h)⟩⟩
  · exact set_bits hserver
  · rw [List.mem_singleton.mp (Multiset.mem_coe.mp hfd)]
    exact hserver

/-- `select` fails: the loop goes on, ends, or throws. -/
def Program.Fails (p : Program) : Prop := ∀ (eintr : Bool) (s : Server),
  ((p.fails eintr s).pc = .thrown ∧ (p.fails eintr s).overrun = s.overrun) ∨
    ∃ pc, (pc = .top ∨ pc = .left) ∧ p.fails eintr s = { s with pc := pc }

theorem runSelectLoop_fails : runSelectLoop.Fails := fun _ _ => Or.inl ⟨rfl, rfl⟩

theorem selectLoop_fails : selectLoop.Fails := by
  intro eintr s
  cases eintr with
  | true => exact Or.inr ⟨.top, Or.inl rfl, rfl⟩
  | false => exact Or.inr ⟨.left, Or.inr rfl, rfl⟩

/-- What the proofs use of a program. -/
structure Program.Sound (p : Program) : Prop where
  grows : p.Grows
  bounded : p.Bounded
  fails : p.Fails

theorem runSelectLoop_sound : runSelectLoop.Sound :=
  ⟨runSelectLoop_grows, runSelectLoop_bounded, runSelectLoop_fails⟩

theorem selectLoop_sound : selectLoop.Sound :=
  ⟨selectLoop_grows, selectLoop_bounded, selectLoop_fails⟩

theorem kept_step {a : Action} (hp : p.Sound) (hk : Kept s) (hbit : HasBit s a s')
    (h : step p s a = some s') : Kept s' := by
  have hat : ∀ {pc : Pc}, s.pc = pc → pc ≠ .thrown → Inv s := fun hpc hne => hk.inv (hpc ▸ hne)
  cases step_inv h with
  | stop => exact ⟨hk.overrun, fun ht => (hk.inv ht).same rfl (hk.inv ht).cur (hk.inv ht).current (hk.inv ht).copied⟩
  | leave hpc => exact ⟨hk.overrun, fun _ => (hat hpc (by simp)).goes rfl (by simp) (by simp)⟩
  | goOn hpc =>
    have hi := hat hpc (by simp)
    exact ⟨hk.overrun, fun _ => hi.same rfl hi.maxFd_lt (fun _ h => (nomatch h)) fun _ => ⟨rfl, rfl⟩⟩
  | select hpc hsub hlt => exact ⟨hk.overrun, fun _ => (hat hpc (by simp)).goes rfl (by simp) (by simp)⟩
  | @selectFails eintr hpc =>
    rcases hp.fails eintr s with ⟨ht, hover⟩ | ⟨pc, hpc', he⟩
    · exact ⟨hover.trans hk.overrun, fun hne => absurd ht hne⟩
    · rw [he]
      refine ⟨hk.overrun, fun _ => (hat hpc (by simp)).goes rfl (fun fd => ?_) ?_⟩
      · rcases hpc' with rfl | rfl <;> simp
      · rcases hpc' with rfl | rfl <;> simp
  | passEnds hpc hend => exact ⟨hk.overrun, fun _ => (hat hpc (by simp)).goes rfl (by simp) (by simp)⟩
  | skip hpc hin hnot => exact ⟨hk.overrun, fun _ => (hat hpc (by simp)).goes rfl (by simp) (by simp)⟩
  | server hpc hin hready hfd => exact ⟨hk.overrun, fun _ => (hat hpc (by simp)).goes rfl (by simp) (by simp)⟩
  | client hpc hin hready hfd =>
    have hi := hat hpc (by simp)
    refine ⟨hk.overrun, fun _ => hi.same rfl hi.cur (fun f h => ?_) fun h => (nomatch h)⟩
    cases h
    exact ⟨hfd, hi.bound hp.bounded hin⟩
  | scanBehind hpc hin hbeyond =>
    exact absurd ((hat hpc (by simp)).bound hp.bounded hin) (Nat.not_lt.mpr hbeyond)
  | spill hover => simp [hk.overrun] at hover
  | acceptFails hpc =>
    exact ⟨hk.overrun, fun _ => (hat hpc (by simp)).goes rfl (by simp [Server.done]) (by simp [Server.done])⟩
  | @accept cfd hpc hne hfree =>
    have hi := hat hpc (by simp)
    have hnext : Inv (s.done s.serverFd none) :=
      hi.goes rfl (by simp [Server.done]) (by simp [Server.done])
    have hcfd := hbit cfd rfl
    refine ⟨?_, fun _ => inv_acceptClient hp.grows hnext hne hcfd rfl⟩
    simp [Server.acceptClient, Server.done, hk.overrun, hcfd]
  | received hpc hne =>
    exact ⟨hk.overrun, fun _ => (hat hpc (by simp)).goes rfl (by simp [Server.done]) (by simp [Server.done])⟩
  | @hungUp fd hpc =>
    have hi := hat hpc (by simp)
    have hnext : Inv (s.done fd (s.table.conn fd)) :=
      hi.goes rfl (by simp [Server.done]) (by simp [Server.done])
    obtain ⟨hne, hlt⟩ := hi.current fd hpc
    refine ⟨?_, fun _ => inv_closeClient hnext hne rfl⟩
    simp [Server.closeClient, Server.done, hk.overrun, hlt]

/-- What `select` is called with is what there is. -/
structure Exact (s : Server) : Prop where
  /-- `client_fds` are the accepted and not yet closed connections, -/
  clients : ∀ fd, fd ∈ s.clientFds ↔ (s.table.conn fd).isSome = true
  /-- `read_fds`, and the copy for `select`, have these and `server_fd`, -/
  reads : s.readFds.bits = insert s.serverFd s.clientFds
  temp : s.tempFds = s.readFds.bits
  /-- and `max_fd`, with the copy for `select`, is the greatest of them. -/
  mem : s.maxFd ∈ insert s.serverFd s.clientFds
  max : ∀ fd ∈ insert s.serverFd s.clientFds, fd ≤ s.maxFd
  cur : s.curMaxFd = s.maxFd

theorem exact_of_kept (hk : Kept s) (hpc : s.pc = .select) : Exact s := by
  have hi := hk.inv (by simp [hpc])
  obtain ⟨htemp, hcur⟩ := hi.copied hpc
  refine ⟨hi.clients, hi.reads, htemp, ?_, ?_, hcur⟩
  · rw [hi.maxFd]
    exact recompute_mem _ _
  · rw [hi.maxFd]
    exact le_recompute

theorem reach_kept {serverFd : Nat} {ok : Server → Action → Server → Prop} (hp : p.Sound)
    (hserver : serverFd < fdSetSize) (hok : ∀ s a s', ok s a s' → HasBit s a s')
    (hr : Reach ok (step p) (init serverFd) s) : Kept s :=
  hr.invariant (kept_init hserver) fun s a s' hk h ha => kept_step hp hk (hok s a s' ha) h

/-- **Select server bookkeeping**: in every run of either program in which all numbers are below `FD_SETSIZE`, the
three structures are exact before every call of `select`, in any order of clients coming and going. -/
theorem select_exact (serverFd : Nat) (hserver : serverFd < fdSetSize) :
    (∀ s, Reach HasBit (step runSelectLoop) (init serverFd) s → s.pc = .select → Exact s) ∧
    ∀ s, Reach HasBit (step selectLoop) (init serverFd) s → s.pc = .select → Exact s :=
  ⟨fun _ hr hpc => exact_of_kept (reach_kept runSelectLoop_sound hserver (fun _ _ _ h => h) hr) hpc,
    fun _ hr hpc => exact_of_kept (reach_kept selectLoop_sound hserver (fun _ _ _ h => h) hr) hpc⟩

/-- Clients come under the numbers 5 and 4, and the one under 5 leaves; the first pass looks at `k` more
numbers after the accept. -/
def shrinks (k : Nat) : List Action := List.flatten
  [[.test, .select {3}], List.replicate 4 .scan, [.accept (some 5)], List.replicate k .scan,
    [.test, .select {3}], List.replicate 4 .scan, [.accept (some 4)], List.replicate 3 .scan,
    [.test, .select {5}], List.replicate 6 .scan, [.recv [], .scan, .test]]

theorem select_exact_shrinks :
    (∃ s, exec (guarded HasBit (step runSelectLoop)) (init 3) (shrinks 3) = some s ∧ s.maxFd = 4 ∧ Exact s) ∧
    ∃ s, exec (guarded HasBit (step selectLoop)) (init 3) (shrinks 1) = some s ∧ s.maxFd = 4 ∧ Exact s := by
  constructor
  · obtain ⟨s, hrun, hs⟩ := (Option.any_eq_true _ _).mp
      (show (exec (guarded HasBit (step runSelectLoop)) (init 3) (shrinks 3)).any
        (fun s => s.maxFd == 4 && s.pc == .select) = true by decide +kernel)
    simp only [Bool.and_eq_true, beq_iff_eq] at hs
    exact ⟨s, hrun, hs.1, (select_exact 3 (by decide)).1 s (exec_guarded_reach _ hrun) hs.2⟩
  · obtain ⟨s, hrun, hs⟩ := (Option.any_eq_true _ _).mp
      (show (exec (guarded HasBit (step selectLoop)) (init 3) (shrinks 1)).any
        (fun s => s.maxFd == 4 && s.pc == .select) = true by decide +kernel)
    simp only [Bool.and_eq_true, beq_iff_eq] at hs
    exact ⟨s, hrun, hs.1, (select_exact 3 (by decide)).2 s (exec_guarded_reach _ hrun) hs.2⟩

/-- A client of `selectthread_tp.cpp` comes under the number 1024, and `select` is called again. -/
def comes1024 : List Action :=
  [.test, .select {3}] ++ List.replicate 4 .scan ++ [.accept (some 1024), .scan, .test]

/-- `select` is called for the client, and it is in `client_fds`, but there is no bit for it in `read_fds`. -/
theorem client_unwatched : ∃ s, exec (step selectLoop) (init 3) comes1024 = some s ∧ s.pc = .select ∧
    s.clientFds = {1024} ∧ s.readFds.bits = {3} ∧ s.curMaxFd = 1024 ∧ ¬ Exact s := by
  obtain ⟨s, hrun, hs⟩ := (Option.any_eq_true _ _).mp
    (show (exec (step selectLoop) (init 3) comes1024).any (fun s => s.pc == .select && s.clientFds == {1024} &&
      s.readFds.bits == {3} && s.curMaxFd == 1024) = true by decide +kernel)
  simp only [Bool.and_eq_true, beq_iff_eq] at hs
  obtain ⟨⟨⟨hpc, hclients⟩, hreads⟩, hcur⟩ := hs
  refine ⟨s, hrun, hpc, hclients, hreads, hcur, fun he => ?_⟩
  have hmem : 1024 ∈ s.readFds.bits := by
    rw [he.reads, hclients]
    simp
  rw [hreads] at hmem
  simp at hmem

end CppBackend.Select
