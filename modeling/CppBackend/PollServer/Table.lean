import CppBackend.PollServer.Steps

/-!
# The poll table covers every client

The vector never shrinks, so the older bound of a pass stays inside it; the entry of an open client and
of the server are set, the entry of a closed client is cleared, and every other entry is as `resize` made
it, which asks for nothing.  So `POLLIN` is only found in the entry of an open client or of the server.
-/

set_option autoImplicit false

namespace CppBackend.PollServer

open Library.Descriptors Library.Poll Library.Transition

/-- The entry of the number `f`. -/
structure EntryInv (s : Server) (f : Nat) (e : Pollfd) : Prop where
  sound : e.Sound
  owned : f ∈ s.clientFds ∨ f = s.serverFd → e.fd = f ∧ e.events = .input
  ended : f ∈ s.ever → f ∉ s.clientFds → e.fd = -1 ∧ e.events = .none
  /-- A number that nobody has had. -/
  unset : f ∉ s.ever → f ≠ s.serverFd → e.fd = 0 ∧ e.events = .none

structure Inv (s : Server) : Prop where
  inside : s.outOfRange = false
  size : s.maxFd < s.fds.length
  pass : s.curMaxFd < s.fds.length
  entry : ∀ f e, s.fds[f]? = some e → EntryInv s f e
  clients : ∀ f, f ∈ s.clientFds ↔ (s.table.conn f).isSome = true
  covered : ∀ f, f ∈ s.clientFds ∨ f = s.serverFd → f ≤ s.maxFd
  past : s.clientFds ⊆ s.ever
  placed : ∀ f ∈ s.ever, f < s.fds.length
  other : s.serverFd ∉ s.ever
  current : ∀ f, s.pc = .communicate f ∨ s.pc = .recv f → f ∈ s.clientFds

variable {s s' : Server} {f fd : Nat} {e : Pollfd}

theorem resize_get {fds : List Pollfd} {n : Nat} (h : (resize fds n)[f]? = some e) :
    fds[f]? = some e ∨ fds[f]? = none ∧ e = fresh := by
  unfold resize at h
  by_cases hf : f < fds.length
  · rw [List.getElem?_append_left hf] at h
    exact Or.inl h
  · rw [List.getElem?_append_right (by omega), List.getElem?_replicate] at h
    simp only [Option.ite_none_right_eq_some, Option.some.injEq] at h
    exact Or.inr ⟨List.getElem?_eq_none (by omega), h.2.symm⟩

theorem le_resize_length (fds : List Pollfd) (n : Nat) : n ≤ (resize fds n).length := by
  simp [resize]
  omega

theorem length_le_resize (fds : List Pollfd) (n : Nat) : fds.length ≤ (resize fds n).length := by
  simp [resize]

/-- The entry means the same as long as nothing happens to its number. -/
theorem EntryInv.keep (he : EntryInv s f e) (hserver : s'.serverFd = s.serverFd)
    (hclient : f ∈ s'.clientFds ↔ f ∈ s.clientFds) (hever : f ∈ s'.ever ↔ f ∈ s.ever) :
    EntryInv s' f e := by
  refine ⟨he.sound, ?_, ?_, ?_⟩
  · rw [hclient, hserver]
    exact he.owned
  · rw [hclient, hever]
    exact he.ended
  · rw [hever, hserver]
    exact he.unset

theorem Inv.server_not_client (hi : Inv s) : s.serverFd ∉ s.clientFds := fun h =>
  hi.other (hi.past h)

/-- A step that changes neither the table nor who is open. -/
theorem Inv.same (hi : Inv s)
    (h : { s with cnt := s'.cnt
                  isRunning := s'.isRunning
                  dispatched := s'.dispatched
                  replies := s'.replies
                  pc := s'.pc } = s')
    (hpc : ∀ f, s'.pc = .communicate f ∨ s'.pc = .recv f → f ∈ s.clientFds) : Inv s' := by
  rw [← h]
  exact ⟨hi.inside, hi.size, hi.pass, fun f e he => (hi.entry f e he).keep rfl Iff.rfl Iff.rfl,
    hi.clients, hi.covered, hi.past, hi.placed, hi.other, hpc⟩

/-- An entry behind the old end of the vector belongs to a number that nobody has had. -/
theorem Inv.entry_fresh (hi : Inv s) (hf : s.fds.length ≤ f) : EntryInv s f fresh := by
  have hsize := hi.size
  have hever : f ∉ s.ever := fun h => by
    have := hi.placed f h
    omega
  refine ⟨Pollfd.sound_set 0 .none, ?_, fun h => absurd h hever, fun _ _ => ⟨rfl, rfl⟩⟩
  intro h
  have := hi.covered f h
  omega

/-- The entries of the vector when it has been made long enough for `fd`. -/
theorem Inv.entry_grown (hi : Inv s) {fds : List Pollfd}
    (hfds : fds = if s.fds.length ≤ fd then resize s.fds (fd + 1) else s.fds)
    (h : fds[f]? = some e) : EntryInv s f e := by
  subst hfds
  split at h
  · rcases resize_get h with h | ⟨hnone, rfl⟩
    · exact hi.entry f e h
    · exact hi.entry_fresh (List.getElem?_eq_none_iff.mp hnone)
  · exact hi.entry f e h

theorem grown_length (fds : List Pollfd) (fd : Nat) :
    fd < (if fds.length ≤ fd then resize fds (fd + 1) else fds).length ∧
      fds.length ≤ (if fds.length ≤ fd then resize fds (fd + 1) else fds).length := by
  split
  · have h₁ := le_resize_length fds (fd + 1)
    have h₂ := length_le_resize fds (fd + 1)
    omega
  · omega

theorem inv_newClient (hi : Inv s) (hpc : s.pc = .newClient) (hne : fd ≠ s.serverFd)
    (hfree : s.table.conn fd = none) : Inv (s.newClient fd) := by
  have hclient : fd ∉ s.clientFds := by simp [hi.clients, hfree]
  obtain ⟨hroom, hmore⟩ := grown_length s.fds fd
  have hsize := hi.size
  have hpass := hi.pass
  generalize hg : (if s.fds.length ≤ fd then resize s.fds (fd + 1) else s.fds) = grown at hroom hmore
  have hfds : (s.newClient fd).fds = grown.set fd (watching fd) := by
    simp [Server.newClient, Server.write, hg]
  refine ⟨?_, ?_, ?_, fun f e he => ?_, fun f => ?_, fun f hf => ?_, ?_, fun f hf => ?_, ?_,
    fun f hf => ?_⟩
  · simp only [Server.newClient, Server.write, hg, hi.inside]
    simpa using hroom
  · rw [hfds, List.length_set]
    show max s.serverFd (begin (insert fd s.clientFds)) < grown.length
    have hserver := hi.covered s.serverFd (Or.inr rfl)
    refine max_lt (by omega) ((Finset.sup_lt_iff (Nat.zero_lt_of_lt hroom)).mpr fun f hf => ?_)
    rcases Finset.mem_insert.mp hf with rfl | hf
    · exact hroom
    · have := hi.covered f (Or.inl hf)
      show f < grown.length
      omega
  · rw [hfds, List.length_set]
    show s.curMaxFd < grown.length
    omega
  · rw [hfds, List.getElem?_set] at he
    split at he
    · rename_i hf
      subst hf
      simp only [Option.some.injEq] at he
      subst he
      refine ⟨Pollfd.sound_set fd .input, fun _ => ⟨rfl, rfl⟩, fun _ h => ?_, fun h => ?_⟩
      · exact absurd (Finset.mem_insert_self fd s.clientFds) h
      · exact absurd (Finset.mem_insert_self fd s.ever) h
    · rename_i hf
      refine (hi.entry_grown hg.symm he).keep rfl ?_ ?_
      · simp [Server.newClient, Server.write, Ne.symm hf]
      · simp [Server.newClient, Server.write, Ne.symm hf]
  · by_cases hf : f = fd
    · simp [Server.newClient, Server.write, hf]
    · simp [Server.newClient, Server.write, hf, accept_of_ne, hi.clients]
  · show f ≤ max s.serverFd (begin (insert fd s.clientFds))
    rcases hf with hf | rfl
    · exact le_max_of_le_right (Finset.le_sup (f := id) hf)
    · exact le_max_left _ _
  · exact Finset.insert_subset_insert fd hi.past
  · rw [hfds, List.length_set]
    rcases Finset.mem_insert.mp hf with rfl | hf
    · exact hroom
    · have := hi.placed f hf
      omega
  · simp [Server.newClient, Server.write, hi.other, hne.symm]
  · have hpc' : (s.newClient fd).pc = .newClient := hpc
    simp [hpc'] at hf

/-- An open number is given up, and its entry cleared. -/
theorem inv_drop (hi : Inv s) (hf : fd ∈ s.clientFds) : Inv { s.drop fd with pc := .scan (fd + 1) } := by
  have hsize := hi.size
  have hpass := hi.pass
  have hcov := hi.covered fd (Or.inl hf)
  have hne : fd ≠ s.serverFd := fun h => hi.server_not_client (h ▸ hf)
  refine ⟨?_, ?_, ?_, fun f e he => ?_, fun f => ?_, fun f hf' => ?_, ?_, fun f hf' => ?_, hi.other,
    fun f hf' => by simp at hf'⟩
  · simp only [Server.drop, Server.write, hi.inside, Bool.false_or, decide_eq_false_iff_not]
    omega
  · simpa [Server.drop, Server.write] using hsize
  · simpa [Server.drop, Server.write] using hpass
  · simp only [Server.drop, Server.write, List.getElem?_set] at he
    split at he
    · rename_i h
      subst h
      split at he
      · simp only [Option.some.injEq] at he
        subst he
        refine ⟨⟨fun h => (nomatch h), fun _ => rfl⟩, fun h => ?_, fun _ _ => ⟨rfl, rfl⟩, fun h => ?_⟩
        · simp [Server.drop, Server.write, hne] at h
        · exact absurd (hi.past hf) h
      · cases he
    · rename_i h
      refine (hi.entry f e he).keep rfl ?_ Iff.rfl
      simp [Server.drop, Server.write, Ne.symm h]
  · by_cases h : f = fd
    · simp [Server.drop, Server.write, h]
    · simp [Server.drop, Server.write, h, close_of_ne, hi.clients]
  · refine hi.covered f (hf'.imp_left fun h => ?_)
    exact Finset.mem_of_mem_erase h
  · exact (Finset.erase_subset _ _).trans hi.past
  · simpa [Server.drop, Server.write] using hi.placed f hf'

/-- `max_fd` may shrink to the greatest number that is left. -/
theorem inv_shrink (hi : Inv s) : Inv { s with
    maxFd := if s.clientFds = ∅ then s.serverFd else max s.serverFd (begin s.clientFds) } := by
  have hsize := hi.size
  have hserver := hi.covered s.serverFd (Or.inr rfl)
  refine ⟨hi.inside, ?_, hi.pass, fun f e he => (hi.entry f e he).keep rfl Iff.rfl Iff.rfl, hi.clients,
    fun f hf => ?_, hi.past, hi.placed, hi.other, hi.current⟩
  · show (if s.clientFds = ∅ then s.serverFd else max s.serverFd (begin s.clientFds)) < s.fds.length
    split
    · omega
    · refine max_lt (by omega) ((Finset.sup_lt_iff (by show 0 < _; omega)).mpr fun f hf => ?_)
      have := hi.covered f (Or.inl hf)
      show f < s.fds.length
      omega
  · show f ≤ if s.clientFds = ∅ then s.serverFd else max s.serverFd (begin s.clientFds)
    split
    · rename_i hempty
      simp_all
    · rcases hf with hf | rfl
      · exact le_max_of_le_right (Finset.le_sup (f := id) hf)
      · exact le_max_left _ _

theorem inv_communicate (hi : Inv s) (hf : fd ∈ s.clientFds) (chunk : List UInt8) :
    Inv ((s.communicate fd chunk).handled fd) := by
  unfold Server.communicate
  split
  · exact (inv_shrink (inv_drop hi hf)).same rfl fun f h => by simp [Server.handled] at h
  · exact hi.same rfl fun f h => by simp [Server.handled] at h

/-- The entries of the pass are inside of the vector. -/
theorem Inv.looked_eq (hi : Inv s) (hin : fd ≤ s.curMaxFd) (pc : Pc) :
    s.looked fd pc = { s with pc := pc } := by
  have hpass := hi.pass
  have hinside : (s.outOfRange || decide (s.fds.length ≤ fd)) = s.outOfRange := by
    simp [hi.inside]
    omega
  unfold Server.looked
  rw [hinside]

/-- Behind the end of the vector there is nothing to read. -/
theorem Inv.read_entry (hi : Inv s) (fd : Nat) : s.read fd = fresh ∨ EntryInv s fd (s.read fd) := by
  unfold Server.read
  rw [List.getD_eq_getElem?_getD]
  cases hget : s.fds[fd]? with
  | none => exact Or.inl rfl
  | some e => exact Or.inr (hi.entry fd e hget)

/-- `POLLIN` is found for a client or the server only. -/
theorem Inv.ready_owned (hi : Inv s) (hready : (s.read fd).revents.pollin = true) :
    fd ∈ s.clientFds ∨ fd = s.serverFd := by
  rcases hi.read_entry fd with hfresh | hentry
  · rw [hfresh] at hready
    cases hready
  · have hasked := hentry.sound.asked hready
    by_contra howned
    rw [not_or] at howned
    by_cases hever : fd ∈ s.ever
    · simp [(hentry.ended hever howned.1).2, Flags.none] at hasked
    · simp [(hentry.unset hever howned.2).2, Flags.none] at hasked

/-- An entry without a number has no report. -/
theorem Inv.not_ready (hi : Inv s)
    (hnot : (s.read fd).fd = -1 ∨ (s.read fd).revents.pollin = false) :
    (s.read fd).revents.pollin = false := by
  rcases hnot with hclosed | hno
  · rcases hi.read_entry fd with hfresh | hentry
    · rw [hfresh]
      rfl
    · rw [hentry.sound.absent (by omega)]
      rfl
  · exact hno

theorem inv_poll (hi : Inv s) (mask : Nat → Flags) {cnt : Nat} {dispatched : List Nat}
    (hcur : s.curMaxFd < s.fds.length) : Inv { s with
      fds := report (s.curMaxFd + 1) mask s.fds
      cnt := cnt
      outOfRange := s.outOfRange || decide (s.fds.length < s.curMaxFd + 1)
      dispatched := dispatched
      pc := .scan 0 } := by
  refine ⟨?_, ?_, ?_, fun f e he => ?_, hi.clients, hi.covered, hi.past, fun f hf => ?_, hi.other,
    fun f h => by simp at h⟩
  · simp [hi.inside]
    omega
  · simpa using hi.size
  · simpa using hi.pass
  · obtain ⟨e₀, he₀, hfd, hevents, hsound⟩ := get_report he
    have hold := hi.entry f e₀ he₀
    exact ⟨hsound hold.sound, hfd ▸ hevents ▸ hold.owned, hfd ▸ hevents ▸ hold.ended,
      hfd ▸ hevents ▸ hold.unset⟩
  · simpa using hi.placed f hf

theorem inv_init (serverFd : Nat) : Inv (init serverFd) := by
  have hlen : (init serverFd).fds.length = serverFd + 1 := by simp [init, Server.write, resize]
  refine ⟨?_, ?_, ?_, fun f e he => ?_, fun f => ?_, fun f hf => ?_, ?_, fun f hf => (nomatch hf), ?_,
    fun f h => by simp [init, Server.write] at h⟩
  · simp [init, Server.write, resize]
  · rw [hlen]
    exact Nat.lt_succ_self serverFd
  · rw [hlen]
    exact Nat.succ_pos serverFd
  · simp only [init, Server.write, List.getElem?_set] at he
    split at he
    · rename_i h
      subst h
      split at he
      · simp only [Option.some.injEq] at he
        subst he
        exact ⟨Pollfd.sound_set serverFd .input, fun _ => ⟨rfl, rfl⟩, fun h => (nomatch h),
          fun _ h => absurd rfl h⟩
      · cases he
    · rename_i h
      rcases resize_get he with he | ⟨_, rfl⟩
      · simp at he
      · refine ⟨Pollfd.sound_set 0 .none, fun hf => ?_, fun h => (nomatch h), fun _ _ => ⟨rfl, rfl⟩⟩
        rcases hf with hf | hf
        · exact (nomatch hf)
        · exact absurd hf.symm h
  · exact ⟨fun h => (nomatch h), fun h => (nomatch h)⟩
  · rcases hf with hf | hf
    · exact (nomatch hf)
    · exact Nat.le_of_eq hf
  · exact fun _ h => (nomatch h)
  · exact fun h => (nomatch h)

theorem inv_step {a : Action} (hi : Inv s) (h : step s a = some s') : Inv s' := by
  cases step_inv h with
  | stop => exact hi.same rfl hi.current
  | goOn hpc =>
    exact ⟨hi.inside, hi.size, hi.size, fun f e he => (hi.entry f e he).keep rfl Iff.rfl Iff.rfl,
      hi.clients, hi.covered, hi.past, hi.placed, hi.other, fun f h => by simp at h⟩
  | leave hpc => exact hi.same rfl fun f h => by simp at h
  | poll hpc => exact inv_poll hi _ hi.pass
  | pollFails hpc =>
    refine hi.same rfl fun f h => ?_
    split at h <;> simp at h
  | passEnds hpc hend => exact hi.same rfl fun f h => by simp at h
  | skip hpc hin hcnt hnot =>
    rw [hi.looked_eq hin]
    exact hi.same rfl fun f h => by simp at h
  | @dispatch fd hpc hin hcnt hready =>
    rw [hi.looked_eq hin]
    refine hi.same rfl fun f h => ?_
    split at h
    · simp at h
    · rename_i hne
      have hf : f = fd := by simpa [eq_comm] using h
      exact hf ▸ (hi.ready_owned hready).resolve_right hne
  | acceptFails hpc => exact hi.same rfl fun f h => by simp [Server.handled] at h
  | accept hpc hne hfree =>
    exact (inv_newClient hi hpc hne hfree).same rfl fun f h => by simp [Server.handled] at h
  | @communicate fd hpc =>
    refine hi.same rfl fun f h => ?_
    have hf : f = fd := by simpa [eq_comm] using h
    exact hf ▸ hi.current fd (Or.inl hpc)
  | @shutDown fd hpc =>
    exact (inv_drop hi (hi.current fd (Or.inl hpc))).same rfl fun f h => by simp [Server.handled] at h
  | @recv fd chunk hpc => exact inv_communicate hi (hi.current fd (Or.inr hpc)) chunk

theorem reach_inv {serverFd : Nat} (hr : Reach anyStep step (init serverFd) s) : Inv s :=
  hr.invariant (inv_init serverFd) fun _ _ _ hi h _ => inv_step hi h

/-- The table is right for the clients that there are, and has never been left. -/
structure Covers (s : Server) : Prop where
  size : s.maxFd < s.fds.length
  /-- `client_fds` are the accepted and not yet closed connections. -/
  clients : ∀ f, f ∈ s.clientFds ↔ (s.table.conn f).isSome = true
  entries : ∀ f, f ∈ s.clientFds ∨ f = s.serverFd → f ≤ s.maxFd ∧
    ∃ e, s.fds[f]? = some e ∧ e.fd = f ∧ e.events = .input
  /-- The number of a closed client has no entry until it is accepted again. -/
  cleared : ∀ f ∈ s.ever, f ∉ s.clientFds → ∃ e, s.fds[f]? = some e ∧ e.fd = -1
  inside : s.outOfRange = false

theorem Inv.get (hi : Inv s) (h : f < s.fds.length) : ∃ e, s.fds[f]? = some e ∧ EntryInv s f e :=
  ⟨s.fds[f], List.getElem?_eq_getElem h, hi.entry f _ (List.getElem?_eq_getElem h)⟩

/-- **The poll table covers every client and is never indexed out of range**, in any run, whatever
`poll`, `accept` and `recv` return, and whenever `stop()` is called. -/
theorem poll_table_covers {serverFd : Nat} (hr : Reach anyStep step (init serverFd) s) : Covers s := by
  have hi := reach_inv hr
  have hsize := hi.size
  refine ⟨hi.size, hi.clients, fun f hf => ?_, fun f hf hclosed => ?_, hi.inside⟩
  · have hle := hi.covered f hf
    obtain ⟨e, he, hentry⟩ := hi.get (show f < s.fds.length by omega)
    exact ⟨hle, e, he, hentry.owned hf⟩
  · obtain ⟨e, he, hentry⟩ := hi.get (hi.placed f hf)
    exact ⟨e, he, (hentry.ended hf hclosed).1⟩

/-- Client 5 comes; then `stop()` is called in the middle of a pass, which gives up client 5 without
updating `max_fd`. -/
def stopped : List Action := List.flatten
  [[.test, .poll fun _ => .input], List.replicate 4 .scan, [.accept (some 5), .scan, .test],
    [.poll fun _ => .input], List.replicate 4 .scan,
    [.accept (some 8), .stop, .scan, .scan, .communicate]]

theorem poll_table_covers_stopped : ∃ s : Server, Reach anyStep step (init 3) s ∧ s.maxFd = 8 ∧
    s.fds[5]? = some closed ∧ s.fds[8]? = some (watching 8) ∧ Covers s := by
  obtain ⟨s, hr, hs⟩ := exec_reach_any stopped
    (fun s => s.maxFd == 8 && s.fds[5]? == some closed && s.fds[8]? == some (watching 8))
    (show (exec step (init 3) _).any _ = true by decide +kernel)
  simp only [Bool.and_eq_true, beq_iff_eq] at hs
  exact ⟨s, hr, hs.1.1, hs.1.2, hs.2, poll_table_covers hr⟩

end CppBackend.PollServer
