import CppBackend.PollThreadTp.Steps

/-!
# The entries and the clients agree

The entry that is handled may be taken out once, twice, or not at all; the copy that is walked over has
every number once, and each of its remaining numbers stays open, since a step of the pass closes only the
number in hand.  So the linear search finds the entry of the number in hand or none, and the other entries
stay as they are.
-/

set_option autoImplicit false

namespace CppBackend.PollThreadTp

open Library.Descriptors Library.Calls Library.Poll Library.Transition

/-- Control is in `poll_loop`. -/
def Pc.inLoop : Pc → Bool
  | .top | .poll | .next | .newClient _ | .communicate _ | .errors _ | .left => true
  | .socket | .setup | .thrown | .closeClients _ | .ended => false

/-- The entry that is being handled. -/
def Pc.hand : Pc → Option Copied
  | .newClient e | .communicate e | .errors e => some e
  | .socket | .setup | .top | .poll | .next | .left | .thrown | .closeClients _ | .ended => none

/-- The numbers in `fds`. -/
def numbers (fds : List Entry) : List Nat := fds.map Entry.fd

/-- The clients that the server has still to close. -/
def Server.alive (s : Server) : Finset Nat :=
  match s.pc with
  | .closeClients rest => rest
  | _ => s.clientFds

theorem numbers_erase (fds : List Entry) (fd : Nat) :
    numbers (erase fds fd) = (numbers fds).erase fd := by
  have h : erase fds fd = fds.eraseP fun e => e.fd == fd := by
    rw [List.eraseP_eq_eraseIdx]
    rfl
  rw [h]
  unfold numbers
  rw [List.erase_eq_eraseP', List.eraseP_map]
  rfl

/-- Between the entries, the clients and the rest of the copy. -/
structure Loop (s : Server) : Prop where
  nodup : (numbers s.fds).Nodup
  members : ∀ f, f ∈ numbers s.fds ↔ f ∈ s.clientFds ∨ s.process.table.conn f = some 0
  distinct : (s.copy.map fun e => e.fd).Nodup
  pending : ∀ e ∈ s.copy, s.process.table.conn e.fd = some e.conn
  fresh : ∀ e, s.pc.hand = some e → e.fd ∉ s.copy.map fun e => e.fd
  /-- The entry in hand is about an open connection, until that has been closed. -/
  current : ∀ e, s.pc.hand = some e → s.process.table.conn e.fd = some e.conn ∨
    s.pc = .errors e ∧ s.process.table.conn e.fd = none
  listens : ∀ e, s.pc = .newClient e → some e.fd = s.serverFd
  talks : ∀ e, s.pc = .communicate e → some e.fd ≠ s.serverFd
  /-- The listening socket has been opened. -/
  opened : 0 < s.process.table.next

structure Inv (s : Server) : Prop where
  owned : ∀ f c, s.process.table.conn f = some c → s.owner f = c
  listener : ∀ f, s.process.table.conn f = some 0 → s.serverFd = some f
  clients : ∀ f, f ∈ s.alive ↔ ∃ c, c ≠ 0 ∧ s.process.table.conn f = some c
  server : ∀ f, s.serverFd = some f → f ∉ s.alive
  blank : s.pc = .socket → s.process.table.next = 0 ∧ s.fds = [] ∧ s.copy = [] ∧ s.serverFd = none
  setup : s.pc = .setup → (∃ f, s.serverFd = some f ∧ s.process.table.conn f = some 0) ∧ s.fds = [] ∧
    s.copy = [] ∧ s.process.table.next = 1
  loop : s.pc.inLoop = true → Loop s
  finished : s.pc = .ended → s.serverFd = none ∧ ∀ f, s.process.table.conn f = none

variable {s s' : Server} {e : Copied}

theorem alive_of_inLoop (h : s.pc.inLoop = true) : s.alive = s.clientFds := by
  unfold Server.alive
  split
  · rename_i hpc
    simp [hpc, Pc.inLoop] at h
  · rfl

/-- A step that changes nothing but the log. -/
theorem Inv.logged (hi : Inv s) {p : Process} (hp : p.table = s.process.table) {running : Bool} :
    Inv { s with process := p, isRunning := running } := by
  obtain ⟨t, ops⟩ := p
  obtain rfl : t = s.process.table := hp
  refine ⟨hi.owned, hi.listener, hi.clients, hi.server, hi.blank, hi.setup, fun hin => ?_, hi.finished⟩
  have hl := hi.loop hin
  exact ⟨hl.nodup, hl.members, hl.distinct, hl.pending, hl.fresh, hl.current, hl.listens, hl.talks,
    hl.opened⟩

/-- A step inside of the loop that changes neither the entries nor who is open. -/
theorem Inv.go (hi : Inv s) (hin : s.pc.inLoop = true) {pc : Pc} (hin' : pc.inLoop = true)
    {p : Process} (hp : p.table = s.process.table) {running : Bool} {replies : List (Nat × List UInt8)}
    (hand : ∀ e, pc.hand = some e → s.pc.hand = some e ∧ pc = .errors e) :
    Inv { s with process := p, isRunning := running, replies := replies, pc := pc } := by
  have hl := hi.loop hin
  have hout : ∀ {pc₀ : Pc}, pc₀.inLoop = false → pc ≠ pc₀ := by
    rintro pc₀ h rfl
    simp [hin'] at h
  have halive : Server.alive { s with process := p, isRunning := running, replies := replies, pc := pc }
      = s.alive := by
    rw [alive_of_inLoop hin, alive_of_inLoop hin']
  refine ⟨by simpa [hp] using hi.owned, by simpa [hp] using hi.listener, fun f => ?_, fun f hf => ?_,
    fun h => absurd h (hout rfl), fun h => absurd h (hout rfl), fun _ => ?_,
    fun h => absurd h (hout rfl)⟩
  · rw [halive]
    simpa [hp] using hi.clients f
  · rw [halive]
    exact hi.server f hf
  · refine ⟨hl.nodup, by simpa [hp] using hl.members, hl.distinct, by simpa [hp] using hl.pending,
      fun e he => hl.fresh e (hand e he).1, fun e he => ?_, fun e he => ?_, fun e he => ?_,
      by simpa [hp] using hl.opened⟩
    · obtain ⟨hold, hpc⟩ := hand e he
      rcases hl.current e hold with h | ⟨_, h⟩
      · exact Or.inl (by simpa [hp] using h)
      · exact Or.inr ⟨hpc, by simpa [hp] using h⟩
    · have hpc : pc = .newClient e := he
      have := (hand e (by simp [hpc, Pc.hand])).2
      simp [hpc] at this
    · have hpc : pc = .communicate e := he
      have := (hand e (by simp [hpc, Pc.hand])).2
      simp [hpc] at this

/-- Closing the number in hand takes out its entry and nothing else. -/
theorem inv_disconnect (hi : Inv s) (hin : s.pc.inLoop = true) (hpc : s.pc.hand = some e) {pc : Pc}
    (hpc' : pc = .errors e ∨ pc = .next) : Inv { s.disconnect e with pc := pc } := by
  have hl := hi.loop hin
  have hclients : ∀ f, f ∈ s.clientFds ↔ ∃ c, c ≠ 0 ∧ s.process.table.conn f = some c := by
    rw [← alive_of_inLoop hin]
    exact hi.clients
  have hin' : pc.inLoop = true := by
    rcases hpc' with rfl | rfl <;> rfl
  have hout : ∀ {pc₀ : Pc}, pc₀.inLoop = false → pc ≠ pc₀ := by
    rintro pc₀ h rfl
    simp [hin'] at h
  have halive : Server.alive { s.disconnect e with pc := pc } = s.clientFds.erase e.fd := by
    rw [alive_of_inLoop hin']
    rfl
  have hconn : ∀ f, (s.process.close e.fd e.conn).table.conn f =
      if f = e.fd then none else s.process.table.conn f := close_conn _ _
  refine ⟨fun f c hc => ?_, fun f hf => ?_, fun f => ?_, fun f hf => ?_, fun h => absurd h (hout rfl),
    fun h => absurd h (hout rfl), fun _ => ⟨?_, fun f => ?_, hl.distinct, fun g hg => ?_,
      fun g hg => ?_, fun g hg => ?_, fun g hg => ?_, fun g hg => ?_, hl.opened⟩,
    fun h => absurd h (hout rfl)⟩
  · exact hi.owned f c (close_eq_some.mp hc).2
  · exact hi.listener f (close_eq_some.mp hf).2
  · rw [halive]
    simp only [Server.disconnect, Server.close, hconn]
    by_cases hf : f = e.fd <;> simp [hf, hclients]
  · rw [halive]
    intro h
    exact hi.server f hf (alive_of_inLoop hin ▸ Finset.mem_of_mem_erase h)
  · simp only [Server.disconnect, Server.close, numbers_erase]
    exact hl.nodup.erase _
  · simp only [Server.disconnect, Server.close, numbers_erase, hl.nodup.mem_erase_iff, hl.members, hconn]
    by_cases hf : f = e.fd <;> simp [hf]
  · have hne : g.fd ≠ e.fd := fun h => hl.fresh e hpc (h ▸ List.mem_map_of_mem hg)
    simp [Server.disconnect, Server.close, close_of_ne hne, hl.pending g hg]
  · rcases hpc' with rfl | rfl
    · have hge : e = g := by simpa [Pc.hand] using hg
      exact hge ▸ hl.fresh e hpc
    · simp [Pc.hand] at hg
  · rcases hpc' with rfl | rfl
    · have hge : e = g := by simpa [Pc.hand] using hg
      subst hge
      exact Or.inr ⟨rfl, by simp [Server.disconnect, Server.close]⟩
    · simp [Pc.hand] at hg
  · rcases hpc' with rfl | rfl <;> simp at hg
  · rcases hpc' with rfl | rfl <;> simp at hg

/-- The number that `accept` returns is neither in `fds` nor in the rest of the copy. -/
theorem inv_newClient (hi : Inv s) (hpc : s.pc = .newClient e) {fd : Nat}
    (hfree : s.process.table.conn fd = none) : Inv { s.newClient fd with pc := .errors e } := by
  have hin : s.pc.inLoop = true := by simp [hpc, Pc.inLoop]
  have hhand : s.pc.hand = some e := by simp [hpc, Pc.hand]
  have hl := hi.loop hin
  have hclients : ∀ f, f ∈ s.clientFds ↔ ∃ c, c ≠ 0 ∧ s.process.table.conn f = some c := by
    rw [← alive_of_inLoop hin]
    exact hi.clients
  have hopen : s.process.table.conn e.fd = some e.conn := by
    rcases hl.current e hhand with h | ⟨h, _⟩
    · exact h
    · simp [hpc] at h
  have hnew : fd ∉ numbers s.fds := by
    simp [hl.members, hclients, hfree]
  have hne : e.fd ≠ fd := ne_of_open hfree hopen
  have hzero : s.process.table.next ≠ 0 := Nat.pos_iff_ne_zero.mp hl.opened
  have hconn : ∀ f, (s.process.accept fd).table.conn f =
      if f = fd then some s.process.table.next else s.process.table.conn f := accept_conn _ _
  refine ⟨fun f c hc => ?_, fun f hf => ?_, fun f => ?_, fun f hf => ?_, fun h => (nomatch h),
    fun h => (nomatch h), fun _ => ⟨?_, fun f => ?_, hl.distinct, fun g hg => ?_,
      fun g hg => ?_, fun g hg => ?_, fun g hg => (nomatch hg), fun g hg => (nomatch hg), ?_⟩,
    fun h => (nomatch h)⟩
  · simp only [Server.newClient, Server.open, hconn] at hc ⊢
    split at hc
    · rename_i hf
      simpa [hf] using hc
    · rename_i hf
      simpa [hf] using hi.owned f c hc
  · simp only [Server.newClient, Server.open, hconn] at hf
    split at hf
    · simp [hzero] at hf
    · exact hi.listener f hf
  · show f ∈ insert fd s.clientFds ↔ _
    simp only [Server.newClient, Server.open, hconn]
    by_cases hf : f = fd <;> simp [hf, hclients, hzero]
  · show f ∉ insert fd s.clientFds
    have hserver : s.serverFd = some f := hf
    have hfe : f = e.fd := by
      have := hl.listens e hpc
      simpa [hserver, eq_comm] using this
    have := hi.server f hserver
    rw [alive_of_inLoop hin] at this
    simp [hfe ▸ hne, this]
  · simp only [Server.newClient, numbers, List.map_append, List.map_cons, List.map_nil]
    refine List.nodup_append.mpr ⟨hl.nodup, by simp, ?_⟩
    rintro a ha b hb rfl
    rw [List.mem_singleton] at hb
    exact hnew (hb ▸ ha)
  · show f ∈ numbers (s.fds ++ _) ↔ f ∈ insert fd s.clientFds ∨ (s.process.accept fd).table.conn f = some 0
    have hmem := hl.members f
    simp only [numbers] at hmem
    simp only [numbers, List.map_append, List.mem_append, hmem, hconn]
    by_cases hf : f = fd
    · simp [hf]
    · simp [hf]
  · have hg' := hl.pending g hg
    simp [Server.newClient, Server.open, accept_open hfree hg']
  · have hge : e = g := by simpa [Pc.hand] using hg
    exact hge ▸ hl.fresh e hhand
  · have hge : e = g := by simpa [Pc.hand] using hg
    subst hge
    exact Or.inl (by simp [Server.newClient, Server.open, accept_open hfree hopen])
  · exact Nat.succ_pos _

theorem numbers_report (s : Server) (mask : Nat → Flags) : numbers (s.report mask) = numbers s.fds := by
  apply List.ext_getElem?
  intro i
  simp [numbers, Server.report, Function.comp_def]

/-- After `poll`, every number in `fds` is copied with the connection under it. -/
theorem inv_polled (hi : Inv s) (hpc : s.pc = .poll) {fds : List Entry}
    (hfds : numbers fds = numbers s.fds) : Inv (s.polled fds) := by
  have hin : s.pc.inLoop = true := by simp [hpc, Pc.inLoop]
  have hl := hi.loop hin
  have halive := alive_of_inLoop hin
  have hclients := hi.clients
  have hserver := hi.server
  simp only [halive] at hclients hserver
  unfold Server.polled
  split
  · refine ⟨hi.owned, hi.listener, ?_, ?_, fun h => (nomatch h), fun h => (nomatch h), fun _ =>
      ⟨hfds ▸ hl.nodup, fun f => ?_, hl.distinct, hl.pending, fun g hg => (nomatch hg),
        fun g hg => (nomatch hg), fun g hg => (nomatch hg), fun g hg => (nomatch hg), hl.opened⟩,
      fun h => (nomatch h)⟩
    · exact hclients
    · exact hserver
    · show f ∈ numbers fds ↔ _
      rw [hfds]
      exact hl.members f
  · have hcopy : (s.copied fds).map (fun e => e.fd) = numbers fds := by
      simp [Server.copied, numbers]
    refine ⟨hi.owned, hi.listener, ?_, ?_, fun h => (nomatch h), fun h => (nomatch h), fun _ =>
      ⟨hfds ▸ hl.nodup, fun f => ?_, ?_, fun g hg => ?_, fun g hg => (nomatch hg),
        fun g hg => (nomatch hg), fun g hg => (nomatch hg), fun g hg => (nomatch hg), hl.opened⟩,
      fun h => (nomatch h)⟩
    · exact hclients
    · exact hserver
    · show f ∈ numbers fds ↔ _
      rw [hfds]
      exact hl.members f
    · show ((s.copied fds).map fun e => e.fd).Nodup
      rw [hcopy, hfds]
      exact hl.nodup
    · obtain ⟨e, he, rfl⟩ := List.mem_map.mp hg
      have hmem : e.fd ∈ numbers s.fds := hfds ▸ List.mem_map_of_mem he
      have hopen : ∃ c, s.process.table.conn e.fd = some c := by
        rcases (hl.members e.fd).mp hmem with h | h
        · obtain ⟨c, _, hc⟩ := (hi.clients e.fd).mp (halive ▸ h)
          exact ⟨c, hc⟩
        · exact ⟨0, h⟩
      obtain ⟨c, hc⟩ := hopen
      simp [hc, hi.owned e.fd c hc]

/-- The entry that is taken from the copy is about an open connection. -/
theorem inv_dispatch (hi : Inv s) (hpc : s.pc = .next) : Inv s.dispatch := by
  have hin : s.pc.inLoop = true := by simp [hpc, Pc.inLoop]
  have hl := hi.loop hin
  have halive := alive_of_inLoop hin
  -- the rest of the copy, with `e` or nothing in hand
  have hrest : ∀ {e rest pc}, s.copy = e :: rest → pc = .newClient e ∧ some e.fd = s.serverFd ∨
      pc = .communicate e ∧ some e.fd ≠ s.serverFd ∨ pc = .errors e ∨ pc = .next →
      Inv { s with copy := rest, pc := pc } := by
    intro e rest pc hcopy hpc'
    have hnodup := hl.distinct
    have hpend := hl.pending
    simp only [hcopy, List.map_cons, List.nodup_cons] at hnodup
    simp only [hcopy, List.forall_mem_cons] at hpend
    have hhand : ∀ g, pc.hand = some g → g = e := by
      intro g hg
      rcases hpc' with ⟨rfl, _⟩ | ⟨rfl, _⟩ | rfl | rfl <;> simp_all [Pc.hand]
    have hin' : pc.inLoop = true := by
      rcases hpc' with ⟨rfl, _⟩ | ⟨rfl, _⟩ | rfl | rfl <;> rfl
    have hout : ∀ {pc₀ : Pc}, pc₀.inLoop = false → pc ≠ pc₀ := by
      rintro pc₀ h rfl
      simp [hin'] at h
    have halive' : Server.alive { s with copy := rest, pc := pc } = s.alive := by
      rw [halive, alive_of_inLoop hin']
    refine ⟨hi.owned, hi.listener, halive' ▸ hi.clients, halive' ▸ hi.server,
      fun h => absurd h (hout rfl), fun h => absurd h (hout rfl), fun _ => ⟨hl.nodup, hl.members,
        hnodup.2, hpend.2, fun g hg => ?_, fun g hg => ?_, fun g hg => ?_, fun g hg => ?_, hl.opened⟩,
      fun h => absurd h (hout rfl)⟩
    · exact hhand g hg ▸ hnodup.1
    · exact Or.inl (hhand g hg ▸ hpend.1)
    · rcases hpc' with ⟨rfl, h⟩ | ⟨rfl, _⟩ | rfl | rfl <;> simp_all
    · rcases hpc' with ⟨rfl, _⟩ | ⟨rfl, h⟩ | rfl | rfl <;> simp_all
  unfold Server.dispatch
  split
  · exact hi.go hin rfl rfl fun e he => by simp [Pc.hand] at he
  · rename_i e rest hcopy
    split
    · exact hrest hcopy (Or.inr (Or.inr (Or.inr hpc)))
    · split
      · split
        · rename_i hserver
          exact hrest hcopy (Or.inl ⟨rfl, hserver⟩)
        · rename_i hserver
          exact hrest hcopy (Or.inr (Or.inl ⟨rfl, hserver⟩))
      · exact hrest hcopy (Or.inr (Or.inr (Or.inl rfl)))

theorem inv_init : Inv init :=
  ⟨fun _ _ h => (nomatch h), fun _ h => (nomatch h), fun f => ⟨fun h => by simp [init, Server.alive] at h,
    fun ⟨_, _, h⟩ => (nomatch h)⟩, fun _ h => (nomatch h), fun _ => ⟨rfl, rfl, rfl, rfl⟩,
    fun h => (nomatch h), fun h => (nomatch h), fun h => (nomatch h)⟩

/-- The listening socket is the first descriptor. -/
theorem inv_socket (hi : Inv s) (hpc : s.pc = .socket) {fd : Nat} :
    Inv { s.open fd with serverFd := some fd, pc := .setup } := by
  obtain ⟨hnext, hfds, hcopy, _⟩ := hi.blank hpc
  have hnone : ∀ f, s.process.table.conn f = none := by
    intro f
    cases h : s.process.table.conn f with
    | none => rfl
    | some c =>
      have := s.process.table.bounded f c h
      omega
  have hconn : ∀ f, (s.process.accept fd).table.conn f = if f = fd then some 0 else none := by
    intro f
    rw [accept_table, accept_conn, hnext, hnone]
  have hempty : ∀ f, f ∉ s.clientFds := by
    intro f hf
    have := (hi.clients f).mp (by simpa [Server.alive, hpc] using hf)
    simp [hnone] at this
  refine ⟨fun f c hc => ?_, fun f hf => ?_, fun f => ?_, fun f _ => hempty f, fun h => (nomatch h),
    fun _ => ⟨⟨fd, rfl, ?_⟩, hfds, hcopy, congrArg Nat.succ hnext⟩, fun h => (nomatch h),
    fun h => (nomatch h)⟩
  · simp only [Server.open, hconn] at hc ⊢
    by_cases hf : f = fd
    · simp_all
    · simp [hf] at hc
  · simp only [Server.open, hconn] at hf
    by_cases hfd : f = fd
    · simp [hfd]
    · simp [hfd] at hf
  · show f ∈ s.clientFds ↔ _
    simp only [Server.open, hconn, hempty]
    by_cases hf : f = fd <;> simp [hf, eq_comm]
  · simp only [Server.open, hconn, if_true]

/-- `error` leaves no descriptor behind. -/
theorem inv_error (hi : Inv s) (hpc : s.pc = .socket ∨ s.pc = .setup) : Inv s.error := by
  have halive : s.alive = s.clientFds := by
    unfold Server.alive
    rcases hpc with hpc | hpc <;> simp [hpc]
  have hclients := hi.clients
  have hserver := hi.server
  simp only [halive] at hclients hserver
  unfold Server.error
  split
  · exact ⟨hi.owned, hi.listener, hclients, hserver, fun h => (nomatch h), fun h => (nomatch h),
      fun h => (nomatch h), fun h => (nomatch h)⟩
  · rename_i fd hfd
    have hconn : ∀ f, (s.process.close fd 0).table.conn f =
        if f = fd then none else s.process.table.conn f := close_conn _ _
    refine ⟨fun f c hc => ?_, fun f hf => ?_, fun f => ?_, fun f hf => (nomatch hf),
      fun h => (nomatch h), fun h => (nomatch h), fun h => (nomatch h), fun h => (nomatch h)⟩
    · exact hi.owned f c (close_eq_some.mp hc).2
    · obtain ⟨hne, hopen⟩ := close_eq_some.mp hf
      have hf' := hi.listener f hopen
      rw [hfd, Option.some.injEq] at hf'
      exact absurd hf'.symm hne
    · show f ∈ s.clientFds ↔ _
      simp only [Server.close, hconn]
      by_cases hf : f = fd
      · simp [hf, hserver fd hfd]
      · simp [hf, hclients]

theorem inv_setup (hi : Inv s) (hpc : s.pc = .setup) {fd : Nat} (hfd : s.serverFd = some fd) :
    Inv { s with fds := s.fds ++ [⟨fd, .input, .none⟩], pc := .top } := by
  obtain ⟨⟨f, hf, hopen⟩, hfds, hcopy, hnext⟩ := hi.setup hpc
  rw [hfd, Option.some.injEq] at hf
  subst hf
  have hclients := hi.clients
  have hserver := hi.server
  simp only [show s.alive = s.clientFds by simp [Server.alive, hpc]] at hclients hserver
  refine ⟨hi.owned, hi.listener, hclients, hserver, fun h => (nomatch h), fun h => (nomatch h),
    fun _ => ⟨by simp [numbers, hfds], fun g => ?_, by simp [hcopy], by simp [hcopy],
      fun e he => (nomatch he), fun e he => (nomatch he), fun e he => (nomatch he),
      fun e he => (nomatch he), Nat.lt_of_lt_of_eq Nat.zero_lt_one hnext.symm⟩, fun h => (nomatch h)⟩
  have hempty : g ∉ s.clientFds := by
    intro hg
    obtain ⟨c, hc, hconn⟩ := (hclients g).mp hg
    have := s.process.table.bounded g c hconn
    omega
  simp only [numbers, hfds, List.nil_append, List.map_cons, List.map_nil, List.mem_singleton, hempty,
    false_or]
  constructor
  · rintro rfl
    exact hopen
  · intro h
    have := hi.listener g h
    simpa [hfd, eq_comm] using this

/-- The destructor closes one client. -/
theorem inv_closeClient (hi : Inv s) {rest : Finset Nat} (hpc : s.pc = .closeClients rest) {fd c : Nat} :
    Inv { s.close fd c with pc := .closeClients (rest.erase fd) } := by
  have halive : s.alive = rest := by simp [Server.alive, hpc]
  have hclients := hi.clients
  have hserver := hi.server
  simp only [halive] at hclients hserver
  have hconn : ∀ f, (s.process.close fd c).table.conn f =
      if f = fd then none else s.process.table.conn f := close_conn _ _
  refine ⟨fun f d hd => ?_, fun f hf => ?_, fun f => ?_, fun f hf h => ?_, fun h => (nomatch h),
    fun h => (nomatch h), fun h => (nomatch h), fun h => (nomatch h)⟩
  · exact hi.owned f d (close_eq_some.mp hd).2
  · exact hi.listener f (close_eq_some.mp hf).2
  · show f ∈ rest.erase fd ↔ _
    simp only [Server.close, hconn]
    by_cases hf : f = fd <;> simp [hf, hclients]
  · exact hserver f hf (Finset.mem_of_mem_erase h)

/-- The server is being destroyed, or has been. -/
theorem inv_closing (hi : Inv s) {rest : Finset Nat} (halive : s.alive = rest) :
    Inv { s with isRunning := false, pc := .closeClients rest } := by
  have hclients := hi.clients
  have hserver := hi.server
  simp only [halive] at hclients hserver
  exact ⟨hi.owned, hi.listener, hclients, hserver, fun h => (nomatch h), fun h => (nomatch h),
    fun h => (nomatch h), fun h => (nomatch h)⟩

/-- Nothing is open when the destructor has returned. -/
theorem inv_ended {p : Process} (hp : ∀ f, p.table.conn f = none) : Inv { s with
    process := p, clientFds := ∅, fds := [], serverFd := none, pc := .ended } := by
  refine ⟨fun f c hc => ?_, fun f hf => ?_, fun f => ?_, fun f hf => (nomatch hf), fun h => (nomatch h),
    fun h => (nomatch h), fun h => (nomatch h), fun _ => ⟨rfl, hp⟩⟩
  · simp [hp] at hc
  · simp [hp] at hf
  · show f ∈ (∅ : Finset Nat) ↔ _
    simp [hp]

/-- When the clients are closed, only the listening socket may be open. -/
theorem closed_but_server (hi : Inv s) (hpc : s.pc = .closeClients ∅) {f c : Nat}
    (h : s.process.table.conn f = some c) : s.serverFd = some f := by
  by_cases hc : c = 0
  · exact hi.listener f (hc ▸ h)
  · have := (hi.clients f).mpr ⟨c, hc, h⟩
    simp [Server.alive, hpc] at this

theorem inv_step {a : Action} (hi : Inv s) (h : step s a = some s') : Inv s' := by
  cases step_inv h with
  | noSocket hpc => exact inv_error hi (Or.inl hpc)
  | socket hpc => exact inv_socket hi hpc
  | setup hpc hfd => exact inv_setup hi hpc hfd
  | setupFails hpc => exact inv_error hi (Or.inr hpc)
  | stop => exact hi.logged rfl
  | test hpc | pollFails hpc =>
    exact hi.go (by simp [hpc, Pc.inLoop]) (by split <;> rfl) rfl fun e he => by
      split at he <;> simp [Pc.hand] at he
  | @poll mask hpc => exact inv_polled hi hpc (numbers_report s mask)
  | dispatch hpc => exact inv_dispatch hi hpc
  | acceptFails hpc =>
    exact hi.go (by simp [hpc, Pc.inLoop]) rfl rfl fun g hg => by simpa [hpc, Pc.hand] using hg
  | accept hpc _ hfree => exact inv_newClient hi hpc hfree
  | @received e chunk hpc =>
    exact hi.go (p := s.process.call (.recv chunk) e.fd e.conn) (by simp [hpc, Pc.inLoop])
      (show Pc.inLoop (.errors e) = true from rfl) rfl fun g hg => by simpa [hpc, Pc.hand] using hg
  | @hungUp e hpc =>
    have hcall : Inv { s with process := s.process.call (.recv []) e.fd e.conn } :=
      hi.logged (p := s.process.call (.recv []) e.fd e.conn) rfl
    exact inv_disconnect hcall (by simp [hpc, Pc.inLoop]) (by simp [hpc, Pc.hand]) (Or.inl rfl)
  | failed hpc =>
    exact inv_disconnect hi (by simp [hpc, Pc.inLoop]) (by simp [hpc, Pc.hand]) (Or.inr rfl)
  | passed hpc => exact hi.go (by simp [hpc, Pc.inLoop]) rfl rfl fun g hg => by simp [Pc.hand] at hg
  | destroy hpc =>
    refine inv_closing hi ?_
    rcases hpc with hpc | hpc <;> simp [Server.alive, hpc]
  | closeClient hpc => exact inv_closeClient hi hpc
  | ended hpc hfd =>
    refine hfd ▸ inv_ended fun f => ?_
    cases hf : s.process.table.conn f with
    | none => rfl
    | some c =>
      have hserver := closed_but_server hi hpc hf
      simp [hfd] at hserver
  | @closeServer fd hpc hfd =>
    refine inv_ended fun f => ?_
    simp only [Server.close, close_table, close_conn]
    split
    · rfl
    · rename_i hne
      cases hf : s.process.table.conn f with
      | none => rfl
      | some c =>
        have hserver := closed_but_server hi hpc hf
        rw [hfd, Option.some.injEq] at hserver
        exact absurd hserver.symm hne

theorem reach_inv (hr : Reach anyStep step init s) : Inv s :=
  hr.invariant inv_init fun _ _ _ hi h _ => inv_step hi h

/-- The list of entries, the set of clients and the open connections are the same clients. -/
structure Agrees (s : Server) : Prop where
  nodup : (numbers s.fds).Nodup
  entries : ∀ f, f ∈ s.clientFds ↔ f ∈ numbers s.fds ∧ some f ≠ s.serverFd
  clients : ∀ f, f ∈ s.clientFds ↔ ∃ c, c ≠ 0 ∧ s.process.table.conn f = some c

/-- A step gives up no other client than the one whose entry is in hand, and takes up none but the one
that is accepted. -/
structure OthersKept (s : Server) (a : Action) (s' : Server) : Prop where
  kept : ∀ f c, s.process.table.conn f = some c → s'.process.table.conn f = some c ∨
    ∃ e, s.pc.hand = some e ∧ e.fd = f ∧ e.conn = c
  clients : ∀ f ∈ s.clientFds, f ∈ s'.clientFds ∨ ∃ e, s.pc.hand = some e ∧ e.fd = f
  new : ∀ f ∈ s'.clientFds, f ∈ s.clientFds ∨ a = .accept (some f)

theorem Inv.agrees (hi : Inv s) (hin : s.pc.inLoop = true) : Agrees s := by
  have hl := hi.loop hin
  have hclients := hi.clients
  have hserver := hi.server
  simp only [alive_of_inLoop hin] at hclients hserver
  refine ⟨hl.nodup, fun f => ?_, hclients⟩
  rw [hl.members f]
  constructor
  · intro hf
    exact ⟨Or.inl hf, fun h => hserver f h.symm hf⟩
  · rintro ⟨hf | hf, hne⟩
    · exact hf
    · exact absurd (hi.listener f hf).symm hne

theorem othersKept_same {a : Action} (ht : s'.process.table = s.process.table)
    (hc : s'.clientFds = s.clientFds) : OthersKept s a s' :=
  ⟨fun _ _ hf => Or.inl (ht ▸ hf), fun _ hf => Or.inl (hc ▸ hf), fun _ hf => Or.inl (hc ▸ hf)⟩

theorem othersKept_disconnect {a : Action} (hpc : s.pc.hand = some e)
    (hcur : s.process.table.conn e.fd = some e.conn ∨ s.process.table.conn e.fd = none)
    (ht : s'.process.table = s.process.table.close e.fd) (hc : s'.clientFds = s.clientFds.erase e.fd) :
    OthersKept s a s' := by
  refine ⟨fun f c hf => ?_, fun f hf => ?_, fun f hf => ?_⟩
  · by_cases hfe : f = e.fd
    · subst hfe
      rcases hcur with h | h
      · rw [hf, Option.some.injEq] at h
        exact Or.inr ⟨e, hpc, rfl, h.symm⟩
      · simp [hf] at h
    · exact Or.inl (by rw [ht, close_of_ne hfe, hf])
  · by_cases hfe : f = e.fd
    · exact Or.inr ⟨e, hpc, hfe.symm⟩
    · exact Or.inl (by rw [hc]; exact Finset.mem_erase.mpr ⟨hfe, hf⟩)
  · rw [hc] at hf
    exact Or.inl (Finset.mem_of_mem_erase hf)

theorem othersKept {a : Action} (hi : Inv s) (hin : s.pc.inLoop = true) (h : step s a = some s')
    (hin' : s'.pc.inLoop = true) : OthersKept s a s' := by
  have hl := hi.loop hin
  have hcur : ∀ {e}, s.pc.hand = some e →
      s.process.table.conn e.fd = some e.conn ∨ s.process.table.conn e.fd = none := fun he =>
    (hl.current _ he).imp_right And.right
  cases step_inv h with
  | noSocket hpc | socket hpc | setup hpc | setupFails hpc | closeClient hpc | ended hpc | closeServer hpc =>
    simp [hpc, Pc.inLoop] at hin
  | destroy => simp [Pc.inLoop] at hin'
  | stop | test | pollFails | acceptFails | received | passed => exact othersKept_same rfl rfl
  | poll =>
    unfold Server.polled
    split <;> exact othersKept_same rfl rfl
  | dispatch =>
    unfold Server.dispatch
    split
    · exact othersKept_same rfl rfl
    · split
      · exact othersKept_same rfl rfl
      · split <;> exact othersKept_same rfl rfl
  | accept hpc _ hfree =>
    refine ⟨fun f c hf => Or.inl (accept_open hfree hf), fun f hf => Or.inl ?_, fun f hf => ?_⟩
    · exact Finset.mem_insert_of_mem hf
    · rcases Finset.mem_insert.mp hf with rfl | hf
      · exact Or.inr rfl
      · exact Or.inl hf
  | @hungUp e hpc | @failed e hpc =>
    have hhand : s.pc.hand = some e := by simp [hpc, Pc.hand]
    exact othersKept_disconnect hhand (hcur hhand) rfl rfl

/-- **The poll list and the client set agree** at every point of the loop, for all events that `poll` may
report and whatever `accept` and `recv` return; and no step drops or revives another client. -/
theorem poll_list_agrees (hr : Reach anyStep step init s) (hin : s.pc.inLoop = true) :
    Agrees s ∧ ∀ a s', step s a = some s' → s'.pc.inLoop = true → OthersKept s a s' :=
  ⟨(reach_inv hr).agrees hin, fun _ _ h hin' => othersKept (reach_inv hr) hin h hin'⟩

/-- Clients 5 and 6 come; then 5 hangs up in a pass that reports a read event and a hang-up for it, and
the listening socket has an error; 6 stays. -/
def hungUp : List Action :=
  [.socket (some 3), .setup true, .test, .poll fun _ => .input, .dispatch, .accept (some 5), .errors,
    .dispatch, .test, .poll fun _ => .input, .dispatch, .accept (some 6), .errors, .dispatch, .recv [104],
    .errors, .dispatch, .test, .poll fun _ => ⟨true, true, true, false⟩, .dispatch, .accept none, .errors,
    .dispatch, .recv [], .errors]

theorem poll_list_agrees_hungUp : ∃ s : Server, Reach anyStep step init s ∧ numbers s.fds = [6] ∧
    s.clientFds = {6} ∧ Agrees s :=
  have hr : Reach anyStep step init ((exec step init hungUp).get rfl) := exec_reach_get hungUp rfl
  ⟨_, hr, rfl, rfl, (poll_list_agrees hr rfl).1⟩

end CppBackend.PollThreadTp
