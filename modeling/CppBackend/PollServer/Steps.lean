import CppBackend.PollServer.Model

/-!
# Steps of the single-threaded poll server

What a step does, one constructor for each branch of the source, with the guards.
-/

set_option autoImplicit false

namespace CppBackend.PollServer

open Library.Descriptors Library.Poll

/-- `poll` has reported the states `mask`. -/
def Server.polled (s : Server) (mask : Nat → Flags) : Server :=
  { s with
    fds := report (s.curMaxFd + 1) mask s.fds
    cnt := count (s.curMaxFd + 1) (report (s.curMaxFd + 1) mask s.fds)
    outOfRange := s.outOfRange || decide (s.fds.length < s.curMaxFd + 1)
    dispatched := []
    pc := .scan 0 }

/-- `fds[fd]` is looked at, and the loop is at `pc` then. -/
def Server.looked (s : Server) (fd : Nat) (pc : Pc) : Server :=
  { s with outOfRange := s.outOfRange || decide (s.fds.length ≤ fd), pc := pc }

inductive Moves (s : Server) : Action → Server → Prop where
  | stop : Moves s .stop { s with isRunning := false }
  | goOn (hpc : s.pc = .top) : Moves s .test { s with curMaxFd := s.maxFd, pc := .poll }
  | leave (hpc : s.pc = .top) : Moves s .test { s with pc := .left }
  | poll {mask : Nat → Flags} (hpc : s.pc = .poll) : Moves s (.poll mask) (s.polled mask)
  | pollFails (hpc : s.pc = .poll) :
      Moves s .pollFails { s with pc := if s.isRunning then .top else .left }
  | passEnds {fd : Nat} (hpc : s.pc = .scan fd) (hend : s.curMaxFd < fd ∨ s.cnt = 0) :
      Moves s .scan { s with pc := .top }
  | skip {fd : Nat} (hpc : s.pc = .scan fd) (hin : fd ≤ s.curMaxFd) (hcnt : s.cnt ≠ 0)
      (hnot : (s.read fd).fd = -1 ∨ (s.read fd).revents.pollin = false) :
      Moves s .scan (s.looked fd (.scan (fd + 1)))
  | dispatch {fd : Nat} (hpc : s.pc = .scan fd) (hin : fd ≤ s.curMaxFd) (hcnt : s.cnt ≠ 0)
      (hready : (s.read fd).revents.pollin = true) :
      Moves s .scan { s.looked fd (if fd = s.serverFd then .newClient else .communicate fd) with
        dispatched := s.dispatched ++ [fd] }
  | acceptFails (hpc : s.pc = .newClient) : Moves s (.accept none) (s.handled s.serverFd)
  | accept {fd : Nat} (hpc : s.pc = .newClient) (hne : fd ≠ s.serverFd)
      (hfree : s.table.conn fd = none) :
      Moves s (.accept (some fd)) ((s.newClient fd).handled s.serverFd)
  | communicate {fd : Nat} (hpc : s.pc = .communicate fd) :
      Moves s .communicate { s with pc := .recv fd }
  | shutDown {fd : Nat} (hpc : s.pc = .communicate fd) :
      Moves s .communicate ((s.drop fd).handled fd)
  | recv {fd : Nat} {chunk : List UInt8} (hpc : s.pc = .recv fd) :
      Moves s (.recv chunk) ((s.communicate fd chunk).handled fd)

variable {s s' : Server}

theorem scan_inv {fd : Nat} (hpc : s.pc = .scan fd) : Moves s .scan (s.scan fd) := by
  unfold Server.scan
  split
  · rename_i hend
    exact .passEnds hpc hend
  · rename_i hin
    rw [not_or, Nat.not_lt] at hin
    have hread : ({ s with outOfRange := s.outOfRange || decide (s.fds.length ≤ fd) } :
        Server).read fd = s.read fd := rfl
    simp only [hread]
    split
    · rename_i hnone
      refine .skip hpc hin.1 hin.2 (hnone.imp_right fun h => ?_)
      rw [h]
      rfl
    · split
      · rename_i hready
        exact .dispatch hpc hin.1 hin.2 hready
      · rename_i hready
        exact .skip hpc hin.1 hin.2 (Or.inr (Bool.eq_false_of_not_eq_true hready))

theorem step_inv {a : Action} (h : step s a = some s') : Moves s a s' := by
  cases a with
  | stop =>
    cases h
    exact .stop
  | test =>
    simp only [step] at h
    split at h
    · rename_i hpc
      cases h
      split
      · exact .goOn hpc
      · exact .leave hpc
    · cases h
  | poll mask =>
    simp only [step] at h
    split at h
    · rename_i hpc
      cases h
      exact .poll hpc
    · cases h
  | pollFails =>
    simp only [step] at h
    split at h
    · rename_i hpc
      cases h
      exact .pollFails hpc
    · cases h
  | scan =>
    simp only [step] at h
    split at h
    · rename_i hpc
      cases h
      exact scan_inv hpc
    · cases h
  | accept clientFd =>
    simp only [step] at h
    split at h
    · rename_i hpc
      cases h
      exact .acceptFails hpc
    · rename_i hpc
      split at h
      · rename_i hfree
        cases h
        exact .accept hpc hfree.1 hfree.2
      · cases h
    · cases h
  | communicate =>
    simp only [step] at h
    split at h
    · rename_i hpc
      cases h
      split
      · exact .communicate hpc
      · exact .shutDown hpc
    · cases h
  | recv chunk =>
    simp only [step] at h
    split at h
    · rename_i hpc
      split at h
      · cases h
        exact .recv hpc
      · cases h
    · cases h

theorem serverFd_step {a : Action} (h : step s a = some s') : s'.serverFd = s.serverFd := by
  cases step_inv h with
  | recv hpc =>
    show (Server.communicate _ _ _).serverFd = _
    unfold Server.communicate
    split <;> rfl
  | stop => rfl
  | goOn => rfl
  | leave => rfl
  | poll => rfl
  | pollFails => rfl
  | passEnds => rfl
  | skip => rfl
  | dispatch => rfl
  | acceptFails => rfl
  | accept => rfl
  | communicate => rfl
  | shutDown => rfl

end CppBackend.PollServer
