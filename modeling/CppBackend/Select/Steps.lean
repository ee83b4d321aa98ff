import CppBackend.Select.Model

/-!
# Steps of the select servers

What a step does, one constructor for each branch of the source, with the guards.
-/

set_option autoImplicit false

namespace CppBackend.Select

open Library.Descriptors

/-- The number `fd` has been handled under the connection `conn`, and the loop goes on. -/
def Server.done (s : Server) (fd : Nat) (conn : Option Nat) : Server :=
  { s with handled := s.handled ++ [(fd, conn)], pc := .scan (fd + 1) }

inductive Moves (p : Program) (s : Server) : Action → Server → Prop where
  | stop : Moves p s .stop { s with isRunning := false }
  | leave (hpc : s.pc = .top) : Moves p s .test { s with pc := .left }
  | goOn (hpc : s.pc = .top) :
      Moves p s .test { s with tempFds := s.readFds.bits, curMaxFd := s.maxFd, pc := .select }
  | select {ready : Finset Nat} (hpc : s.pc = .select) (hsub : ready ⊆ s.tempFds)
      (hlt : ∀ fd ∈ ready, fd < s.curMaxFd + 1) :
      Moves p s (.select ready)
        { s with tempFds := ready, firstNew := s.table.next, handled := [], pc := .scan 0 }
  | selectFails {eintr : Bool} (hpc : s.pc = .select) : Moves p s (.selectFails eintr) (p.fails eintr s)
  | passEnds {fd : Nat} (hpc : s.pc = .scan fd) (hend : p.bound s.maxFd s.curMaxFd < fd) :
      Moves p s .scan { s with pc := .top }
  | skip {fd : Nat} (hpc : s.pc = .scan fd) (hin : fd ≤ p.bound s.maxFd s.curMaxFd)
      (hnot : fd ∉ s.tempFds) : Moves p s .scan { s with pc := .scan (fd + 1) }
  | server {fd : Nat} (hpc : s.pc = .scan fd) (hin : fd ≤ p.bound s.maxFd s.curMaxFd)
      (hready : fd ∈ s.tempFds) (hfd : fd = s.serverFd) : Moves p s .scan { s with pc := .accept }
  | client {fd : Nat} (hpc : s.pc = .scan fd) (hin : fd ≤ p.bound s.maxFd s.curMaxFd)
      (hready : fd ∈ s.tempFds) (hfd : fd ≠ s.serverFd) : Moves p s .scan { s with pc := .recv fd }
  | scanBehind {fd : Nat} {bit : Bool} (hpc : s.pc = .scan fd) (hin : fd ≤ p.bound s.maxFd s.curMaxFd)
      (hbeyond : fdSetSize ≤ fd) : Moves p s (.scanBehind bit) ({ s with overrun := true }.visit fd bit)
  | spill {number : Nat} {flag : Bool} (hover : s.overrun = true) :
      Moves p s (.spill number flag) (p.spill number flag s)
  | acceptFails (hpc : s.pc = .accept) : Moves p s (.accept none) (s.done s.serverFd none)
  | accept {cfd : Nat} (hpc : s.pc = .accept) (hne : cfd ≠ s.serverFd)
      (hfree : s.table.conn cfd = none) :
      Moves p s (.accept (some cfd)) ((s.done s.serverFd none).acceptClient p cfd)
  | received {fd : Nat} {chunk : List UInt8} (hpc : s.pc = .recv fd) (hne : chunk ≠ []) :
      Moves p s (.recv chunk)
        { s.done fd (s.table.conn fd) with replies := s.replies ++ [(fd, p.response chunk)] }
  | hungUp {fd : Nat} (hpc : s.pc = .recv fd) :
      Moves p s (.recv []) ((s.done fd (s.table.conn fd)).closeClient fd)

variable {p : Program} {s s' : Server}

theorem scan_inv {fd : Nat} (hpc : s.pc = .scan fd) : Moves p s .scan (s.scan p fd) := by
  unfold Server.scan Server.visit
  split
  · rename_i hend
    exact .passEnds hpc hend
  · rename_i hin
    rw [Nat.not_lt] at hin
    split
    · rename_i hnot
      exact .skip hpc hin (of_decide_eq_false hnot)
    · rename_i hready
      have hready : fd ∈ s.tempFds := by simpa using hready
      split
      · rename_i hfd
        exact .server hpc hin hready hfd
      · rename_i hfd
        exact .client hpc hin hready hfd

theorem step_inv {a : Action} (h : step p s a = some s') : Moves p s a s' := by
  cases a with
  | stop =>
    simp only [step] at h
    split at h
    · cases h
      exact .stop
    · cases h
  | test =>
    simp only [step] at h
    split at h
    · rename_i hpc
      split at h
      · cases h
        exact .leave hpc
      · cases h
        exact .goOn hpc
    · cases h
  | select ready =>
    simp only [step] at h
    split at h
    · rename_i hpc
      split at h
      · rename_i hready
        cases h
        exact .select hpc hready.1 hready.2
      · cases h
    · cases h
  | selectFails eintr =>
    simp only [step] at h
    split at h
    · rename_i hpc
      cases h
      exact .selectFails hpc
    · cases h
  | scan =>
    simp only [step] at h
    split at h
    · rename_i hpc
      split at h
      · cases h
      · cases h
        exact scan_inv hpc
    · cases h
  | scanBehind bit =>
    simp only [step] at h
    split at h
    · rename_i hpc
      split at h
      · rename_i hbehind
        simp only [Server.behind, Bool.and_eq_true, decide_eq_true_eq, beyond_eq_true] at hbehind
        cases h
        exact .scanBehind hpc hbehind.1 hbehind.2
      · cases h
    · cases h
  | spill number flag =>
    simp only [step] at h
    split at h
    · rename_i hover
      cases h
      exact .spill hover
    · cases h
  | accept cfd =>
    simp only [step] at h
    split at h
    · rename_i hpc
      cases h
      exact .acceptFails hpc
    · rename_i hpc
      split at h
      · rename_i hfree
        cases h
        exact .accept hpc hfree.1 hfree.2
      · cases h
    · cases h
  | recv chunk =>
    simp only [step] at h
    split at h
    · rename_i hpc
      split at h
      · cases h
        unfold Server.handleClientIo
        split
        · rename_i hchunk
          subst hchunk
          exact .hungUp hpc
        · rename_i hne
          exact .received hpc hne
      · cases h
    · cases h

end CppBackend.Select
