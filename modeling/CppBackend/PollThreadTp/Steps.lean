import CppBackend.PollThreadTp.Model

/-!
# Steps of the poll server with a list of entries

What a step does, one constructor for each branch of the source, with the guards.
-/

set_option autoImplicit false

namespace CppBackend.PollThreadTp

open Library.Descriptors Library.Calls Library.Poll

inductive Moves (s : Server) : Action → Server → Prop where
  | noSocket (hpc : s.pc = .socket) : Moves s (.socket none) s.error
  | socket {fd : Nat} (hpc : s.pc = .socket) (hfree : s.process.table.conn fd = none) :
      Moves s (.socket (some fd)) { s.open fd with serverFd := some fd, pc := .setup }
  | setup {fd : Nat} (hpc : s.pc = .setup) (hfd : s.serverFd = some fd) :
      Moves s (.setup true) { s with fds := s.fds ++ [⟨fd, .input, .none⟩], pc := .top }
  | setupFails (hpc : s.pc = .setup) : Moves s (.setup false) s.error
  | stop : Moves s .stop { s with isRunning := false }
  | test (hpc : s.pc = .top) : Moves s .test { s with pc := if s.isRunning then .poll else .left }
  | poll {mask : Nat → Flags} (hpc : s.pc = .poll) : Moves s (.poll mask) (s.polled (s.report mask))
  | pollFails (hpc : s.pc = .poll) : Moves s .pollFails { s with pc := if s.isRunning then .top else .left }
  | dispatch (hpc : s.pc = .next) : Moves s .dispatch s.dispatch
  | acceptFails {e : Copied} (hpc : s.pc = .newClient e) : Moves s (.accept none) { s with pc := .errors e }
  | accept {e : Copied} {fd : Nat} (hpc : s.pc = .newClient e)
      (hopen : (s.process.table.conn e.fd).isSome = true) (hfree : s.process.table.conn fd = none) :
      Moves s (.accept (some fd)) { s.newClient fd with pc := .errors e }
  | received {e : Copied} {chunk : List UInt8} (hpc : s.pc = .communicate e) (hne : chunk ≠ [])
      (hlen : chunk.length ≤ 1023) :
      Moves s (.recv chunk)
        { s with process := s.process.call (.recv chunk) e.fd e.conn
                 replies := s.replies ++ [(e.fd, response chunk)], pc := .errors e }
  | hungUp {e : Copied} (hpc : s.pc = .communicate e) :
      Moves s (.recv [])
        { Server.disconnect { s with process := s.process.call (.recv []) e.fd e.conn } e with
          pc := .errors e }
  | failed {e : Copied} (hpc : s.pc = .errors e) (hfail : e.revents.failed = true) :
      Moves s .errors { s.disconnect e with pc := .next }
  | passed {e : Copied} (hpc : s.pc = .errors e) (hfail : e.revents.failed = false) :
      Moves s .errors { s with pc := .next }
  | destroy (hpc : s.pc = .left ∨ s.pc = .thrown) :
      Moves s .destroy { s with isRunning := false, pc := .closeClients s.clientFds }
  | closeClient {rest : Finset Nat} {fd : Nat} (hpc : s.pc = .closeClients rest) (hmem : fd ∈ rest) :
      Moves s (.closeClient fd) { s.close fd (s.owner fd) with pc := .closeClients (rest.erase fd) }
  | ended (hpc : s.pc = .closeClients ∅) (hfd : s.serverFd = none) :
      Moves s .closeServer { s with clientFds := ∅, fds := [], pc := .ended }
  | closeServer {fd : Nat} (hpc : s.pc = .closeClients ∅) (hfd : s.serverFd = some fd) :
      Moves s .closeServer
        { s.close fd 0 with clientFds := ∅, fds := [], serverFd := none, pc := .ended }

variable {s s' : Server}

theorem socket_inv {fd : Option Nat} (h : step s (.socket fd) = some s') : Moves s (.socket fd) s' := by
  simp only [step] at h
  split at h
  · rename_i hpc
    cases h
    exact .noSocket hpc
  · rename_i hpc
    split at h
    · rename_i hfree
      cases h
      exact .socket hpc hfree
    · cases h
  · cases h

theorem accept_inv {clientFd : Option Nat} (h : step s (.accept clientFd) = some s') :
    Moves s (.accept clientFd) s' := by
  simp only [step] at h
  split at h
  · rename_i hpc
    cases h
    exact .acceptFails hpc
  · rename_i hpc
    split at h
    · rename_i hfree
      cases h
      exact .accept hpc hfree.1 hfree.2
    · cases h
  · cases h

theorem recv_inv {chunk : List UInt8} (h : step s (.recv chunk) = some s') : Moves s (.recv chunk) s' := by
  simp only [step] at h
  split at h
  · rename_i hpc
    split at h
    · rename_i hlen
      cases h
      unfold Server.communicate
      split
      · rename_i hchunk
        subst hchunk
        exact .hungUp hpc
      · rename_i hne
        exact .received hpc hne hlen.1
    · cases h
  · cases h

theorem closeServer_inv (h : step s .closeServer = some s') : Moves s .closeServer s' := by
  simp only [step] at h
  split at h
  · rename_i rest hpc hfd
    split at h
    · rename_i hrest
      cases h
      exact .ended (hrest ▸ hpc) hfd
    · cases h
  · rename_i rest fd hpc hfd
    split at h
    · rename_i hrest
      cases h
      exact .closeServer (hrest ▸ hpc) hfd
    · cases h
  · cases h

theorem step_inv {a : Action} (h : step s a = some s') : Moves s a s' := by
  cases a with
  | socket fd => exact socket_inv h
  | setup ok =>
    simp only [step] at h
    split at h
    · rename_i hpc hfd
      cases ok with
      | true =>
        cases h
        exact .setup hpc hfd
      | false =>
        cases h
        exact .setupFails hpc
    · cases h
  | stop =>
    cases h
    exact .stop
  | test =>
    simp only [step] at h
    split at h
    · rename_i hpc
      cases h
      exact .test hpc
    · cases h
  | poll mask =>
    simp only [step] at h
    split at h
    · rename_i hpc
      cases h
      exact .poll hpc
    · cases h
  | pollFails =>
    simp only [step] at h
    split at h
    · rename_i hpc
      cases h
      exact .pollFails hpc
    · cases h
  | dispatch =>
    simp only [step] at h
    split at h
    · rename_i hpc
      cases h
      exact .dispatch hpc
    · cases h
  | accept clientFd => exact accept_inv h
  | recv chunk => exact recv_inv h
  | errors =>
    simp only [step] at h
    split at h
    · rename_i hpc
      split at h
      · rename_i hfail
        cases h
        exact .failed hpc hfail
      · rename_i hfail
        cases h
        exact .passed hpc (Bool.eq_false_of_not_eq_true hfail)
    · cases h
  | destroy =>
    simp only [step] at h
    split at h
    · rename_i hpc
      cases h
      exact .destroy (Or.inl hpc)
    · rename_i hpc
      cases h
      exact .destroy (Or.inr hpc)
    · cases h
  | closeClient fd =>
    simp only [step] at h
    split at h
    · rename_i hpc
      split at h
      · rename_i hmem
        cases h
        exact .closeClient hpc hmem
      · cases h
    · cases h
  | closeServer => exact closeServer_inv h

end CppBackend.PollThreadTp
