import CppBackend.Library.Calls
import CppBackend.Library.Poll
import CppBackend.Library.Transition
import Mathlib.Data.Finset.Basic

/-!
# A poll server with a list of entries

Model of `Cpp_WebPrograming/pollthread_tp.cpp` from the constructor of `TCPServer` to the end of its
destructor.  The vector `fds` has an entry for the listening socket and for each client, in the order of
their arrival; entries are found by a linear search (`findClientFdIdx`).  `poll_loop` walks over a copy
of the vector: the read event and the error events of an entry are handled one after the other, also when
both are reported.  `stop()` may clear `is_running` at any time.

All descriptors are numbers of one table.  The listening socket is the first connection (0) in it, the
clients are the others; `accept` and `socket` return any number that is not open, and a call on a number
that is not open fails.  Entries of the copy, and closes of the clients in the destructor, are meant for
the connection that the number was last handed out for (`owner`).  The tasks submitted to the pool only
send; `replies` has them.
-/

set_option autoImplicit false

namespace CppBackend.PollThreadTp

open Library.Descriptors Library.Calls Library.Poll

/-- A `pollfd`; no number in `fds` is negative. -/
structure Entry where
  fd : Nat
  events : Flags
  revents : Flags
  deriving DecidableEq, Repr

/-- An entry of `fds_copy`, and the connection that it is meant for. -/
structure Copied extends Entry where
  conn : Nat
  deriving DecidableEq, Repr

inductive Pc where
  /-- `init`, about to call `socket`. -/
  | socket
  /-- `init`, about to set up the socket. -/
  | setup
  /-- `poll_loop`, about to test `is_running`. -/
  | top
  | poll
  /-- At the head of the loop over the copy. -/
  | next
  /-- In `new_client`. -/
  | newClient (e : Copied)
  /-- In `client_communicate`. -/
  | communicate (e : Copied)
  /-- About to test the error events. -/
  | errors (e : Copied)
  /-- Behind the loop. -/
  | left
  /-- `error` has thrown. -/
  | thrown
  /-- `~TCPServer`, these clients are still to be closed. -/
  | closeClients (rest : Finset Nat)
  | ended
  deriving DecidableEq

structure Server where
  /-- Nothing stands for -1. -/
  serverFd : Option Nat
  isRunning : Bool
  process : Process
  /-- The connection that each number was last handed out for. -/
  owner : Nat → Nat
  fds : List Entry
  clientFds : Finset Nat
  /-- The entries of `fds_copy` that have not been handled. -/
  copy : List Copied
  replies : List (Nat × List UInt8)
  pc : Pc

/-- `"Server received: " + msg`. -/
def response (msg : List UInt8) : List UInt8 := "Server received: ".toUTF8.data.toList ++ msg

def findClientFdIdx (fds : List Entry) (fd : Nat) : Option Nat := fds.findIdx? fun e => e.fd == fd

/-- `int idx = find_client_fd_idx(fd); if(idx != -1) fds.erase(fds.begin() + idx);` -/
def erase (fds : List Entry) (fd : Nat) : List Entry :=
  match findClientFdIdx fds fd with
  | none => fds
  | some idx => fds.eraseIdx idx

variable (s : Server)

/-- A new descriptor, under the number `fd`. -/
def Server.open (fd : Nat) : Server :=
  { s with process := s.process.accept fd
           owner := Function.update s.owner fd s.process.table.next }

/-- `close(fd)`, meant for the connection `c`. -/
def Server.close (fd c : Nat) : Server := { s with process := s.process.close fd c }

/-- `close(fd)`, and no entry and no client any more. -/
def Server.disconnect (e : Copied) : Server :=
  { s.close e.fd e.conn with fds := erase s.fds e.fd, clientFds := s.clientFds.erase e.fd }

/-- `error`, in `init`; there are no clients yet. -/
def Server.error : Server :=
  match s.serverFd with
  | none => { s with isRunning := false, pc := .thrown }
  | some fd => { s.close fd 0 with serverFd := none, isRunning := false, pc := .thrown }

/-- `poll` on all entries. -/
def Server.report (mask : Nat → Flags) : List Entry :=
  s.fds.mapIdx fun i e => { e with revents := (mask i).within e.events }

/-- `fds_copy = fds`. -/
def Server.copied (fds : List Entry) : List Copied := fds.map fun e => ⟨e, s.owner e.fd⟩

/-- Behind `poll`; nothing is copied if it returns 0. -/
def Server.polled (fds : List Entry) : Server :=
  if fds.countP (fun e => e.revents.any) = 0 then { s with fds := fds, pc := .top }
  else { s with fds := fds, copy := s.copied fds, pc := .next }

/-- The loop over the copy. -/
def Server.dispatch : Server :=
  match s.copy with
  | [] => { s with pc := .top }
  | e :: rest =>
    if e.revents = .none then { s with copy := rest }
    else if e.revents.pollin then
      { s with copy := rest, pc := if some e.fd = s.serverFd then .newClient e else .communicate e }
    else { s with copy := rest, pc := .errors e }

/-- `new_client`, when `accept` returns a number. -/
def Server.newClient (clientFd : Nat) : Server :=
  { s.open clientFd with fds := s.fds ++ [⟨clientFd, .input, .none⟩]
                         clientFds := insert clientFd s.clientFds }

/-- `client_communicate`, when `recv` returns so many bytes; nothing stands for 0 and for -1. -/
def Server.communicate (e : Copied) (chunk : List UInt8) : Server :=
  let s := { s with process := s.process.call (.recv chunk) e.fd e.conn }
  if chunk = [] then s.disconnect e else { s with replies := s.replies ++ [(e.fd, response chunk)] }

inductive Action where
  /-- `socket` returns the number, or -1. -/
  | socket (fd : Option Nat)
  /-- `setsockopt`, `bind` and `listen` succeed, or one of them fails. -/
  | setup (ok : Bool)
  /-- `stop()`. -/
  | stop
  /-- `while(is_running)`. -/
  | test
  /-- `poll` finds the descriptors of the entries in these states. -/
  | poll (mask : Nat → Flags)
  /-- `poll` returns -1. -/
  | pollFails
  | dispatch
  /-- `accept` returns the number, or -1. -/
  | accept (clientFd : Option Nat)
  | recv (chunk : List UInt8)
  /-- The test of the error events, and what is done for them. -/
  | errors
  /-- The server goes out of scope. -/
  | destroy
  /-- `close(fd)` for a client in the destructor. -/
  | closeClient (fd : Nat)
  /-- The end of the destructor. -/
  | closeServer

/-- One step of `init`, of `poll_loop`, of the destructor, or of another thread in `stop()`. -/
def step (s : Server) : Action → Option Server
  | .socket fd =>
    match s.pc, fd with
    | .socket, none => some s.error
    | .socket, some fd =>
      if s.process.table.conn fd = none then
        some { s.open fd with serverFd := some fd, pc := .setup }
      else none
    | _, _ => none
  | .setup ok =>
    match s.pc, s.serverFd with
    | .setup, some fd =>
      if ok then some { s with fds := s.fds ++ [⟨fd, .input, .none⟩], pc := .top } else some s.error
    | _, _ => none
  | .stop => some { s with isRunning := false }
  | .test =>
    match s.pc with
    | .top => some { s with pc := if s.isRunning then .poll else .left }
    | _ => none
  | .poll mask =>
    match s.pc with
    | .poll => some (s.polled (s.report mask))
    | _ => none
  | .pollFails =>
    match s.pc with
    | .poll => some { s with pc := if s.isRunning then .top else .left }
    | _ => none
  | .dispatch =>
    match s.pc with
    | .next => some s.dispatch
    | _ => none
  | .accept clientFd =>
    match s.pc, clientFd with
    | .newClient e, none => some { s with pc := .errors e }
    | .newClient e, some fd =>
      -- a socket that has been closed accepts nothing
      if (s.process.table.conn e.fd).isSome ∧ s.process.table.conn fd = none then
        some { s.newClient fd with pc := .errors e }
      else none
    | _, _ => none
  | .recv chunk =>
    match s.pc with
    | .communicate e =>
      if chunk.length ≤ 1023 ∧ (chunk = [] ∨ (s.process.table.conn e.fd).isSome) then
        some { s.communicate e chunk with pc := .errors e }
      else none
    | _ => none
  | .errors =>
    match s.pc with
    | .errors e =>
      if e.revents.failed then some { s.disconnect e with pc := .next }
      else some { s with pc := .next }
    | _ => none
  | .destroy =>
    match s.pc with
    | .left | .thrown => some { s with isRunning := false, pc := .closeClients s.clientFds }
    | _ => none
  | .closeClient fd =>
    match s.pc with
    | .closeClients rest =>
      if fd ∈ rest then some { s.close fd (s.owner fd) with pc := .closeClients (rest.erase fd) }
      else none
    | _ => none
  | .closeServer =>
    match s.pc, s.serverFd with
    | .closeClients rest, none =>
      if rest = ∅ then some { s with clientFds := ∅, fds := [], pc := .ended } else none
    | .closeClients rest, some fd =>
      if rest = ∅ then
        some { s.close fd 0 with clientFds := ∅, fds := [], serverFd := none, pc := .ended }
      else none
    | _, _ => none

/-- `TCPServer(port)`. -/
def init : Server := ⟨none, true, .empty, fun _ => 0, [], ∅, [], [], .socket⟩

end CppBackend.PollThreadTp
