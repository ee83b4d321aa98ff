import Mathlib.Data.Finset.Lattice.Fold
import Mathlib.Order.Lattice.Nat
import CppBackend.Library.Descriptors
import CppBackend.Library.Poll
import CppBackend.Library.Transition

/-!
# A single-threaded poll server

Model of `Cpp_WebPrograming/pollserver.cpp` from the end of `init()` on: the entry of a descriptor is at
its own number in the vector `fds`, and `poll` is called with the entries up to `max_fd`.  `poll_loop`
walks over the numbers up to the value that `max_fd` had at the call (`cur_max_fd`); `new_client` and
`client_communicate` change the table under it.  `stop()` may clear `is_running` at any time.

An access to `fds` behind its end sets `outOfRange`.  `accept` returns any number that is not open,
and a call of `recv` on a number that is not open fails.  `ever` has the numbers that `accept` has
returned so far.
-/

set_option autoImplicit false

namespace CppBackend.PollServer

open Library.Descriptors Library.Poll

/-- Program points of `poll_loop`. -/
inductive Pc where
  /-- About to test `is_running`. -/
  | top
  | poll
  /-- The loop over the numbers, at `fd`. -/
  | scan (fd : Nat)
  /-- In `new_client`. -/
  | newClient
  /-- In `client_communicate(fd)`, about to test `is_running`. -/
  | communicate (fd : Nat)
  | recv (fd : Nat)
  /-- Behind the loop. -/
  | left
  deriving DecidableEq, Repr

structure Server where
  serverFd : Nat
  table : Table
  fds : List Pollfd
  clientFds : Finset Nat
  maxFd : Nat
  isRunning : Bool
  curMaxFd : Nat
  cnt : Nat
  outOfRange : Bool
  ever : Finset Nat
  /-- The numbers handled since `poll` returned. -/
  dispatched : List Nat
  replies : List (Nat × List UInt8)
  pc : Pc

/-- `pollfd()`, the entries that `resize` makes. -/
def fresh : Pollfd := ⟨0, .none, .none⟩

/-- `{-1, 0, 0}`. -/
def closed : Pollfd := ⟨-1, .none, .none⟩

/-- `{fd, POLLIN, 0}`. -/
def watching (fd : Nat) : Pollfd := ⟨fd, .input, .none⟩

/-- `fds.resize(n)`, to a greater size. -/
def resize (fds : List Pollfd) (n : Nat) : List Pollfd :=
  fds ++ List.replicate (n - fds.length) fresh

/-- `*client_fds.begin()`; the greatest comes first in `client_fds`. -/
def begin (clientFds : Finset Nat) : Nat := clientFds.sup id

/-- `"Server received message : " + std::string(buffer)`; the string ends at the first NUL. -/
def response (chunk : List UInt8) : List UInt8 :=
  "Server received message : ".toUTF8.data.toList ++ chunk.takeWhile (· ≠ 0)

variable (s : Server)

/-- `fds[i]`. -/
def Server.read (i : Nat) : Pollfd := s.fds.getD i fresh

/-- `fds[i] = e`. -/
def Server.write (i : Nat) (e : Pollfd) : Server :=
  { s with fds := s.fds.set i e, outOfRange := s.outOfRange || decide (s.fds.length ≤ i) }

/-- `new_client`, when `accept` returns a number. -/
def Server.newClient (clientFd : Nat) : Server :=
  let grown := if s.fds.length ≤ clientFd then resize s.fds (clientFd + 1) else s.fds
  let s := { s with fds := grown }.write clientFd (watching clientFd)
  { s with
    table := s.table.accept clientFd
    clientFds := insert clientFd s.clientFds
    maxFd := max s.serverFd (begin (insert clientFd s.clientFds))
    ever := insert clientFd s.ever }

/-- `fds[fd] = {-1, 0, 0}; close(fd); client_fds.erase(fd);` -/
def Server.drop (fd : Nat) : Server :=
  let s := s.write fd closed
  { s with table := s.table.close fd, clientFds := s.clientFds.erase fd }

/-- Behind `recv` in `client_communicate(fd)`; nothing stands for 0 and for -1. -/
def Server.communicate (fd : Nat) (chunk : List UInt8) : Server :=
  if chunk = [] then
    let s := s.drop fd
    { s with maxFd := if s.clientFds = ∅ then s.serverFd else max s.serverFd (begin s.clientFds) }
  else { s with replies := s.replies ++ [(fd, response chunk)] }

/-- The number `fd` has been handled: `cnt--` and on to the next. -/
def Server.handled (fd : Nat) : Server := { s with cnt := s.cnt - 1, pc := .scan (fd + 1) }

/-- The loop over the numbers, at `fd`. -/
def Server.scan (fd : Nat) : Server :=
  if s.curMaxFd < fd ∨ s.cnt = 0 then { s with pc := .top }
  else
    let s := { s with outOfRange := s.outOfRange || decide (s.fds.length ≤ fd) }
    if (s.read fd).fd = -1 ∨ (s.read fd).revents = .none then { s with pc := .scan (fd + 1) }
    else if (s.read fd).revents.pollin then
      { s with
        dispatched := s.dispatched ++ [fd]
        pc := if fd = s.serverFd then .newClient else .communicate fd }
    else { s with pc := .scan (fd + 1) }

inductive Action where
  /-- `stop()`. -/
  | stop
  /-- `while(is_running)`. -/
  | test
  /-- `poll` finds the descriptors of the entries in these states. -/
  | poll (mask : Nat → Flags)
  /-- `poll` returns -1. -/
  | pollFails
  | scan
  /-- `accept` returns the number, or -1. -/
  | accept (clientFd : Option Nat)
  /-- The test of `is_running` in `client_communicate`. -/
  | communicate
  | recv (chunk : List UInt8)

/-- One step of `poll_loop`, or of another thread in `stop()`. -/
def step (s : Server) : Action → Option Server
  | .stop => some { s with isRunning := false }
  | .test =>
    match s.pc with
    | .top =>
      some (if s.isRunning then { s with curMaxFd := s.maxFd, pc := .poll } else { s with pc := .left })
    | _ => none
  | .poll mask =>
    match s.pc with
    | .poll =>
      let fds := report (s.curMaxFd + 1) mask s.fds
      some { s with
        fds := fds
        cnt := count (s.curMaxFd + 1) fds
        outOfRange := s.outOfRange || decide (s.fds.length < s.curMaxFd + 1)
        dispatched := []
        pc := .scan 0 }
    | _ => none
  | .pollFails =>
    match s.pc with
    | .poll => some { s with pc := if s.isRunning then .top else .left }
    | _ => none
  | .scan =>
    match s.pc with
    | .scan fd => some (s.scan fd)
    | _ => none
  | .accept clientFd =>
    match s.pc, clientFd with
    | .newClient, none => some (s.handled s.serverFd)
    | .newClient, some fd =>
      if fd ≠ s.serverFd ∧ s.table.conn fd = none then some ((s.newClient fd).handled s.serverFd)
      else none
    | _, _ => none
  | .communicate =>
    match s.pc with
    | .communicate fd =>
      some (if s.isRunning then { s with pc := .recv fd } else (s.drop fd).handled fd)
    | _ => none
  | .recv chunk =>
    match s.pc with
    | .recv fd =>
      if chunk.length ≤ 1023 ∧ (chunk = [] ∨ (s.table.conn fd).isSome) then
        some ((s.communicate fd chunk).handled fd)
      else none
    | _ => none

/-- Behind `fds.resize(server_fd + 1); fds[server_fd] = {server_fd, POLLIN, 0}; max_fd = server_fd;`. -/
def init (serverFd : Nat) : Server :=
  { serverFd := serverFd, table := .empty, fds := resize [] (serverFd + 1), clientFds := ∅,
    maxFd := serverFd, isRunning := true, curMaxFd := 0, cnt := 0, outOfRange := false, ever := ∅,
    dispatched := [], replies := [], pc := .top : Server }.write serverFd (watching serverFd)

end CppBackend.PollServer
