import Mathlib.Data.Finset.Lattice.Fold
import Mathlib.Data.Finset.Sort
import Mathlib.Order.Lattice.Nat
import CppBackend.Library.Descriptors
import CppBackend.Library.FdSet
import CppBackend.Library.Transition

/-!
# The single-threaded select servers

Model of `run_select_loop` of `Cpp_WebPrograming/select.cpp` and of `select_loop`, with `accept_client`
and `handle_client_io`, of `Cpp_WebPrograming/selectthread_tp.cpp`, both after `init()`.  The two loops
are one definition (`step`) for the places where they differ (`Program`).

`client_fds` is a set of numbers, whose `begin()` is its greatest element; an `fd_set` has its 1024 bits.
`select` may report any of the numbers that it was asked for, `accept` returns any number that is not
open, and a call of `recv` on a number that is not open fails.  The tasks that `selectthread_tp.cpp`
submits to its pool only send; `replies` has them, and what `select.cpp` sends at once.

Neither program compares a number with `FD_SETSIZE`.  When one goes beyond it, `FD_SET` and `FD_CLR` write into the
members behind `read_fds`, which may show at any later time (`spill`), and `FD_ISSET` finds whatever lies behind the
copy (`scanBehind`).  What is spoiled further behind is left out.
-/

set_option autoImplicit false

namespace CppBackend.Select

open Library.Descriptors

/-- Program points of the loop. -/
inductive Pc where
  /-- At the head of the outer loop. -/
  | top
  | select
  /-- The loop over the numbers, at `fd`. -/
  | scan (fd : Nat)
  | accept
  | recv (fd : Nat)
  /-- Behind the loop. -/
  | left
  /-- `error` has thrown. -/
  | thrown
  deriving DecidableEq, Repr

structure Server where
  serverFd : Nat
  table : Table
  readFds : FdSet
  /-- A number without a bit has been used. -/
  overrun : Bool
  clientFds : Finset Nat
  maxFd : Nat
  isRunning : Bool
  /-- The bits of the copy of `read_fds` that `select` works on. -/
  tempFds : Finset Nat
  curMaxFd : Nat
  /-- The connections from this number on have been accepted since `select` returned. -/
  firstNew : Nat
  /-- The numbers handled since `select` returned, each with the connection that it referred to. -/
  handled : List (Nat × Option Nat)
  replies : List (Nat × List UInt8)
  pc : Pc

/-- `*client_fds.begin()`. -/
def begin (clientFds : Finset Nat) : Nat := clientFds.sup id

/-- `max_fd` after a client has left. -/
def recompute (serverFd : Nat) (clientFds : Finset Nat) : Nat :=
  if clientFds = ∅ then serverFd else max serverFd (begin clientFds)

/-- Close the numbers one after the other. -/
def closeAll (t : Table) (fds : List Nat) : Table := fds.foldl Table.close t

/-- Where the two programs differ. -/
structure Program where
  /-- There is a `stop()`, and the loop tests `is_running`. -/
  stoppable : Bool
  /-- The bytes that `recv` may take. -/
  room : Nat
  response : List UInt8 → List UInt8
  /-- `max_fd` after the client `cfd` has been inserted. -/
  grow : (serverFd maxFd : Nat) → (clientFds : Finset Nat) → (cfd : Nat) → Nat
  /-- The bound of the loop over the numbers. -/
  bound : (maxFd curMaxFd : Nat) → Nat
  /-- `select` returns -1; the flag tells whether `errno` is `EINTR`. -/
  fails : Bool → Server → Server
  /-- The member behind `read_fds` has this value now, when it is a number or when it is a flag. -/
  spill : (number : Nat) → (flag : Bool) → Server → Server

/-- `select.cpp`: the bound of the loop is `max_fd` itself, which is recomputed, and `error` closes the
clients and throws. -/
def runSelectLoop : Program where
  stoppable := false
  room := 1023
  response chunk := "Message received : ".toUTF8.data.toList ++ chunk.takeWhile (· ≠ 0)
  grow serverFd _ clientFds _ := max serverFd (begin clientFds)
  bound maxFd _ := maxFd
  fails _ s := { s with table := closeAll s.table (s.clientFds.sort (· ≥ ·)), pc := .thrown }
  spill number _ s := { s with maxFd := number }

/-- `selectthread_tp.cpp`: the bound of the loop is a copy of `max_fd`, which is the maximum of its old
value and the new client. -/
def selectLoop : Program where
  stoppable := true
  room := 1024
  response chunk := "Server received: ".toUTF8.data.toList ++ chunk
  grow _ maxFd _ cfd := max maxFd cfd
  bound _ curMaxFd := curMaxFd
  fails eintr s := { s with pc := if eintr then .top else .left }
  spill _ flag s := { s with isRunning := flag }

variable (p : Program) (s : Server)

/-- `FD_ISSET` has found this bit for the number `fd`: handle the number, or go on. -/
def Server.visit (fd : Nat) (bit : Bool) : Server :=
  if bit = false then { s with pc := .scan (fd + 1) }
  else if fd = s.serverFd then { s with pc := .accept }
  else { s with pc := .recv fd }

/-- The loop over the numbers, at `fd`. -/
def Server.scan (fd : Nat) : Server :=
  if p.bound s.maxFd s.curMaxFd < fd then { s with pc := .top } else s.visit fd (fd ∈ s.tempFds)

/-- The loop over the numbers is at one that has no bit. -/
def Server.behind (fd : Nat) : Bool := decide (fd ≤ p.bound s.maxFd s.curMaxFd) && beyond fd

/-- `accept` has returned a number. -/
def Server.acceptClient (cfd : Nat) : Server :=
  { s with
    table := s.table.accept cfd
    readFds := s.readFds.set cfd
    overrun := s.overrun || beyond cfd
    clientFds := insert cfd s.clientFds
    maxFd := p.grow s.serverFd s.maxFd (insert cfd s.clientFds) cfd }

/-- `recv` has returned 0 or -1. -/
def Server.closeClient (fd : Nat) : Server :=
  { s with
    table := s.table.close fd
    readFds := s.readFds.clr fd
    overrun := s.overrun || beyond fd
    clientFds := s.clientFds.erase fd
    maxFd := recompute s.serverFd (s.clientFds.erase fd) }

/-- `recv` on `fd` returns so many bytes; nothing stands for 0 and for -1. -/
def Server.handleClientIo (fd : Nat) (chunk : List UInt8) : Server :=
  let s := { s with handled := s.handled ++ [(fd, s.table.conn fd)], pc := .scan (fd + 1) }
  if chunk = [] then s.closeClient fd
  else { s with replies := s.replies ++ [(fd, p.response chunk)] }

/-- The bytes may be received on `fd`. -/
def Server.receivable (fd : Nat) (chunk : List UInt8) : Bool :=
  decide (chunk.length ≤ p.room) && (decide (chunk = []) || (s.table.conn fd).isSome)

inductive Action where
  /-- `stop()`. -/
  | stop
  /-- Go around the outer loop. -/
  | test
  /-- `select` returns these numbers. -/
  | select (ready : Finset Nat)
  | selectFails (eintr : Bool)
  | scan
  /-- `FD_ISSET` finds this bit behind the copy. -/
  | scanBehind (bit : Bool)
  /-- What has been written behind `read_fds` shows in the member there. -/
  | spill (number : Nat) (flag : Bool)
  /-- `accept` returns the number, or -1. -/
  | accept (cfd : Option Nat)
  | recv (chunk : List UInt8)
  deriving DecidableEq

/-- One step of the loop, or of another thread in `stop()`. -/
def step (p : Program) (s : Server) : Action → Option Server
  | .stop => if p.stoppable then some { s with isRunning := false } else none
  | .test =>
    match s.pc with
    | .top =>
      if p.stoppable && !s.isRunning then some { s with pc := .left }
      else some { s with tempFds := s.readFds.bits, curMaxFd := s.maxFd, pc := .select }
    | _ => none
  | .select ready =>
    match s.pc with
    | .select =>
      if ready ⊆ s.tempFds ∧ ∀ fd ∈ ready, fd < s.curMaxFd + 1 then
        some { s with tempFds := ready, firstNew := s.table.next, handled := [], pc := .scan 0 }
      else none
    | _ => none
  | .selectFails eintr =>
    match s.pc with
    | .select => some (p.fails eintr s)
    | _ => none
  | .scan =>
    match s.pc with
    | .scan fd => if s.behind p fd then none else some (s.scan p fd)
    | _ => none
  | .scanBehind bit =>
    match s.pc with
    | .scan fd => if s.behind p fd then some ({ s with overrun := true }.visit fd bit) else none
    | _ => none
  | .spill number flag => if s.overrun then some (p.spill number flag s) else none
  | .accept cfd =>
    match s.pc, cfd with
    | .accept, none =>
      some { s with handled := s.handled ++ [(s.serverFd, none)], pc := .scan (s.serverFd + 1) }
    | .accept, some cfd =>
      if cfd ≠ s.serverFd ∧ s.table.conn cfd = none then
        some ({ s with handled := s.handled ++ [(s.serverFd, none)]
                       pc := .scan (s.serverFd + 1) }.acceptClient p cfd)
      else none
    | _, _ => none
  | .recv chunk =>
    match s.pc with
    | .recv fd => if s.receivable p fd chunk then some (s.handleClientIo p fd chunk) else none
    | _ => none

/-- Behind `init()`. -/
def init (serverFd : Nat) : Server :=
  ⟨serverFd, .empty, FdSet.zero.set serverFd, beyond serverFd, ∅, serverFd, true, ∅, 0, 0, [], [], .top⟩

end CppBackend.Select
