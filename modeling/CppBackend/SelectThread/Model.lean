import Mathlib.Data.Finset.Lattice.Fold
import Mathlib.Order.Lattice.Nat
import CppBackend.Library.Descriptors
import CppBackend.Library.FdSet
import CppBackend.Library.Transition

/-!
# A detached thread for each ready descriptor

Model of `Cpp_WebPrograming/selectthread.cpp` after `init()`: `select_loop` copies `read_fds`, waits in
`select`, and walks over the numbers up to `max_fd`; it accepts a client when `server_fd` is ready
(`new_client`), and for any other number that is ready it starts a detached thread, which runs
`client_communicate` on the number once.

`select` may report any of the numbers that it was asked for, again and again, also while a thread
that was started for the number has not read anything yet.
`accept` returns any number that is not open, and a call on a number that is not open fails.  A call
of `recv` that waits stays with the connection that it was made on, also when the number is closed.

An `fd_set` has 1024 bits.  Behind those of `read_fds` lies `is_running`, where `FD_SET` and `FD_CLR` of a number that
has none may write, which may show at any later time (`spill`); `FD_ISSET` finds whatever lies behind the copy
(`scanBehind`).  What is spoiled further behind is left out.

The log `ops` has what the handlers' calls did, each with the connection that it was applied to.
-/

set_option autoImplicit false

namespace CppBackend.SelectThread

open Library.Descriptors

/-- `"Server received message : " + std::string(buffer)`; the string ends at the first NUL. -/
def response (chunk : List UInt8) : List UInt8 :=
  "Server received message : ".toUTF8.data.toList ++ chunk.takeWhile (· ≠ 0)

/-- Program points of `client_communicate`.  The flag tells whether the handler closes the number
because of the shutdown. -/
inductive HandlerPc where
  /-- About to test `is_running`. -/
  | test
  | recv
  /-- In `recv` on the connection. -/
  | receiving (conn : Option Nat)
  | send (chunk : List UInt8)
  /-- About to lock `mtx`. -/
  | lock (down : Bool)
  /-- About to `FD_CLR`. -/
  | clear (down : Bool)
  | close (down : Bool)
  | erase (down : Bool)
  /-- About to update `max_fd`. -/
  | update
  | unlock
  | ended
  deriving DecidableEq, Repr

/-- A thread in `client_communicate(fd)`. -/
structure Handler where
  fd : Nat
  pc : HandlerPc
  deriving DecidableEq, Repr

/-- Program points of `select_loop` and `new_client`. -/
inductive MainPc where
  /-- About to test `is_running`. -/
  | top
  | lock
  /-- Holds `mtx`, about to copy `read_fds` and `max_fd`. -/
  | copy
  | unlock
  | select
  /-- The loop over the numbers, at `fd`. -/
  | scan (fd : Nat)
  | accept
  /-- `accept` has returned; about to lock `mtx`. -/
  | newLock (clientFd conn : Nat)
  | newSet (clientFd conn : Nat)
  | newInsert (clientFd conn : Nat)
  | newUpdate (clientFd conn : Nat)
  | newUnlock (clientFd conn : Nat)
  /-- Behind the loop. -/
  | left
  deriving DecidableEq, Repr

inductive Thread where
  | main
  | handler (i : Nat)
  deriving DecidableEq, Repr

inductive Call where
  | recv (chunk : List UInt8)
  /-- `recv` returned 0 or an error. -/
  | sawEnd
  | send (response : List UInt8)
  | close
  deriving DecidableEq, Repr

/-- A call of a handler, and the connection that it was applied to. -/
structure Op where
  handler : Nat
  call : Call
  hit : Option Nat
  deriving DecidableEq, Repr

/-- The members of `TCPServer`, and the descriptors of the process. -/
structure Shared where
  table : Table
  readFds : FdSet
  /-- A number without a bit has been used. -/
  overrun : Bool
  clientFds : Finset Nat
  maxFd : Nat
  isRunning : Bool
  /-- The thread that holds `mtx`. -/
  mtx : Option Thread
  /-- The connections whose `new_client` has returned. -/
  joined : List Nat
  ops : List Op

structure Server where
  shared : Shared
  main : MainPc
  /-- The bits of the copy of `read_fds` that `select` works on. -/
  tempFds : Finset Nat
  curMaxFd : Nat
  handlers : List Handler

/-- What the kernel does with a call of `recv`. -/
inductive Io where
  | data (chunk : List UInt8)
  /-- 0 or -1. -/
  | ended
  deriving DecidableEq, Repr

/-- The value of `max_fd` for these clients; the greatest comes first in `client_fds`. -/
def maxOf (serverFd : Nat) (clientFds : Finset Nat) : Nat :=
  if clientFds = ∅ then serverFd else max serverFd (clientFds.sup id)

def Shared.log (sh : Shared) (i : Nat) (call : Call) (hit : Option Nat) : Shared :=
  { sh with ops := sh.ops ++ [⟨i, call, hit⟩] }

/-- `client_communicate` of the handler `i`, one step. -/
def communicate (serverFd i : Nat) (sh : Shared) (h : Handler) (io : Io) :
    Option (Shared × Handler) :=
  match h.pc with
  | .test => some (sh, { h with pc := if sh.isRunning then .recv else .lock true })
  | .recv => some (sh, { h with pc := .receiving (sh.table.conn h.fd) })
  | .receiving conn =>
    match io with
    | .data chunk =>
      if 0 < chunk.length ∧ chunk.length ≤ 1023 ∧ conn.isSome then
        some (sh.log i (.recv chunk) conn, { h with pc := .send chunk })
      else none
    | .ended => some (sh.log i .sawEnd conn, { h with pc := .lock false })
  | .send chunk =>
    some (sh.log i (.send (response chunk)) (sh.table.conn h.fd), { h with pc := .ended })
  | .lock down =>
    if sh.mtx = none then
      some ({ sh with mtx := some (.handler i) }, { h with pc := .clear down })
    else none
  | .clear down =>
    some ({ sh with readFds := sh.readFds.clr h.fd, overrun := sh.overrun || beyond h.fd },
      { h with pc := .close down })
  | .close down =>
    some ({ sh.log i .close (sh.table.conn h.fd) with table := sh.table.close h.fd },
      { h with pc := .erase down })
  | .erase down =>
    some ({ sh with clientFds := sh.clientFds.erase h.fd },
      { h with pc := if down then .unlock else .update })
  | .update =>
    some ({ sh with maxFd := maxOf serverFd sh.clientFds }, { h with pc := .unlock })
  | .unlock => some ({ sh with mtx := none }, { h with pc := .ended })
  | .ended => none

inductive Action where
  /-- `select_loop` or `new_client`, where nothing outside decides. -/
  | main
  /-- `FD_ISSET` finds this bit behind the copy. -/
  | scanBehind (bit : Bool)
  /-- What has been written behind `read_fds` shows in `is_running`. -/
  | spill (flag : Bool)
  /-- `select` returns these numbers, or -1. -/
  | select (ready : Option (Finset Nat))
  /-- `accept` returns the number, or -1. -/
  | accept (clientFd : Option Nat)
  | handler (i : Nat) (io : Io)
  /-- `stop()`. -/
  | stop
  deriving DecidableEq

/-- `FD_ISSET` has found this bit for the number `fd`. -/
def Server.visit (serverFd : Nat) (s : Server) (fd : Nat) (bit : Bool) : Server :=
  if bit = false then { s with main := .scan (fd + 1) }
  else if fd = serverFd then { s with main := .accept }
  else { s with handlers := s.handlers ++ [⟨fd, .test⟩], main := .scan (fd + 1) }

/-- `select_loop` and `new_client`, one step. -/
def mainStep (serverFd : Nat) (s : Server) : Option Server :=
  match s.main with
  | .top => some { s with main := if s.shared.isRunning then .lock else .left }
  | .lock =>
    if s.shared.mtx = none then
      some { s with shared := { s.shared with mtx := some .main }, main := .copy }
    else none
  | .copy => some { s with tempFds := s.shared.readFds.bits, curMaxFd := s.shared.maxFd, main := .unlock }
  | .unlock => some { s with shared := { s.shared with mtx := none }, main := .select }
  | .scan fd =>
    if s.curMaxFd < fd then some { s with main := .top }
    else if beyond fd then none
    else some (s.visit serverFd fd (fd ∈ s.tempFds))
  | .newLock fd c =>
    if s.shared.mtx = none then
      some { s with shared := { s.shared with mtx := some .main }, main := .newSet fd c }
    else none
  | .newSet fd c =>
    some { s with shared := { s.shared with readFds := s.shared.readFds.set fd
                                            overrun := s.shared.overrun || beyond fd }
                  main := .newInsert fd c }
  | .newInsert fd c =>
    some { s with shared := { s.shared with clientFds := insert fd s.shared.clientFds }
                  main := .newUpdate fd c }
  | .newUpdate fd c =>
    some { s with shared := { s.shared with maxFd := maxOf serverFd s.shared.clientFds }
                  main := .newUnlock fd c }
  | .newUnlock _ c =>
    some { s with shared := { s.shared with mtx := none, joined := s.shared.joined ++ [c] }
                  main := .scan (serverFd + 1) }
  | .select | .accept | .left => none

/-- One step of any thread. -/
def step (serverFd : Nat) (s : Server) : Action → Option Server
  | .main => mainStep serverFd s
  | .scanBehind bit =>
    match s.main with
    | .scan fd =>
      if fd ≤ s.curMaxFd ∧ beyond fd = true then
        some ({ s with shared := { s.shared with overrun := true } }.visit serverFd fd bit)
      else none
    | _ => none
  | .spill flag =>
    if s.shared.overrun then some { s with shared := { s.shared with isRunning := flag } } else none
  | .select ready =>
    match s.main, ready with
    | .select, none => some { s with main := if s.shared.isRunning then .top else .left }
    | .select, some fds =>
      if fds ⊆ s.tempFds then some { s with tempFds := fds, main := .scan 0 } else none
    | _, _ => none
  | .accept clientFd =>
    match s.main, clientFd with
    | .accept, none => some { s with main := .scan (serverFd + 1) }
    | .accept, some fd =>
      if fd ≠ serverFd ∧ s.shared.table.conn fd = none then
        some { s with shared := { s.shared with table := s.shared.table.accept fd }
                      main := .newLock fd s.shared.table.next }
      else none
    | _, _ => none
  | .handler i io =>
    match s.handlers[i]? with
    | none => none
    | some h => (communicate serverFd i s.shared h io).map fun r =>
        { s with shared := r.1, handlers := s.handlers.set i r.2 }
  | .stop => some { s with shared := { s.shared with isRunning := false } }

/-- Behind `init()`. -/
def init (serverFd : Nat) : Server :=
  ⟨⟨.empty, FdSet.zero.set serverFd, beyond serverFd, ∅, serverFd, true, none, [], []⟩, .top, ∅, 0, []⟩

end CppBackend.SelectThread
