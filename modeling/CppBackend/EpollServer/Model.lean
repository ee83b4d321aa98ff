import CppBackend.Library.Calls
import CppBackend.Library.Transition

/-!
# A single-threaded epoll server

Model of `Cpp_WebPrograming/epollserver.cpp` after `init()`: `epoll_loop` waits for a batch of events
and handles them one by one.  An event of `server_fd` makes it accept one client, which is added to
the interest set; an event of a client makes it receive at most 1023 bytes and answer them, or close
the client.  `stop()` may clear `is_running` at any time.

The kernel reports a registered descriptor at most once in a batch, and drops a closed one from the
interest set.  `accept` returns any number that is not open; `epoll_ctl`, `recv` and `send` may fail.
An entry of a batch, and each program point inside the handling of one, has beside the number the
connection that the event was reported for.
-/

set_option autoImplicit false

namespace CppBackend.EpollServer

open Library.Descriptors Library.Calls

/-- The flags of `epoll_event.events` that may be set when only `EPOLLIN` was asked for. -/
structure Flags where
  epollin : Bool
  epollerr : Bool
  epollhup : Bool
  deriving DecidableEq, Repr

/-- An entry of `events`. -/
structure Event where
  fd : Nat
  events : Flags
  conn : Nat
  deriving DecidableEq, Repr

/-- Program points of `epoll_loop`. -/
inductive Pc where
  /-- About to test `is_running`. -/
  | top
  | wait
  /-- At the head of the loop over the batch. -/
  | next
  | accept
  /-- About to add `client_fd` to the interest set. -/
  | add (fd conn : Nat)
  | recv (fd conn : Nat)
  | send (fd conn : Nat) (chunk : List UInt8)
  /-- About to take the number out of the interest set. -/
  | delete (fd conn : Nat)
  | close (fd conn : Nat)
  /-- Behind the loop. -/
  | left
  deriving DecidableEq, Repr

structure Server where
  serverFd : Nat
  epfd : Nat
  isRunning : Bool
  process : Process
  /-- The connection that each client number in the interest set was registered for. -/
  interest : Nat → Option Nat
  /-- The events of the batch that have not been handled. -/
  batch : List Event
  pc : Pc

/-- `"Server received: " + std::string(buffer)`; the string ends at the first NUL. -/
def response (chunk : List UInt8) : List UInt8 :=
  "Server received: ".toUTF8.data.toList ++ chunk.takeWhile (· ≠ 0)

def maxEvents : Nat := 100010

/-- The event may be reported: its number is registered, for its connection. -/
def Server.ready (s : Server) (e : Event) : Bool :=
  e.fd == s.serverFd || s.interest e.fd == some e.conn

/-- What `epoll_wait` may report. -/
def Server.reportable (s : Server) (events : List Event) : Bool :=
  decide (events.length ≤ maxEvents) && decide (events.map Event.fd).Nodup && events.all s.ready

/-- The number is not in use. -/
def Server.free (s : Server) (fd : Nat) : Bool :=
  fd != s.serverFd && fd != s.epfd && (s.process.table.conn fd).isNone

/-- Take the first event of the batch. -/
def Server.dispatch (s : Server) : Server :=
  match s.batch with
  | [] => { s with pc := .top }
  | e :: rest =>
    if e.fd = s.serverFd then { s with batch := rest, pc := .accept }
    else if e.events.epollin then { s with batch := rest, pc := .recv e.fd e.conn }
    else { s with batch := rest }

inductive Action where
  /-- `stop()`. -/
  | stop
  /-- `while(is_running)`. -/
  | test
  /-- `epoll_wait` returns the batch, or -1. -/
  | wait (events : Option (List Event))
  | dispatch
  | accept (clientFd : Option Nat)
  /-- A call of `epoll_ctl`. -/
  | ctl (ok : Bool)
  /-- `recv` returns so many bytes; nothing stands for 0 and for -1. -/
  | recv (chunk : List UInt8)
  | send (ok : Bool)
  | close
  deriving DecidableEq, Repr

/-- One step of `epoll_loop`, or of another thread in `stop()`. -/
def step (s : Server) : Action → Option Server
  | .stop => some { s with isRunning := false }
  | .test =>
    match s.pc with
    | .top => some { s with pc := if s.isRunning then .wait else .left }
    | _ => none
  | .wait events =>
    match s.pc, events with
    | .wait, none => some { s with pc := if s.isRunning then .top else .left }
    | .wait, some events =>
      if s.reportable events then some { s with batch := events, pc := .next } else none
    | _, _ => none
  | .dispatch =>
    match s.pc with
    | .next => some s.dispatch
    | _ => none
  | .accept clientFd =>
    match s.pc, clientFd with
    | .accept, none => some { s with pc := .next }
    | .accept, some fd =>
      if s.free fd then
        some { s with process := s.process.accept fd, pc := .add fd s.process.table.next }
      else none
    | _, _ => none
  | .ctl ok =>
    match s.pc with
    | .add fd conn =>
      if ok then some { s with interest := Function.update s.interest fd (some conn), pc := .next }
      else some { s with pc := .close fd conn }
    | .delete fd conn =>
      some { s with interest := if ok then Function.update s.interest fd none else s.interest
                    pc := .close fd conn }
    | _ => none
  | .recv chunk =>
    match s.pc with
    | .recv fd conn =>
      if chunk.length ≤ 1023 then
        some { s with process := s.process.call (.recv chunk) fd conn
                      pc := if 0 < chunk.length then .send fd conn chunk else .delete fd conn }
      else none
    | _ => none
  | .send ok =>
    match s.pc with
    | .send fd conn chunk =>
      some { s with process := s.process.call (.send (response chunk)) fd conn
                    pc := if ok then .next else .delete fd conn }
    | _ => none
  | .close =>
    match s.pc with
    | .close fd conn =>
      some { s with process := s.process.close fd conn
                    interest := Function.update s.interest fd none, pc := .next }
    | _ => none

def init (serverFd epfd : Nat) : Server :=
  ⟨serverFd, epfd, true, .empty, fun _ => none, [], .top⟩

end CppBackend.EpollServer
