import CppBackend.Library.Calls
import CppBackend.Library.Storage
import CppBackend.Library.Transition

/-!
# A reactor whose connections delete themselves

Model of `Cpp_WebPrograming/single_reactor.cpp` behind the constructor of `TCPServer`:
`EpollEventLoop::loop` waits for a batch of events and calls the read callback of the `Channel` that
`data.ptr` points to.  The callback of the `Acceptor` accepts clients until `accept` fails and creates
a `Connection` for each; the callback of a `Connection` receives once, and if that gives nothing, it
takes the channel out of the epoll and deletes the connection that it is called on.

A `Channel` is a member of its owner and is known by the owner's address.  `new` may return any
address that is not allocated, `accept` any number that is not open.  Dereferencing a pointer to
nothing leads to the program point `dangling`.  The tasks that a `Connection` submits to the pool only
send, and are left out.
-/

set_option autoImplicit false

namespace CppBackend.SingleReactor

open Library.Descriptors Library.Calls Library.Storage

/-- What has a `Channel`.  A connection also has the connection that its number was accepted for. -/
inductive Object where
  | acceptor (listenFd : Nat)
  | connection (fd conn : Nat)
  deriving DecidableEq, Repr

/-- The flags of `epoll_event.events` that may be set when only `EPOLLIN` was asked for. -/
structure Flags where
  epollin : Bool
  epollerr : Bool
  epollhup : Bool
  deriving DecidableEq, Repr

/-- An entry of `__events`, with the number that is ready and what `data.ptr` pointed to when the batch
was collected. -/
structure Event where
  fd : Nat
  ptr : Addr
  events : Flags
  target : Option Object
  deriving DecidableEq, Repr

/-- A dispatch of `data.ptr`: what it pointed to at the collection, and now. -/
structure Dispatch where
  target : Option Object
  found : Option Object
  deriving DecidableEq, Repr

inductive Pc where
  /-- About to test `__is_running`. -/
  | top
  | wait
  /-- At the head of the loop over the batch. -/
  | next
  /-- In `Acceptor::HandleAccept`. -/
  | handleAccept
  /-- In `Connection::HandleRead`. -/
  | handleRead (this : Addr)
  /-- Behind the loop. -/
  | left
  /-- A pointer to nothing has been dereferenced. -/
  | dangling
  deriving DecidableEq, Repr

structure Server where
  listenFd : Nat
  epfd : Nat
  isRunning : Bool
  process : Process
  objects : Heap Object
  /-- The `data.ptr` of each number in the epoll. -/
  registered : Nat → Option Addr
  batch : List Event
  pc : Pc
  dispatched : List Dispatch
  /-- The connections whose object has been deleted. -/
  deleted : List Nat

variable (s : Server)

/-- The events that `epoll_wait` may put into `__events`. -/
def Server.ready (e : Event) : Bool :=
  s.registered e.fd == some e.ptr && e.target == s.objects.cell e.ptr

def Server.reportable (events : List Event) : Bool :=
  decide (events.length ≤ 1024) && decide (events.map Event.fd).Nodup && events.all s.ready

/-- The number is not in use. -/
def Server.free (fd : Nat) : Bool :=
  fd != s.listenFd && fd != s.epfd && (s.process.table.conn fd).isNone

/-- `EpollEventLoop::AddChannel`, for the channel with the number `fd` at the address `ch`. -/
def Server.addChannel (fd : Nat) (ch : Addr) : Server :=
  { s with registered := Function.update s.registered fd (some ch) }

/-- `EpollEventLoop::DelChannel`. -/
def Server.delChannel (fd : Nat) : Server :=
  { s with registered := Function.update s.registered fd none }

/-- `new Connection(__epoll, __pool, client_fd)`, at the address `a`. -/
def Server.newConnection (fd conn : Nat) (a : Addr) (ha : s.objects.cell a = none) : Server :=
  { s with objects := s.objects.alloc a (.connection fd conn) ha }.addChannel fd a

/-- `delete this`, with `~Connection`; the kernel drops the closed number from the epoll. -/
def Server.delete (this : Addr) (fd conn : Nat) : Server :=
  match s.objects.free this with
  | none => { s with pc := .dangling }
  | some objects =>
    { s with process := s.process.close fd conn
             registered := Function.update s.registered fd none
             objects := objects
             deleted := s.deleted ++ [conn] }

/-- `Connection::HandleRead`, when `recv` returns so many bytes; nothing stands for 0 and for -1. -/
def Server.handleRead (this : Addr) (chunk : List UInt8) : Server :=
  match s.objects.cell this with
  | some (.connection fd conn) =>
    let s := { s with process := s.process.call (.recv chunk) fd conn, pc := .next }
    if chunk.length = 0 then (s.delChannel fd).delete this fd conn else s
  | _ => { s with pc := .dangling }

/-- `ch->HandleRead(__events[i].events)` for the first entry of the batch. -/
def Server.dispatch : Server :=
  match s.batch with
  | [] => { s with pc := .top }
  | e :: rest =>
    { s with
      batch := rest
      dispatched := s.dispatched ++ [⟨e.target, s.objects.cell e.ptr⟩]
      pc := match s.objects.cell e.ptr with
        | none => .dangling
        | some (.acceptor _) => if e.events.epollin then .handleAccept else .next
        | some (.connection _ _) => if e.events.epollin then .handleRead e.ptr else .next }

inductive Action where
  /-- `stop()`. -/
  | stop
  /-- `while (__is_running)`. -/
  | test
  /-- `epoll_wait` returns the batch, or -1. -/
  | wait (events : Option (List Event))
  | dispatch
  /-- `accept` returns the number, and `new` the address. -/
  | accept (clientFd : Nat) (a : Addr)
  /-- `accept` returns -1. -/
  | acceptFails
  | recv (chunk : List UInt8)
  deriving DecidableEq, Repr

/-- One step of `loop`, or of another thread in `stop`. -/
def step (s : Server) : Action → Option Server
  | .stop => some { s with isRunning := false }
  | .test =>
    match s.pc with
    | .top => some { s with pc := if s.isRunning then .wait else .left }
    | _ => none
  | .wait events =>
    match s.pc, events with
    | .wait, none => some { s with batch := [], pc := .next }
    | .wait, some events =>
      if s.reportable events then some { s with batch := events, pc := .next } else none
    | _, _ => none
  | .dispatch =>
    match s.pc with
    | .next => some s.dispatch
    | _ => none
  | .accept clientFd a =>
    match s.pc with
    | .handleAccept =>
      if s.free clientFd then
        if ha : s.objects.cell a = none then
          some ({ s with process := s.process.accept clientFd }.newConnection clientFd
            s.process.table.next a ha)
        else none
      else none
    | _ => none
  | .acceptFails =>
    match s.pc with
    | .handleAccept => some { s with pc := .next }
    | _ => none
  | .recv chunk =>
    match s.pc with
    | .handleRead this => if chunk.length ≤ 1024 then some (s.handleRead this chunk) else none
    | _ => none

/-- The `Acceptor` is at the address `a`, with its channel in the epoll. -/
def init (listenFd epfd : Nat) (a : Addr) : Server :=
  ⟨listenFd, epfd, true, .empty, Heap.empty.alloc a (.acceptor listenFd) rfl,
    Function.update (fun _ => none) listenFd (some a), [], .top, [], []⟩

end CppBackend.SingleReactor
