import CppBackend.SingleReactor.Model
import CppBackend.SubReactors.Model

/-!
# The main reactor and the sub-reactors at work

Model of `Cpp_WebPrograming/multithread_reactor.cpp` behind the constructor of `TCPServer`: the main loop, and the
loops of the sub-reactors in their threads, each with its own epoll.  The callback of the `Acceptor` runs on the main
thread; it gives each client to the next sub-reactor and creates the `Connection`, whose constructor adds the channel
to the epoll of that one.  The callback of a `Connection` runs on the thread of its sub-reactor and, when `recv` gives
nothing, takes the channel out and deletes the connection.

The threads take their steps in any order, and everything that another thread can see is a step of its own: `accept`,
`new`, `AddChannel`, `recv`, `DelChannel`, the `close` in `~Connection`, and the end of `delete`.  The `epoll_ctl` of
`AddChannel` may fail, which nobody tests.  Nothing calls `stop` before `start` has returned, and so no loop is ever left.  The tasks
that are submitted to the pool are left out here.
-/

set_option autoImplicit false

namespace CppBackend.MultiReactor

open Library.Descriptors Library.Calls Library.Storage SingleReactor SubReactors

/-- What has a `Channel`.  A connection has its number, the connection that this was accepted for, and the index of its
    sub-reactor. -/
inductive Object where
  | acceptor (listenFd : Nat)
  | connection (fd conn epoll : Nat)
  deriving DecidableEq, Repr

/-- The threads with a loop. -/
inductive Who where
  | main
  | sub (i : Nat)
  deriving DecidableEq, Repr

/-- An entry of `__events`, with the number that is ready and what `data.ptr` pointed to when the batch was
    collected. -/
structure Event where
  fd : Nat
  ptr : Addr
  events : Flags
  target : Option Object
  deriving DecidableEq, Repr

/-- A dispatch of `data.ptr`: by whom, what it pointed to at the collection, and now. -/
structure Dispatch where
  who : Who
  target : Option Object
  found : Option Object
  deriving DecidableEq, Repr

inductive Pc where
  /-- In `epoll_wait`, or about to call it. -/
  | wait
  /-- At the head of the loop over the batch. -/
  | next
  /-- In `HandleAccept`, about to call `accept`. -/
  | handleAccept
  /-- In `HandleAccept`, with the number that `accept` has returned. -/
  | newConnection (fd conn : Nat)
  /-- In `Connection()`, about to call `AddChannel`. -/
  | addChannel (this : Addr)
  /-- In `HandleRead`, about to call `recv`. -/
  | handleRead (this : Addr)
  | delChannel (this : Addr)
  /-- In `~Connection`. -/
  | close (this : Addr)
  /-- Behind `~Connection`, in `delete this`. -/
  | free (this : Addr)
  /-- A pointer to nothing has been dereferenced. -/
  | dangling
  deriving DecidableEq, Repr

/-- An `EpollEventLoop` in its `loop()`. -/
structure Loop where
  /-- The `data.ptr` of each number in the epoll. -/
  registered : Nat → Option Addr
  batch : List Event
  pc : Pc

structure Server where
  listenFd : Nat
  epfds : List Nat
  /-- The number of sub-reactors. -/
  size : Nat
  process : Process
  objects : Heap Object
  loop : Who → Loop
  /-- `__next_reactor`. -/
  next : BitVec 32
  dispatched : List Dispatch
  /-- The connections whose object has been deleted. -/
  deleted : List Nat
  /-- The connections for which `AddChannel` has failed. -/
  refused : List Nat

variable (s : Server)

/-- The thread has been started. -/
def Server.started : Who → Bool
  | .main => true
  | .sub i => i < s.size

def Server.set (w : Who) (l : Loop) : Server := { s with loop := Function.update s.loop w l }

/-- The thread `w` goes on with `pc`. -/
def Server.goto (w : Who) (pc : Pc) : Server := s.set w { s.loop w with pc := pc }

/-- The events that `epoll_wait` may put into `__events`. -/
def Server.ready (w : Who) (e : Event) : Bool :=
  (s.loop w).registered e.fd == some e.ptr && e.target == s.objects.cell e.ptr

def Server.reportable (w : Who) (events : List Event) : Bool :=
  decide (events.length ≤ 1024) && decide (events.map Event.fd).Nodup && events.all (s.ready w)

/-- The number is not in use. -/
def Server.free (fd : Nat) : Bool :=
  fd != s.listenFd && !s.epfds.contains fd && (s.process.table.conn fd).isNone

/-- `AddChannel` of the sub-reactor `k`, when `epoll_ctl` succeeds. -/
def Server.addChannel (k fd : Nat) (ch : Addr) : Server :=
  let l := s.loop (.sub k)
  s.set (.sub k) { l with registered := Function.update l.registered fd (some ch) }

/-- `DelChannel` of the sub-reactor `k`. -/
def Server.delChannel (k fd : Nat) : Server :=
  let l := s.loop (.sub k)
  s.set (.sub k) { l with registered := Function.update l.registered fd none }

/-- `close`; the kernel drops the number from every epoll. -/
def Server.close (fd conn : Nat) : Server :=
  { s with process := s.process.close fd conn
           loop := fun w => { s.loop w with registered := Function.update (s.loop w).registered fd none } }

/-- `ch->HandleRead(__events[i].events)` for the first entry of the batch. -/
def Server.dispatch (w : Who) : Server :=
  let l := s.loop w
  match l.batch with
  | [] => s.goto w .wait
  | e :: rest =>
    { s.set w { l with
        batch := rest
        pc := match s.objects.cell e.ptr with
          | none => .dangling
          | some (.acceptor _) => if e.events.epollin then .handleAccept else .next
          | some (.connection _ _ _) => if e.events.epollin then .handleRead e.ptr else .next } with
      dispatched := s.dispatched ++ [⟨w, e.target, s.objects.cell e.ptr⟩] }

/-- `HandleAccept` with the number `fd`: `getNextSubReactor`, and `new` at the address `a`. -/
def Server.newConnection (fd conn : Nat) (a : Addr) : Option Server :=
  match getNextSubReactor s.size s.next with
  | (none, next) => some ({ s with next := next }.close fd conn |>.goto .main .handleAccept)
  | (some idx, next) =>
    if ha : s.objects.cell a = none then
      some ({ s with objects := s.objects.alloc a (.connection fd conn idx.toNat) ha, next := next }.goto .main
        (.addChannel a))
    else none

/-- What a method of the connection at `this` does on the thread `w`. -/
def Server.method (w : Who) (this : Addr) (f : Nat → Nat → Nat → Server) : Server :=
  match s.objects.cell this with
  | some (.connection fd conn k) => f fd conn k
  | _ => s.goto w .dangling

/-- `Connection::HandleRead`, when `recv` returns so many bytes; nothing stands for 0 and for -1. -/
def Server.handleRead (w : Who) (this : Addr) (chunk : List UInt8) : Server :=
  s.method w this fun fd conn _ =>
    { s with process := s.process.call (.recv chunk) fd conn }.goto w
      (if chunk.length = 0 then .delChannel this else .next)

/-- The end of `delete this`. -/
def Server.delete (w : Who) (this : Addr) : Server :=
  s.method w this fun _ conn _ =>
    match s.objects.free this with
    | none => s.goto w .dangling
    | some objects => { s with objects := objects, deleted := s.deleted ++ [conn] }.goto w .next

inductive Action where
  /-- `epoll_wait` returns the batch, or -1. -/
  | wait (w : Who) (events : Option (List Event))
  | dispatch (w : Who)
  /-- `accept` returns the number. -/
  | accept (clientFd : Nat)
  /-- `accept` returns -1. -/
  | acceptFails
  /-- `new` returns the address. -/
  | newConnection (a : Addr)
  /-- `epoll_ctl` succeeds or not. -/
  | addChannel (ok : Bool)
  | recv (w : Who) (chunk : List UInt8)
  | delChannel (w : Who)
  | close (w : Who)
  | free (w : Who)
  deriving DecidableEq, Repr

/-- One step of a thread. -/
def step (s : Server) : Action → Option Server
  | .wait w events =>
    if s.started w then
      match (s.loop w).pc, events with
      | .wait, none => some (s.set w { s.loop w with batch := [], pc := .next })
      | .wait, some events =>
        if s.reportable w events then some (s.set w { s.loop w with batch := events, pc := .next }) else none
      | _, _ => none
    else none
  | .dispatch w =>
    match (s.loop w).pc with
    | .next => some (s.dispatch w)
    | _ => none
  | .accept clientFd =>
    match (s.loop .main).pc with
    | .handleAccept =>
      if s.free clientFd then
        some ({ s with process := s.process.accept clientFd }.goto .main (.newConnection clientFd s.process.table.next))
      else none
    | _ => none
  | .acceptFails =>
    match (s.loop .main).pc with
    | .handleAccept => some (s.goto .main .next)
    | _ => none
  | .newConnection a =>
    match (s.loop .main).pc with
    | .newConnection fd conn => s.newConnection fd conn a
    | _ => none
  | .addChannel ok =>
    match (s.loop .main).pc with
    | .addChannel this =>
      some (s.method .main this fun fd conn k =>
        (if ok then s.addChannel k fd this else { s with refused := s.refused ++ [conn] }).goto .main .handleAccept)
    | _ => none
  | .recv w chunk =>
    match (s.loop w).pc with
    | .handleRead this => if chunk.length ≤ 1024 then some (s.handleRead w this chunk) else none
    | _ => none
  | .delChannel w =>
    match (s.loop w).pc with
    | .delChannel this => some (s.method w this fun fd _ k => (s.delChannel k fd).goto w (.close this))
    | _ => none
  | .close w =>
    match (s.loop w).pc with
    | .close this => some (s.method w this fun fd conn _ => (s.close fd conn).goto w (.free this))
    | _ => none
  | .free w =>
    match (s.loop w).pc with
    | .free this => some (s.delete w this)
    | _ => none

/-- Behind the constructor of `TCPServer`: `init(sub_reactor_num, work_pool)` has started the threads, and the
    `Acceptor` is at the address `a`, with its channel in the epoll of the main reactor. -/
def init (listenFd : Nat) (epfds : List Nat) (subReactorNum : Int) (a : Addr) : Server :=
  ⟨listenFd, epfds, if subReactorNum ≤ 0 then 1 else subReactorNum.toNat, .empty,
    Heap.empty.alloc a (.acceptor listenFd) rfl,
    fun
      | .main => ⟨Function.update (fun _ => none) listenFd (some a), [], .wait⟩
      | .sub _ => ⟨fun _ => none, [], .wait⟩,
    0, [], [], []⟩

end CppBackend.MultiReactor
