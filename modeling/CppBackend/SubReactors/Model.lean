import CppBackend.Library.Transition
import Mathlib.Data.Finset.Basic

/-!
# The pool of sub-reactors

Model of `ReactorThreadPool` in `Cpp_WebPrograming/multithread_reactor.cpp`, with the `EpollEventLoop`s
in it and the threads that run them, from the constructor to the end of the destructor.  `init` creates one
sub-reactor after the other and starts a thread for each; creating one may throw, and then the pool is
destroyed at once.  Between `init` and the destructor, connections are accepted and given to the
sub-reactors in turn.

`__sub_reactors` is a vector, and nothing is reserved in it: when it is full, `emplace_back` moves it to a new
buffer and frees the old one.  A started thread reads `__sub_reactors[i]` without a lock, the buffer first and
then the element in it.

The threads take their steps at any time.  `epoll_wait` waits without a limit: it returns when some of the
registered descriptors are ready, and not otherwise, since the program installs no signal handler.  A
connection is closed by its own loop.  What is done with the data that it received is left out.
-/

set_option autoImplicit false

namespace CppBackend.SubReactors

/-! ## `getNextSubReactor` -/

/-- With so many sub-reactors and this value of the atomic `int`: the index, nothing for `nullptr`, and
the value afterwards.  The `int` becomes a `size_t`, and the remainder an `int` again. -/
def getNextSubReactor (size : Nat) (next : BitVec 32) : Option Int × BitVec 32 :=
  if size = 0 then (none, next)
  else (some (BitVec.ofNat 32 ((next.signExtend 64).toNat % size)).toInt, next + 1)

/-- The value of `__next_reactor` after so many calls. -/
def nextAfter (size : Nat) : Nat → BitVec 32
  | 0 => 0
  | k + 1 => (getNextSubReactor size (nextAfter size k)).2

/-- What `getNextSubReactor` returns after so many earlier calls. -/
def dealt (size k : Nat) : Option Int := (getNextSubReactor size (nextAfter size k)).1

/-- The same as an index into the vector. -/
def subReactor (size k : Nat) : Nat :=
  match dealt size k with
  | none => 0
  | some idx => idx.toNat

/-! ## The loops -/

inductive LoopPc where
  /-- The thread has not been started. -/
  | unstarted
  /-- In the lambda, about to read where the buffer of `__sub_reactors` is. -/
  | lambda
  /-- In the lambda, about to read `__sub_reactors[i]` in this buffer. -/
  | index (buffer : Nat)
  /-- The buffer had been freed. -/
  | astray
  /-- About to test `__is_running`. -/
  | top
  /-- In `epoll_wait`, or about to call it. -/
  | wait
  /-- These events are still to be handled. -/
  | handle (batch : List Nat)
  | left
  deriving DecidableEq, Repr

/-- An `EpollEventLoop` and its thread. -/
structure Reactor where
  isRunning : Bool
  /-- The registered descriptors. -/
  interest : Finset Nat
  pc : LoopPc
  deriving DecidableEq

/-- `EpollEventLoop()`. -/
def Reactor.new : Reactor := ⟨true, ∅, .unstarted⟩

/-- The thread reads where the buffer is. -/
def Reactor.fetch (buffer : Nat) (r : Reactor) : Option Reactor :=
  match r.pc with
  | .lambda => some { r with pc := .index buffer }
  | _ => none

/-- The thread reads its element, and calls `loop()`. -/
def Reactor.index (buffer : Nat) (r : Reactor) : Option Reactor :=
  match r.pc with
  | .index b => some { r with pc := if b = buffer then .top else .astray }
  | _ => none

/-- `while (__is_running)`. -/
def Reactor.test (r : Reactor) : Option Reactor :=
  match r.pc with
  | .top => some { r with pc := if r.isRunning then .wait else .left }
  | _ => none

/-- `epoll_wait` returns these descriptors. -/
def Reactor.wake (r : Reactor) (batch : List Nat) : Option Reactor :=
  match r.pc with
  | .wait =>
    if batch ≠ [] ∧ batch.Nodup ∧ batch.length ≤ 1024 ∧ ∀ fd ∈ batch, fd ∈ r.interest then
      some { r with pc := .handle batch }
    else none
  | _ => none

/-- `HandleRead` for the next event, when `recv` returns data or not, or the end of the inner loop. -/
def Reactor.handle (r : Reactor) (ended : Bool) : Option Reactor :=
  match r.pc with
  | .handle [] => some { r with pc := .top }
  | .handle (fd :: batch) =>
    some { r with interest := if ended then r.interest.erase fd else r.interest, pc := .handle batch }
  | _ => none

/-! ## The pool -/

/-- Where the thread is that creates and destroys the pool. -/
inductive OwnerPc where
  /-- `init`, at the head of the loop. -/
  | create
  /-- `init`, about to start the thread for the last sub-reactor. -/
  | start
  /-- `init` has returned. -/
  | ready
  /-- `~ReactorThreadPool`, the sub-reactors from `i` on are still to be stopped. -/
  | stop (i : Nat)
  /-- `~ReactorThreadPool`, the threads from `i` on are still to be joined. -/
  | join (i : Nat)
  | destroyed
  deriving DecidableEq, Repr

structure Pool where
  subReactorNum : Nat
  size : Nat
  /-- The buffer of `__sub_reactors`: how often it has moved. -/
  buffer : Nat
  capacity : Nat
  reactor : Nat → Reactor
  next : BitVec 32
  pc : OwnerPc

inductive Action where
  /-- `make_unique<EpollEventLoop>()` succeeds, or throws.  A vector that moves has room for so many more
  elements afterwards. -/
  | create (room : Option Nat)
  | start
  /-- A connection is accepted, and `epoll_ctl` adds it or not. -/
  | accept (fd : Nat) (ok : Bool)
  /-- The pool goes out of scope. -/
  | destroy
  | stop
  | join
  | fetch (i : Nat)
  | index (i : Nat)
  | test (i : Nat)
  | wake (i : Nat) (batch : List Nat)
  | handle (i : Nat) (ended : Bool)

variable (s : Pool)

def Pool.set (i : Nat) (r : Reactor) : Pool := { s with reactor := Function.update s.reactor i r }

/-- `__sub_reactors` is full. -/
def Pool.full : Bool := s.capacity ≤ s.size

/-- `__sub_reactors.emplace_back(std::move(sub_reactor))`. -/
def Pool.emplaceBack (room : Nat) : Pool :=
  { s.set s.size .new with
    size := s.size + 1
    buffer := if s.full then s.buffer + 1 else s.buffer
    capacity := if s.full then s.size + 1 + room else s.capacity
    pc := .start }

/-- A step of the thread `i`. -/
def Pool.thread (i : Nat) (f : Reactor → Option Reactor) : Option Pool :=
  if i < s.size then (f (s.reactor i)).map (s.set i) else none

/-- `new Connection(getNextSubReactor(), pool, fd)`. -/
def Pool.accept (fd : Nat) (ok : Bool) : Pool :=
  match getNextSubReactor s.size s.next with
  | (none, next) => { s with next := next }
  | (some idx, next) =>
    let r := s.reactor idx.toNat
    let s := { s with next := next }
    if ok then s.set idx.toNat { r with interest := insert fd r.interest } else s

/-- One step of the owner or of a thread. -/
def step (s : Pool) : Action → Option Pool
  | .create room =>
    match s.pc, room with
    | .create, some room => some (s.emplaceBack room)
    | .create, none => some { s with pc := .stop 0 }
    | _, _ => none
  | .start =>
    match s.pc with
    | .start =>
      let i := s.size - 1
      some { s.set i { s.reactor i with pc := .lambda } with
        pc := if s.size < s.subReactorNum then .create else .ready }
    | _ => none
  | .accept fd ok =>
    match s.pc with
    | .ready => if ∀ i < s.size, fd ∉ (s.reactor i).interest then some (s.accept fd ok) else none
    | _ => none
  | .destroy =>
    match s.pc with
    | .ready => some { s with pc := .stop 0 }
    | _ => none
  | .stop =>
    match s.pc with
    | .stop i =>
      if i < s.size then
        some { s.set i { s.reactor i with isRunning := false } with pc := .stop (i + 1) }
      else some { s with pc := .join 0 }
    | _ => none
  | .join =>
    match s.pc with
    | .join i =>
      if i < s.size then
        if (s.reactor i).pc = .left then some { s with pc := .join (i + 1) } else none
      else some { s with pc := .destroyed }
    | _ => none
  | .fetch i => s.thread i (Reactor.fetch s.buffer)
  | .index i => s.thread i (Reactor.index s.buffer)
  | .test i => s.thread i Reactor.test
  | .wake i batch => s.thread i fun r => r.wake batch
  | .handle i ended => s.thread i fun r => r.handle ended

/-- `init(sub_reactor_num, work_pool)`: `if (sub_reactor_num <= 0) sub_reactor_num = 1`. -/
def init (subReactorNum : Int) : Pool :=
  ⟨if subReactorNum ≤ 0 then 1 else subReactorNum.toNat, 0, 0, 0, fun _ => .new, 0, .create⟩

end CppBackend.SubReactors
