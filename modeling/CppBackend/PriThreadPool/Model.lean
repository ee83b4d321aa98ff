import CppBackend.ThreadPool.Model
import CppBackend.Library.PriorityQueue

/-!
# The thread pool with priorities

Model of `C++MultiThreadingProgram/PriThreadPool.cpp`.  Its `submit`, `NewThread` and `~ThreadPool`
are those of `ThreadPool.cpp`, but for three things:

* `task_queue` is a `std::priority_queue` of pairs with the comparison `compare` of their first
  components: `emplace` and `pop` rearrange it, and `top` reads its front;
* a worker copies `top()` and then calls `pop()`; these are two steps under `mtx`, and `copied` is the
  program point between them;
* the task is called in a `try` block, whose handlers print a line and go on behind it.

The first component of a task's pair is `pri t`, the first argument of the call of `submit` that
submitted it.  A task may throw wherever it may return; `finished` records that its call has ended,
in one way or the other.
-/

set_option autoImplicit false

namespace CppBackend.PriThreadPool

open Library.Threads Library.Priority
open ThreadPool (Shared Call Worker Cv threadPoolCpp)

/-- `compare::operator()`, on the first components. -/
def compare (a b : Int32) : Bool := a < b

/-- `task_queue`, when `pri` are the first components of the pairs. -/
abbrev TaskQueue (pri : Nat → Int32) := PriorityQueue fun t u => compare (pri t) (pri u) = true

inductive Thread where
  /-- At a program point of `ThreadPool.cpp`. -/
  | pool (t : ThreadPool.Thread)
  /-- A worker that has copied `top()`; holds `mtx`, about to `pop`. -/
  | copied (t : Nat)
  deriving DecidableEq, Repr

inductive Choice where
  | pool (ch : ThreadPool.Choice)
  /-- The task throws: a `std::exception` with its `what()`, or something else. -/
  | throws (what : Option String)
  deriving DecidableEq, Repr

def Choice.plain : Choice → ThreadPool.Choice
  | .pool ch => ch
  | .throws _ => .go

/-- The line printed by the handlers of `NewThread`. -/
def exceptionMessage (pri : Int32) : Option String → String
  | some what => "Task " ++ toString pri ++ " exception: " ++ what
  | none => "Task " ++ toString pri ++ " unknown exception"

variable {pri : Nat → Int32}

/-- `ThreadPool::submit`, one step. -/
def submit (Q : TaskQueue pri) (sh : Shared) (c : Call) (ch : ThreadPool.Choice) :
    Option (Shared × Option Call × Signal Cv) :=
  match c.pc with
  | .emplace =>
    some ({ sh with queue := Q.push sh.queue c.task, accepted := sh.accepted ++ [c.task] },
      some ⟨c.task, .add⟩, .quiet)
  | _ => ThreadPool.submit sh c ch

/-- `ThreadPool::NewThread`, one step; `popTask` follows the copy of `top()`. -/
def newThread (Q : TaskQueue pri) (sh : Shared) (w : Worker) (ch : Choice) :
    Option (Shared × Thread × Signal Cv) :=
  match w, ch with
  | .check, _ =>
    if sh.stop && sh.queue.isEmpty then some (sh, .pool (.worker .leave), .quiet)
    else match sh.queue with
      | [] => some ({ sh with mtx := false }, .pool (.worker .top), .quiet)
      | t :: _ => some (sh, .copied t, .quiet)
  | .run t none, .throws what =>
    some ({ sh with cerr := sh.cerr ++ [exceptionMessage (pri t) what],
                    finished := sh.finished ++ [t] }, .pool (.worker .count), .quiet)
  | .run t (some c), ch =>
    (submit Q sh c ch.plain).map fun r => (r.1, .pool (.worker (.run t r.2.1)), r.2.2)
  | w, ch =>
    (ThreadPool.newThread threadPoolCpp sh w ch.plain).map fun r => (r.1, .pool (.worker r.2.1), r.2.2)

/-- `task_queue.pop()` of a worker that has copied the task `t`. -/
def popTask (Q : TaskQueue pri) (sh : Shared) (t : Nat) : Shared × Thread × Signal Cv :=
  ({ sh with queue := Q.pop sh.queue, dequeued := sh.dequeued ++ [t] }, .pool (.worker (.popped t)),
    .quiet)

/-- One step of any thread. -/
def threadStep (Q : TaskQueue pri) (sh : Shared) (t : Thread) (ch : Choice) :
    Option (Shared × Thread × Signal Cv) :=
  match t with
  | .copied t => some (popTask Q sh t)
  | .pool (.worker w) => newThread Q sh w ch
  | .pool (.client (some c)) =>
    (submit Q sh c ch.plain).map fun r => (r.1, .pool (.client r.2.1), r.2.2)
  | .pool t => (ThreadPool.threadStep threadPoolCpp sh t ch.plain).map fun r => (r.1, .pool r.2.1, r.2.2)

/-- The thread in a pool that takes its task from the queue in one step. -/
def Thread.plain : Thread → ThreadPool.Thread
  | .pool t => t
  | .copied _ => .worker .check

def wake : Thread → Thread
  | .pool t => .pool (ThreadPool.wake t)
  | .copied t => .copied t

def program (Q : TaskQueue pri) : Program Shared Thread Cv Choice :=
  ⟨threadStep Q, fun c t => ThreadPool.asleep c t.plain, wake,
    fun ts t => ThreadPool.joining (ts.map Thread.plain) t.plain⟩

abbrev PriPool := World Shared Thread

def step (Q : TaskQueue pri) (s : PriPool) (a : Nat × Choice) : Option PriPool := s.step (program Q) a

/-- `ThreadPool(workers)` with `clients` threads that may call `submit`, the thread that will destroy
the pool, and one thread that waits on `end_cv`. -/
def init (workers clients : Nat) : PriPool :=
  ⟨Shared.init, (ThreadPool.init workers clients).threads.map .pool⟩

end CppBackend.PriThreadPool
