import CppBackend.Library.Threads

/-!
# The thread pool

Model of the three pools that share one design:

* `threadpoolH` — `Cpp_WebPrograming/threadpool.h`: `submit` first tests `stop`, and a worker
  counts a task off with `task_count.fetch_sub(1) == 1`;
* `threadPoolCpp`, `threadPoolRetype` — `C++MultiThreadingProgram/ThreadPool.cpp` and
  `ThreadPoolRetype.cpp`: no test of `stop`, and `task_count--` followed by a separate read of
  `task_count == 0`.

Every thread is at a program point of the function it executes (`NewThread`, `submit`,
`~ThreadPool`, the wait on `end_cv`); each step is one atomic operation of the source: a lock
or unlock of `mtx` or `end_mtx`, a read or write of `stop` or `task_count`, an operation on the
queue under its mutex, going to sleep, a notification.  `std::condition_variable::wait(lock, p)`
is `while (!p()) wait(lock)`; a wait releases the mutex and sleeps in one step, may wake
spuriously, and takes the mutex again before the predicate is tested again.

A task is a number, given out when its `submit` call begins; what a task does is left open, except
that it may call `submit` any number of times before it returns.  The logs `accepted`,
`rejected`, `dequeued`, `started`, `finished` record what happened to each task.
-/

set_option autoImplicit false

namespace CppBackend.ThreadPool

open Library.Threads

/-- Where the pools differ. -/
structure Source where
  /-- `submit` begins with `if(stop.load() == true)`. -/
  stopTest : Bool
  /-- The completion test is the result of `fetch_sub` (else a second read of `task_count`). -/
  fused : Bool
  deriving DecidableEq, Repr

def threadpoolH : Source := ⟨true, true⟩

def threadPoolCpp : Source := ⟨false, false⟩

def threadPoolRetype : Source := ⟨false, false⟩

/-- Program points of `submit`. -/
inductive SubmitPc where
  /-- About to test `stop`. -/
  | test
  /-- The task is bound; about to lock `mtx`. -/
  | lock
  /-- Holds `mtx`, about to `emplace`. -/
  | emplace
  /-- Holds `mtx`, about to `fetch_add`. -/
  | add
  /-- Holds `mtx`, at the end of the block. -/
  | unlock
  /-- About to `notify_one`. -/
  | notify
  deriving DecidableEq, Repr

/-- A call of `submit` in progress. -/
structure Call where
  task : Nat
  pc : SubmitPc
  deriving DecidableEq, Repr

/-- Program points of `NewThread`. -/
inductive Worker where
  /-- At the head of the loop, about to lock `mtx`. -/
  | top
  /-- In `cv.wait`, holds `mtx`, about to test the predicate. -/
  | pred
  /-- In `cv.wait`, the predicate was false, about to sleep. -/
  | doze
  /-- Asleep in `cv.wait`. -/
  | sleep
  /-- Woken in `cv.wait`, about to lock `mtx` again. -/
  | woken
  /-- Behind `cv.wait`, holds `mtx`. -/
  | check
  /-- Has popped the task, about to unlock. -/
  | popped (t : Nat)
  /-- In `task()`, possibly inside a `submit` call made by it. -/
  | run (t : Nat) (call : Option Call)
  /-- `task()` has returned; about to decrement `task_count`. -/
  | count
  /-- Has decremented; about to read `task_count` (only when the test is not fused). -/
  | read
  /-- About to lock `end_mtx`. -/
  | endLock
  /-- Holds `end_mtx`, about to notify. -/
  | endNotify
  /-- Has notified, still holds `end_mtx`. -/
  | endUnlock
  /-- Took the `break`, still holds `mtx`. -/
  | leave
  /-- `NewThread` has returned. -/
  | exited
  deriving DecidableEq, Repr

/-- Program points of `~ThreadPool`. -/
inductive Dtor where
  | idle
  | lock
  /-- Holds `mtx`, about to store `stop`. -/
  | store
  | unlock
  /-- About to `notify_all`. -/
  | notify
  | join
  | done
  deriving DecidableEq, Repr

/-- Program points of the thread that waits on `end_cv` for `task_count == 0`. -/
inductive Waiter where
  | idle
  /-- About to lock `end_mtx`. -/
  | lock
  /-- Holds `end_mtx`, about to test the predicate. -/
  | pred
  /-- The predicate was false, about to sleep. -/
  | tested
  | asleep
  | woken
  /-- The wait has returned; holds `end_mtx`. -/
  | returned
  deriving DecidableEq, Repr

inductive Thread where
  | worker (w : Worker)
  /-- A thread outside the pool, possibly inside a `submit` call. -/
  | client (call : Option Call)
  | dtor (d : Dtor)
  | waiter (w : Waiter)
  deriving DecidableEq, Repr

/-- The members of `ThreadPool`, and the logs. -/
structure Shared where
  mtx : Bool
  endMtx : Bool
  queue : List Nat
  taskCount : Int32
  stop : Bool
  cerr : List String
  next : Nat
  accepted : List Nat
  rejected : List Nat
  dequeued : List Nat
  started : List Nat
  finished : List Nat
  deriving DecidableEq, Repr

inductive Cv where
  | cv
  | endCv
  deriving DecidableEq, Repr

/-- A thread's choice where the code leaves one: `other` calls `submit` from inside a task,
`target` is the thread that a `notify_one` wakes. -/
inductive Choice where
  | go
  | other
  | target (j : Nat)
  deriving DecidableEq, Repr

/-- The thread that a notification wakes. -/
def Choice.wakes : Choice → Option Nat
  | .target j => some j
  | _ => none

def stoppedMessage : String := "The ThreadPool is already stopped!"

/-- Begin a call of `submit` with a new task. -/
def callSubmit (v : Source) (sh : Shared) : Shared × Call :=
  ({ sh with next := sh.next + 1 }, ⟨sh.next, if v.stopTest then .test else .lock⟩)

/-- `ThreadPool::submit`, one step; `none` for the call when it has returned. -/
def submit (sh : Shared) (c : Call) (ch : Choice) : Option (Shared × Option Call × Signal Cv) :=
  match c.pc with
  | .test =>
    if sh.stop then
      some ({ sh with cerr := sh.cerr ++ [stoppedMessage], rejected := sh.rejected ++ [c.task] },
        none, .quiet)
    else some (sh, some ⟨c.task, .lock⟩, .quiet)
  | .lock => if sh.mtx then none else some ({ sh with mtx := true }, some ⟨c.task, .emplace⟩, .quiet)
  | .emplace =>
    some ({ sh with queue := sh.queue ++ [c.task], accepted := sh.accepted ++ [c.task] },
      some ⟨c.task, .add⟩, .quiet)
  | .add => some ({ sh with taskCount := sh.taskCount + 1 }, some ⟨c.task, .unlock⟩, .quiet)
  | .unlock => some ({ sh with mtx := false }, some ⟨c.task, .notify⟩, .quiet)
  | .notify => some (sh, none, .one .cv ch.wakes)

/-- `ThreadPool::NewThread`, one step. -/
def newThread (v : Source) (sh : Shared) (w : Worker) (ch : Choice) :
    Option (Shared × Worker × Signal Cv) :=
  match w with
  | .top => if sh.mtx then none else some ({ sh with mtx := true }, .pred, .quiet)
  | .pred => some (sh, if !sh.queue.isEmpty || sh.stop then .check else .doze, .quiet)
  | .doze => some ({ sh with mtx := false }, .sleep, .quiet)
  | .sleep => some (sh, .woken, .quiet)
  | .woken => if sh.mtx then none else some ({ sh with mtx := true }, .pred, .quiet)
  | .check =>
    if sh.stop && sh.queue.isEmpty then some (sh, .leave, .quiet)
    else match sh.queue with
      | [] => some ({ sh with mtx := false }, .top, .quiet)
      | t :: q => some ({ sh with queue := q, dequeued := sh.dequeued ++ [t] }, .popped t, .quiet)
  | .popped t => some ({ sh with mtx := false, started := sh.started ++ [t] }, .run t none, .quiet)
  | .run t none =>
    match ch with
    | .go => some ({ sh with finished := sh.finished ++ [t] }, .count, .quiet)
    | _ => some ((callSubmit v sh).1, .run t (some (callSubmit v sh).2), .quiet)
  | .run t (some c) =>
    match submit sh c ch with
    | none => none
    | some (sh', c', sig) => some (sh', .run t c', sig)
  | .count =>
    some ({ sh with taskCount := sh.taskCount - 1 },
      if v.fused then (if sh.taskCount = 1 then .endLock else .top) else .read, .quiet)
  | .read => some (sh, if sh.taskCount = 0 then .endLock else .top, .quiet)
  | .endLock => if sh.endMtx then none else some ({ sh with endMtx := true }, .endNotify, .quiet)
  | .endNotify => some (sh, .endUnlock, .one .endCv ch.wakes)
  | .endUnlock => some ({ sh with endMtx := false }, .top, .quiet)
  | .leave => some ({ sh with mtx := false }, .exited, .quiet)
  | .exited => none

/-- `ThreadPool::~ThreadPool`, one step.  The loop of joins is one step, taken when every worker
has exited (`joining`). -/
def destroy (sh : Shared) : Dtor → Option (Shared × Dtor × Signal Cv)
  | .idle => some (sh, .lock, .quiet)
  | .lock => if sh.mtx then none else some ({ sh with mtx := true }, .store, .quiet)
  | .store => some ({ sh with stop := true }, .unlock, .quiet)
  | .unlock => some ({ sh with mtx := false }, .notify, .quiet)
  | .notify => some (sh, .join, .all .cv)
  | .join => some (sh, .done, .quiet)
  | .done => none

/-- `std::unique_lock l(end_mtx); end_cv.wait(l, [] { return task_count == 0; });`, one step. -/
def waitEnd (sh : Shared) : Waiter → Option (Shared × Waiter × Signal Cv)
  | .idle => some (sh, .lock, .quiet)
  | .lock => if sh.endMtx then none else some ({ sh with endMtx := true }, .pred, .quiet)
  | .pred => some (sh, if sh.taskCount = 0 then .returned else .tested, .quiet)
  | .tested => some ({ sh with endMtx := false }, .asleep, .quiet)
  | .asleep => some (sh, .woken, .quiet)
  | .woken => if sh.endMtx then none else some ({ sh with endMtx := true }, .pred, .quiet)
  | .returned => some ({ sh with endMtx := false }, .idle, .quiet)

/-- One step of any thread. -/
def threadStep (v : Source) (sh : Shared) (t : Thread) (ch : Choice) :
    Option (Shared × Thread × Signal Cv) :=
  match t with
  | .worker w => (newThread v sh w ch).map fun r => (r.1, .worker r.2.1, r.2.2)
  | .client none => some ((callSubmit v sh).1, .client (some (callSubmit v sh).2), .quiet)
  | .client (some c) => (submit sh c ch).map fun r => (r.1, .client r.2.1, r.2.2)
  | .dtor d => (destroy sh d).map fun r => (r.1, .dtor r.2.1, r.2.2)
  | .waiter w => (waitEnd sh w).map fun r => (r.1, .waiter r.2.1, r.2.2)

def asleep : Cv → Thread → Bool
  | .cv, .worker .sleep => true
  | .endCv, .waiter .asleep => true
  | _, _ => false

def wake : Thread → Thread
  | .worker .sleep => .worker .woken
  | .waiter .asleep => .waiter .woken
  | t => t

/-- A worker that has not left `NewThread`. -/
def alive : Thread → Bool
  | .worker .exited => false
  | .worker _ => true
  | _ => false

/-- `~ThreadPool` waits in `join` while a worker is alive. -/
def joining (ts : List Thread) : Thread → Bool
  | .dtor .join => ts.any alive
  | _ => false

def program (v : Source) : Program Shared Thread Cv Choice :=
  ⟨threadStep v, asleep, wake, joining⟩

abbrev Pool := World Shared Thread

/-- One step of the pool: thread `a.1` makes its next step. -/
def step (v : Source) (s : Pool) (a : Nat × Choice) : Option Pool := s.step (program v) a

def Shared.init : Shared := ⟨false, false, [], 0, false, [], 0, [], [], [], [], []⟩

/-- `ThreadPool(workers)`, `clients` threads that may call `submit`, the thread that will destroy
the pool, and one thread that waits on `end_cv`. -/
def init (workers clients : Nat) : Pool :=
  ⟨Shared.init, List.replicate workers (.worker .top) ++ List.replicate clients (.client none) ++
    [.dtor .idle, .waiter .idle]⟩

end CppBackend.ThreadPool
