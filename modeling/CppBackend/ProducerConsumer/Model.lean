import CppBackend.Library.Threads

/-!
# Producers and consumers

Model of `C++MultiThreadingProgram/producer_&_comsumer.cpp`, with any number of producers and
consumers (`main` starts two of each).  A producer pushes 5, 4, …, 0, gives `mtx` back and notifies;
a consumer waits for an element, takes it, and notifies on the same variable while it still holds
`mtx`.  Each step is one atomic operation: a lock or unlock of `mtx`, an operation on the queue or on
`std::cout` under it, going to sleep, a notification.  `cv.wait(lock, p)` is
`while (!p()) wait(lock)`; a sleeper may wake spuriously, which the scheduler chooses as `wakeUp`.
-/

set_option autoImplicit false

namespace CppBackend.ProducerConsumer

open Library.Threads

/-- Program points of `producer`, in the pass of the loop for `i`. -/
inductive ProducerPc where
  /-- About to lock `mtx`. -/
  | lock (i : Int)
  | push (i : Int)
  /-- Has pushed, about to print. -/
  | print (i : Int)
  | unlock (i : Int)
  /-- Has given `mtx` back, about to notify. -/
  | notify (i : Int)
  /-- In `sleep_for`. -/
  | pause (i : Int)
  | done
  deriving DecidableEq, Repr

/-- Program points of `consumer`. -/
inductive ConsumerPc where
  /-- At the head of the loop, about to lock `mtx`. -/
  | lock
  /-- In `cv.wait`, holds `mtx`, about to test the predicate. -/
  | pred
  /-- In `cv.wait`, the predicate was false, about to sleep. -/
  | doze
  /-- Asleep in `cv.wait`. -/
  | sleep
  /-- Woken in `cv.wait`, about to lock `mtx` again. -/
  | woken
  /-- Behind `cv.wait`, holds `mtx`. -/
  | front
  /-- Has popped, about to print. -/
  | print (data : Int)
  | notify
  /-- At the end of the body of the loop. -/
  | unlock
  /-- `front()` of an empty queue. -/
  | undefined
  deriving DecidableEq, Repr

/-- Program points of `main` behind the creation of the threads. -/
inductive MainPc where
  | joinProducers
  | joinConsumers
  | returned
  deriving DecidableEq, Repr

inductive Thread where
  | producer (id : Nat) (pc : ProducerPc)
  | consumer (id : Nat) (pc : ConsumerPc)
  | main (pc : MainPc)
  deriving DecidableEq, Repr

/-- A line of the output. -/
inductive Line where
  /-- `"Producer " << id << " 生产数据：" << i`. -/
  | produced (id : Nat) (i : Int)
  /-- `"Consumer " << id << " consume: " << data << ", queue size: " << data_queue.size()`. -/
  | consumed (id : Nat) (data : Int) (size : Nat)
  deriving DecidableEq, Repr

structure Shared where
  mtx : Bool
  dataQueue : List Int
  cout : List Line
  deriving DecidableEq, Repr

/-- The scheduler's choice: `wakeUp` is a spurious wake-up of a sleeper, `target` the thread that a
`notify_one` wakes. -/
inductive Choice where
  | go
  | wakeUp
  | target (j : Nat)
  deriving DecidableEq, Repr

def Choice.wakes : Choice → Option Nat
  | .target j => some j
  | _ => none

/-- `i--`, and the test `i>=0`. -/
def nextPass (i : Int) : ProducerPc := if 0 ≤ i - 1 then .lock (i - 1) else .done

/-- `producer(id)`, one step. -/
def producer (id : Nat) (sh : Shared) (pc : ProducerPc) (ch : Choice) :
    Option (Shared × ProducerPc × Signal Unit) :=
  match pc with
  | .lock i => if sh.mtx then none else some ({ sh with mtx := true }, .push i, .quiet)
  | .push i => some ({ sh with dataQueue := sh.dataQueue ++ [i] }, .print i, .quiet)
  | .print i => some ({ sh with cout := sh.cout ++ [.produced id i] }, .unlock i, .quiet)
  | .unlock i => some ({ sh with mtx := false }, .notify i, .quiet)
  | .notify i => some (sh, .pause i, .one () ch.wakes)
  | .pause i => some (sh, nextPass i, .quiet)
  | .done => none

/-- `consumer(id)`, one step. -/
def consumer (id : Nat) (sh : Shared) (pc : ConsumerPc) (ch : Choice) :
    Option (Shared × ConsumerPc × Signal Unit) :=
  match pc with
  | .lock => if sh.mtx then none else some ({ sh with mtx := true }, .pred, .quiet)
  | .pred => some (sh, if !sh.dataQueue.isEmpty then .front else .doze, .quiet)
  | .doze => some ({ sh with mtx := false }, .sleep, .quiet)
  | .sleep => if ch = .wakeUp then some (sh, .woken, .quiet) else none
  | .woken => if sh.mtx then none else some ({ sh with mtx := true }, .pred, .quiet)
  | .front =>
    match sh.dataQueue with
    | [] => some (sh, .undefined, .quiet)
    | data :: queue => some ({ sh with dataQueue := queue }, .print data, .quiet)
  | .print data =>
    some ({ sh with cout := sh.cout ++ [.consumed id data sh.dataQueue.length] }, .notify, .quiet)
  | .notify => some (sh, .unlock, .one () ch.wakes)
  | .unlock => some ({ sh with mtx := false }, .lock, .quiet)
  | .undefined => none

/-- The joins of `main`; each loop of joins is one step, taken when the threads have ended. -/
def joins (sh : Shared) : MainPc → Option (Shared × MainPc × Signal Unit)
  | .joinProducers => some (sh, .joinConsumers, .quiet)
  | .joinConsumers => some (sh, .returned, .quiet)
  | .returned => none

def threadStep (sh : Shared) (t : Thread) (ch : Choice) : Option (Shared × Thread × Signal Unit) :=
  match t with
  | .producer id pc => (producer id sh pc ch).map fun r => (r.1, .producer id r.2.1, r.2.2)
  | .consumer id pc => (consumer id sh pc ch).map fun r => (r.1, .consumer id r.2.1, r.2.2)
  | .main pc => (joins sh pc).map fun r => (r.1, .main r.2.1, r.2.2)

/-- Asleep in `cv.wait`. -/
def sleeping : Thread → Bool
  | .consumer _ .sleep => true
  | _ => false

def wake : Thread → Thread
  | .consumer id .sleep => .consumer id .woken
  | t => t

def isProducer : Thread → Bool
  | .producer _ _ => true
  | _ => false

def isConsumer : Thread → Bool
  | .consumer _ _ => true
  | _ => false

/-- `producer` has returned. -/
def finished : Thread → Bool
  | .producer _ .done => true
  | _ => false

/-- A producer is joined when it has returned; a consumer never returns. -/
def joining (ts : List Thread) : Thread → Bool
  | .main .joinProducers => ts.any fun t => isProducer t && !finished t
  | .main .joinConsumers => ts.any isConsumer
  | _ => false

def program : Program Shared Thread Unit Choice := ⟨threadStep, fun _ => sleeping, wake, joining⟩

abbrev Run := World Shared Thread

/-- One step of the program: thread `a.1` makes its next step. -/
def step (s : Run) (a : Nat × Choice) : Option Run := s.step program a

/-- `std::thread p1(producer,1)`, and so on. -/
def producers (n : Nat) : List Thread := (List.range n).map fun k => .producer (k + 1) (.lock 5)

def consumers (m : Nat) : List Thread := (List.range m).map fun k => .consumer (k + 1) .lock

def init (n m : Nat) : Run := ⟨⟨false, [], []⟩, producers n ++ consumers m ++ [.main .joinProducers]⟩

end CppBackend.ProducerConsumer
