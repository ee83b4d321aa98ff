import CppBackend.PoolServer.Steps
import CppBackend.SingleReactor.Callbacks

/-!
# The reactors with their pool

Model of `Cpp_WebPrograming/reactor_server.cpp` and `single_reactor.cpp`, which do the same here: the loop and the
callbacks of `SingleReactor`, and the pool of `threadpool.h`, to which a `Connection` submits the answer to what it
has received.  The lambda captures the number of the connection and the message, not the object, and calls `send`
once.

Left open is how much of a message `send` takes.  Nobody destroys the pool while the loop runs.
-/

set_option autoImplicit false

namespace CppBackend.ReactorServer

open Library.Calls ThreadPool PoolServer

/-- A submitted lambda: what it has captured, and whether it has called `send`. -/
structure Job where
  fd : Nat
  msg : Chunk
  sent : Bool
  deriving DecidableEq, Repr

/-- A call of `send` by a task: the connection that it was applied to, and the bytes that it took. -/
structure Send where
  task : Nat
  hit : Option Nat
  data : List UInt8
  deriving DecidableEq, Repr

structure World where
  pool : Pool
  server : SingleReactor.Server
  /-- What `HandleRead` has received and not submitted yet, with `__fd`. -/
  hand : Option (Nat × Chunk)
  jobs : List Job
  sends : List Send

/-- What `HandleRead` has in its hands behind `recv`. -/
def taken (s : SingleReactor.Server) : SingleReactor.Action → Option (Nat × Chunk)
  | .recv chunk =>
    match s.pc with
    | .handleRead this =>
      match s.objects.cell this with
      | some (.connection fd conn) => if chunk.length = 0 then none else some (fd, ⟨conn, chunk⟩)
      | _ => none
    | _ => none
  | _ => none

/-- The lambda of the task `t`: `send` takes the first bytes, or fails. -/
def task (t : Nat) (w : World) (j : Job) (accepted : Option Nat) : Option (World × Job) :=
  let hit := w.server.process.table.conn j.fd
  if j.sent then none
  else match accepted with
    | none => some ({ w with sends := w.sends ++ [⟨t, hit, []⟩] }, { j with sent := true })
    | some n =>
      if hit.isSome ∧ n ≤ j.msg.data.length then
        some ({ w with sends := w.sends ++ [⟨t, hit, j.msg.data.take n⟩] }, { j with sent := true })
      else none

def isSent (jobs : List Job) (t : Nat) : Bool :=
  match jobs[t]? with
  | none => false
  | some j => j.sent

inductive Action where
  /-- The worker `i`, in `NewThread`. -/
  | worker (i : Nat) (ch : Choice)
  /-- The worker `i`, in the lambda that it runs. -/
  | task (i : Nat) (accepted : Option Nat)
  /-- The loop, in its own code. -/
  | loop (a : SingleReactor.Action)
  /-- The loop calls `pool.submit`. -/
  | call
  /-- The loop, in `submit`. -/
  | submit (ch : Choice)
  deriving DecidableEq, Repr

/-- One step of the pool. -/
def World.poolStep (w : World) (i : Nat) (ch : Choice) : Option World :=
  (ThreadPool.step threadpoolH w.pool (i, ch)).map fun p => { w with pool := p }

/-- One step of any thread; behind the `workers` of the pool comes the thread of the loop. -/
def step (workers : Nat) (w : World) : Action → Option World
  | .worker i ch =>
    match w.pool.threads[i]? with
    | some (.worker (.run t none)) => if isSent w.jobs t && ch == .go then w.poolStep i ch else none
    | some (.worker (.run _ (some _))) => none
    | some (.worker _) => w.poolStep i ch
    | _ => none
  | .task i accepted =>
    match w.pool.threads[i]? with
    | some (.worker (.run t none)) =>
      match w.jobs[t]? with
      | none => none
      | some j => (task t w j accepted).map fun r => { r.1 with jobs := w.jobs.set t r.2 }
    | _ => none
  | .loop a =>
    match w.pool.threads[workers]?, w.hand with
    | some (.client none), none =>
      (SingleReactor.step w.server a).map fun s => { w with server := s, hand := taken w.server a }
    | _, _ => none
  | .call =>
    match w.pool.threads[workers]?, w.hand with
    | some (.client none), some (fd, msg) =>
      World.poolStep { w with jobs := w.jobs ++ [⟨fd, msg, false⟩], hand := none } workers .go
    | _, _ => none
  | .submit ch =>
    match w.pool.threads[workers]? with
    | some (.client (some _)) => w.poolStep workers ch
    | _ => none

/-- Behind the constructor of `TCPServer`. -/
def init (workers listenFd epfd : Nat) (acceptor : Library.Storage.Addr) : World :=
  ⟨ThreadPool.init workers 1, SingleReactor.init listenFd epfd acceptor, none, [], []⟩

end CppBackend.ReactorServer
