import CppBackend.Library.Descriptors
import CppBackend.SubReactors.Model
import CppBackend.ThreadPool.Model

/-!
# Servers that answer from a thread pool

Model of the servers in `Cpp_WebPrograming` that receive in an event loop and answer in a task of
the pool of `threadpool.h`:

* `multithreadReactor` — `multithread_reactor.cpp`: a thread accepts, and each connection belongs
  to one of several sub-reactors, each with a loop of its own; the task only sends;
* `epollthreadTp` — `epollthread_tp.cpp`: one loop; the task tests `is_running`, sends, and closes
  the number under the server's `mtx` if the send fails;
* `epollthreadTpet` — `epollthread_tpet.cpp`: the loop reads until nothing is left; the task holds
  `mtx` while it sends;
* `pollthreadTp` — `pollthread_tp.cpp`: `poll` instead of `epoll`; the task never closes.

The pool is the one of `ThreadPool.Model`: its client threads are the loops and its waiter is the
caller of `stop()`.  A task captures a descriptor number, not a connection; `jobs` holds, under the
number of the task, what it captured and where its lambda is.  The descriptors that a loop finds
ready are left open, and so is what the kernel does with a call, and when a loop notices that
`is_running` has been cleared: it may go on.  No task submits a task, and the pool is not destroyed
here.

The log `received` has the chunks in the order of the `recv` calls, `acts` the calls that tasks
make on their number, each with the connection that it was applied to.
-/

set_option autoImplicit false

namespace CppBackend.PoolServer

open Library.Descriptors ThreadPool

/-- Where the servers differ. -/
structure Server where
  workers : Nat
  loops : Nat
  /-- A thread of its own accepts; the loops have no mutex. -/
  acceptor : Bool
  /-- `epoll_ctl` may refuse a new client; with `poll`, an error is an event of its own. -/
  epoll : Bool
  /-- `client_communicate` reads until `recv` has nothing more. -/
  drain : Bool
  /-- The third argument of `recv`. -/
  bufferSize : Nat
  /-- The task begins with `if(is_running)`. -/
  runTest : Bool
  /-- The task locks `mtx` before it sends. -/
  sendLock : Bool
  /-- The task closes the number when `send` fails. -/
  closeOnFail : Bool
  /-- What the task sends, for the chunks of the message. -/
  response : List (List UInt8) → List UInt8

/-- A buffer as a string: it ends at the first NUL. -/
def cString (chunk : List UInt8) : List UInt8 := chunk.takeWhile (· ≠ 0)

/-- With `sub_reactor_num` sub-reactors, at least one. -/
def multithreadReactor (workers loops : Nat) : Server where
  workers := workers
  loops := max loops 1
  acceptor := true
  epoll := true
  drain := false
  bufferSize := 1024
  runTest := false
  sendLock := false
  closeOnFail := false
  response := List.flatten

def epollthreadTp (workers : Nat) : Server where
  workers := workers
  loops := 1
  acceptor := false
  epoll := true
  drain := false
  bufferSize := 1023
  runTest := true
  sendLock := false
  closeOnFail := true
  response chunks := "Server received message : ".toUTF8.data.toList ++ chunks.flatMap cString

def epollthreadTpet (workers : Nat) : Server where
  workers := workers
  loops := 1
  acceptor := false
  epoll := true
  drain := true
  bufferSize := 1023
  runTest := true
  sendLock := true
  closeOnFail := true
  response chunks := "Server received message : ".toUTF8.data.toList ++ chunks.flatMap cString

def pollthreadTp (workers : Nat) : Server where
  workers := workers
  loops := 1
  acceptor := false
  epoll := false
  drain := false
  bufferSize := 1023
  runTest := true
  sendLock := false
  closeOnFail := false
  response chunks := "Server received: ".toUTF8.data.toList ++ chunks.flatten

/-- What one `recv` returned, and the connection it came from. -/
structure Chunk where
  conn : Nat
  data : List UInt8
  deriving DecidableEq, Repr

/-- Program points of an event loop. -/
inductive LoopPc where
  | top
  /-- `new_client` has accepted; about to lock `mtx`. -/
  | newLock (fd : Nat)
  /-- Holds `mtx`, about to register the client. -/
  | newAdd (fd : Nat)
  | newUnlock
  /-- About to `recv`; has read `parts` so far. -/
  | recv (fd : Nat) (parts : List Chunk)
  /-- About to lock `mtx` and close the number. -/
  | closeLock (fd : Nat)
  | closeFd (fd : Nat)
  | closeUnlock
  /-- About to call `pool.submit`. -/
  | submit (fd : Nat) (parts : List Chunk)
  deriving DecidableEq, Repr

/-- Program points of the task. -/
inductive TaskPc where
  /-- About to test `is_running`. -/
  | test
  | lock
  | send
  /-- The send has failed; about to lock `mtx`. -/
  | closeLock
  | close
  | unlock
  | done
  /-- `is_running` was false. -/
  | skipped
  deriving DecidableEq, Repr

/-- A task: the captured variables, and the program point of the lambda. -/
structure Job where
  fd : Nat
  parts : List Chunk
  pc : TaskPc
  deriving DecidableEq, Repr

inductive Call where
  | send
  | close
  deriving DecidableEq, Repr

/-- A call that a task makes on its number, the connection that it is applied to, and the bytes
written. -/
structure Act where
  task : Nat
  call : Call
  hit : Option Nat
  data : List UInt8
  deriving DecidableEq, Repr

/-- The members of `TCPServer`, the descriptors of the process, and the logs. -/
structure Host where
  table : Table
  isRunning : Bool
  mtx : Bool
  received : List Chunk
  acts : List Act

/-- The call of `stop()`. -/
inductive Stop where
  | idle
  /-- `is_running` is false; waits for `task_count == 0`. -/
  | waiting
  | returned
  deriving DecidableEq, Repr

structure World where
  pool : Pool
  host : Host
  jobs : List Job
  loops : List LoopPc
  stop : Stop

/-- What an event loop finds. -/
inductive Event where
  /-- The number that `accept` returns. -/
  | accept (fd : Nat)
  | ready (fd : Nat)
  /-- `POLLERR`, `POLLHUP` or `POLLNVAL`. -/
  | hangUp (fd : Nat)
  /-- `recv` returns the bytes. -/
  | data (chunk : List UInt8)
  /-- `recv` returns 0 or -1; then `errno` is `EAGAIN` or not. -/
  | noData (again : Bool)
  /-- `epoll_ctl` fails. -/
  | refused
  | go
  deriving DecidableEq, Repr

def emptyInput : List UInt8 := "[EMPTY INPUT]".toUTF8.data.toList

/-- `recv_msg` is empty, or the text that stands for it. -/
def blank (parts : List Chunk) : Bool :=
  let msg := parts.flatMap fun p => cString p.data
  msg.isEmpty || msg == emptyInput

/-- The loop `k` handles the descriptor: with sub-reactors, the one that `getNextSubReactor` returned when
the connection was accepted. -/
def handles (v : Server) (k : Nat) (t : Table) (fd : Nat) : Bool :=
  if v.acceptor then
    match t.conn fd with
    | none => false
    | some c => SubReactors.subReactor v.loops c == k
  else true

/-- `epoll_loop`, `poll_loop` or `EpollEventLoop::loop` with the functions that it calls, one step;
`pool.submit` is not here. -/
def loop (v : Server) (k : Nat) (h : Host) : LoopPc → Event → Option (Host × LoopPc)
  | .top, .accept fd =>
    if v.acceptor then none
    else match h.table.conn fd with
      | none => some ({ h with table := h.table.accept fd }, .newLock fd)
      | some _ => none
  | .top, .ready fd => if handles v k h.table fd then some (h, .recv fd []) else none
  | .top, .hangUp fd => if v.epoll then none else some (h, .closeLock fd)
  | .newLock fd, .go => if h.mtx then none else some ({ h with mtx := true }, .newAdd fd)
  | .newAdd _, .go => some (h, .newUnlock)
  | .newAdd fd, .refused =>
    if v.epoll then some ({ h with table := h.table.close fd }, .newUnlock) else none
  | .newUnlock, .go => some ({ h with mtx := false }, .top)
  | .recv fd parts, .data chunk =>
    match h.table.conn fd with
    | none => none
    | some c =>
      if 0 < chunk.length ∧ chunk.length ≤ v.bufferSize then
        some ({ h with received := h.received ++ [⟨c, chunk⟩] },
          if v.drain then .recv fd (parts ++ [⟨c, chunk⟩]) else .submit fd (parts ++ [⟨c, chunk⟩]))
      else none
  | .recv fd parts, .noData again =>
    if v.drain && again && !blank parts then some (h, .submit fd parts)
    else if v.acceptor then some ({ h with table := h.table.close fd }, .top)
    else some (h, .closeLock fd)
  | .closeLock fd, .go => if h.mtx then none else some ({ h with mtx := true }, .closeFd fd)
  | .closeFd fd, .go => some ({ h with table := h.table.close fd }, .closeUnlock)
  | .closeUnlock, .go => some ({ h with mtx := false }, .top)
  | _, _ => none

/-- The start of the task. -/
def entry (v : Server) : TaskPc := if v.runTest then .test else if v.sendLock then .lock else .send

/-- What the task does behind its send. -/
def afterSend (v : Server) (ok : Bool) : TaskPc :=
  if v.closeOnFail && !ok then (if v.sendLock then .close else .closeLock)
  else if v.sendLock then .unlock else .done

/-- The lambda of the task `t`, one step; `ok` tells whether a `send` succeeds. -/
def task (v : Server) (t : Nat) (h : Host) (j : Job) (ok : Bool) : Option (Host × Job) :=
  match j.pc with
  | .test =>
    some (h, { j with
      pc := if h.isRunning then (if v.sendLock then .lock else .send) else .skipped })
  | .lock => if h.mtx then none else some ({ h with mtx := true }, { j with pc := .send })
  | .send =>
    if ok && (h.table.conn j.fd).isNone then none
    else some ({ h with acts := h.acts ++ [⟨t, .send, h.table.conn j.fd,
        if ok then v.response (j.parts.map Chunk.data) else []⟩] }, { j with pc := afterSend v ok })
  | .closeLock => if h.mtx then none else some ({ h with mtx := true }, { j with pc := .close })
  | .close =>
    some ({ h with table := h.table.close j.fd
                   acts := h.acts ++ [⟨t, .close, h.table.conn j.fd, []⟩] }, { j with pc := .unlock })
  | .unlock => some ({ h with mtx := false }, { j with pc := .done })
  | .done | .skipped => none

def TaskPc.isOver : TaskPc → Bool
  | .done | .skipped => true
  | _ => false

/-- The task `t` has returned. -/
def isOver (jobs : List Job) (t : Nat) : Bool :=
  match jobs[t]? with
  | none => false
  | some j => j.pc.isOver

/-- The thread of the pool that runs the loop `k`, and the one that runs `stop()`. -/
def Server.loopThread (v : Server) (k : Nat) : Nat := v.workers + k

def Server.stopThread (v : Server) : Nat := v.workers + v.loops + 1

inductive Action where
  /-- The worker `i`, in `NewThread`. -/
  | worker (i : Nat) (ch : Choice)
  /-- The worker `i`, in the task that it runs. -/
  | task (i : Nat) (ok : Bool)
  /-- The loop `k`, in its own code. -/
  | loop (k : Nat) (e : Event)
  /-- The loop `k` calls `pool.submit`. -/
  | call (k : Nat)
  /-- The loop `k`, in `submit`. -/
  | submit (k : Nat) (ch : Choice)
  /-- `HandleAccept` of the accepting thread. -/
  | accept (fd : Nat)
  /-- `stop()` is called and clears `is_running`. -/
  | stop
  /-- `stop()`, in its wait. -/
  | wait
  deriving DecidableEq, Repr

/-- One step of the pool. -/
def World.poolStep (w : World) (i : Nat) (ch : Choice) : Option World :=
  (step threadpoolH w.pool (i, ch)).map fun p => { w with pool := p }

/-- One step of any thread. -/
def step (v : Server) (w : World) : Action → Option World
  | .worker i ch =>
    match w.pool.threads[i]? with
    | some (.worker (.run t none)) => if isOver w.jobs t && ch == .go then w.poolStep i ch else none
    | some (.worker (.run _ (some _))) => none
    | some (.worker _) => w.poolStep i ch
    | _ => none
  | .task i ok =>
    match w.pool.threads[i]? with
    | some (.worker (.run t none)) =>
      match w.jobs[t]? with
      | none => none
      | some j => (task v t w.host j ok).map fun r =>
          { w with host := r.1, jobs := w.jobs.set t r.2 }
    | _ => none
  | .loop k e =>
    match w.pool.threads[v.loopThread k]?, w.loops[k]? with
    | some (.client none), some l => (loop v k w.host l e).map fun r =>
        { w with host := r.1, loops := w.loops.set k r.2 }
    | _, _ => none
  | .call k =>
    match w.pool.threads[v.loopThread k]?, w.loops[k]? with
    | some (.client none), some (.submit fd parts) =>
      World.poolStep { w with jobs := w.jobs ++ [⟨fd, parts, entry v⟩], loops := w.loops.set k .top }
        (v.loopThread k) .go
    | _, _ => none
  | .submit k ch =>
    match w.pool.threads[v.loopThread k]? with
    | some (.client (some _)) => w.poolStep (v.loopThread k) ch
    | _ => none
  | .accept fd =>
    if v.acceptor then
      match w.host.table.conn fd with
      | none => some { w with host := { w.host with table := w.host.table.accept fd } }
      | some _ => none
    else none
  | .stop =>
    match w.stop, w.pool.threads[v.stopThread]? with
    | .idle, some (.waiter .idle) =>
      World.poolStep { w with host := { w.host with isRunning := false }, stop := .waiting }
        v.stopThread .go
    | _, _ => none
  | .wait =>
    match w.stop, w.pool.threads[v.stopThread]? with
    | .waiting, some (.waiter x) =>
      World.poolStep { w with stop := if x == .returned then .returned else .waiting }
        v.stopThread .go
    | _, _ => none

def init (v : Server) : World :=
  ⟨ThreadPool.init v.workers v.loops, ⟨.empty, true, false, [], []⟩, [],
    List.replicate v.loops .top, .idle⟩

end CppBackend.PoolServer
