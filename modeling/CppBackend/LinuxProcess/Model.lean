import CppBackend.Library.Processes

/-!
# Programs that fork

Model of the programs in `Linux_Process`, each by its program points and the call that it makes at each of them.

* `Waitpid`, `Zombie`, `Repeat` — `waitpid.cpp`, `zombie.cpp` and `createprocessrepeat.cpp` call `fork` in a loop
  that a child leaves at once.  The bound of the loop is a parameter: `last` is the value of `i` in the last pass.
* `Wait` — `wait.cpp`, with one child;
* `Orphan` — `orphan.cpp`, whose parent does not wait.

What a program does behind the loop depends on the result of the last `fork` only, and so do the program points
behind it.  `sleep` is left out: a process may always be late.
-/

set_option autoImplicit false

namespace CppBackend.LinuxProcess

open Library.Processes

/-- `++i` and the test of the loop. -/
def nextPass {τ : Type} (fork : Nat → τ) (last i : Nat) (behind : τ) : τ := if i < last then fork (i + 1) else behind

/-! ## `waitpid.cpp` -/

namespace Waitpid

inductive Pc where
  /-- About to call `fork` in the pass for `i`. -/
  | fork (i : Nat)
  | waitpid
  /-- `waitpid` has returned `ret`. -/
  | printRet (ret : Nat) (status : Status)
  | printStatus (status : Status)
  | printSelf
  /-- `waitpid` has failed. -/
  | printFailed
  /-- Behind the loop, `pid == 0`. -/
  | child
  | return0
  deriving DecidableEq, Repr

inductive Line where
  /-- `"成功回收了子进程资源, 子进程PID: %d\n"`. -/
  | reaped (ret : Nat)
  /-- `"子进程退出时候的状态码: %d\n"`. -/
  | exitStatus (code : Nat)
  /-- `"子进程是被这个信号杀死的: %d\n"`. -/
  | termSig (sig : Nat)
  /-- `"我是父进程, pid=%d\n"`. -/
  | parent (pid : Nat)
  /-- `"回收失败, 或者是已经没有子进程了...\n"`. -/
  | failed
  /-- `"===我是子进程, pid=%d, 父进程ID: %d\n"`. -/
  | child (pid ppid : Nat)
  deriving DecidableEq, Repr

/-- Behind the loop, the tests of `pid`, which is positive or -1. -/
def nextPass (last i : Nat) (forked : Bool) : Pc :=
  LinuxProcess.nextPass .fork last i (if forked then .waitpid else .return0)

def statusLine : Status → Line
  | .exited code => .exitStatus code
  | .signaled sig => .termSig sig

def next (last : Nat) : Pc → Call Pc Line
  | .fork i => .fork .child (fun _ => nextPass last i true) (nextPass last i false)
  | .waitpid => .wait .printRet .printFailed
  | .printRet ret status => .put (fun _ _ => .reaped ret) (.printStatus status)
  | .printStatus status => .put (fun _ _ => statusLine status) .printSelf
  | .printSelf => .put (fun pid _ => .parent pid) .waitpid
  | .printFailed => .put (fun _ _ => .failed) .return0
  | .child => .put .child .return0
  | .return0 => .exit 0

end Waitpid

/-! ## `zombie.cpp` -/

namespace Zombie

inductive Pc where
  | fork (i : Nat)
  /-- In the endless loop of the parent. -/
  | alive
  | child
  | return0
  deriving DecidableEq, Repr

inductive Line where
  /-- `"我是父进程, pid=%d\n"`. -/
  | parent (pid : Nat)
  /-- `"我是子进程, pid=%d, 父进程ID: %d\n"`. -/
  | child (pid ppid : Nat)
  deriving DecidableEq, Repr

def nextPass (last i : Nat) (forked : Bool) : Pc :=
  LinuxProcess.nextPass .fork last i (if forked then .alive else .return0)

def next (last : Nat) : Pc → Call Pc Line
  | .fork i => .fork .child (fun _ => nextPass last i true) (nextPass last i false)
  | .alive => .put (fun pid _ => .parent pid) .alive
  | .child => .put .child .return0
  | .return0 => .exit 0

end Zombie

/-! ## `createprocessrepeat.cpp` -/

namespace Repeat

inductive Pc where
  | fork (i : Nat)
  /-- `fork` has returned `pid`, `none` is -1. -/
  | created (i : Nat) (pid : Option Nat)
  | return0
  deriving DecidableEq, Repr

inductive Line where
  /-- `"created process " << i << " with PID: " << pid`. -/
  | created (i : Nat) (pid : Option Nat)
  deriving DecidableEq, Repr

def nextPass (last i : Nat) : Pc := LinuxProcess.nextPass .fork last i .return0

/-- The loop begins with `i = 1`. -/
def first (last : Nat) : Pc := nextPass last 0

def next (last : Nat) : Pc → Call Pc Line
  | .fork i => .fork .return0 (fun pid => .created i (some pid)) (.created i none)
  | .created i pid => .put (fun _ _ => .created i pid) (nextPass last i)
  | .return0 => .exit 0

end Repeat

/-! ## `wait.cpp` -/

namespace Wait

inductive Pc where
  | fork
  /-- `fork` has failed. -/
  | perrorFork
  | childRuns
  | childEnds
  | childExit
  /-- `fork` has returned `pid` to the parent. -/
  | waits (pid : Nat)
  | wait
  | perrorWait
  | recycled (recycledPid : Nat)
  | exitFailure
  | return0
  deriving DecidableEq, Repr

inductive Line where
  /-- `perror("fork failed")`. -/
  | forkFailed
  /-- `"子进程（PID：" << getpid() << "）正在运行，即将退出..."`. -/
  | childRuns (pid : Nat)
  /-- `"子进程（PID：" << getpid() << "）已退出"`. -/
  | childEnds (pid : Nat)
  /-- `"父进程（PID：" << getpid() << "）等待子进程（PID：" << pid << "）回收..."`. -/
  | waits (self pid : Nat)
  /-- `perror("wait failed")`. -/
  | waitFailed
  /-- `"父进程成功回收子进程（PID：" << recycled_pid << "），无僵尸进程"`. -/
  | recycled (recycledPid : Nat)
  deriving DecidableEq, Repr

def next : Pc → Call Pc Line
  | .fork => .fork .childRuns .waits .perrorFork
  | .perrorFork => .put (fun _ _ => .forkFailed) .exitFailure
  | .childRuns => .put (fun pid _ => .childRuns pid) .childEnds
  | .childEnds => .put (fun pid _ => .childEnds pid) .childExit
  | .childExit => .exit 0
  | .waits pid => .put (fun self _ => .waits self pid) .wait
  | .wait => .wait (fun recycledPid _ => .recycled recycledPid) .perrorWait
  | .perrorWait => .put (fun _ _ => .waitFailed) .exitFailure
  | .recycled recycledPid => .put (fun _ _ => .recycled recycledPid) .return0
  | .exitFailure => .exit 1
  | .return0 => .exit 0

end Wait

/-! ## `orphan.cpp` -/

namespace Orphan

inductive Pc where
  | fork
  | parent
  | child
  /-- Behind `sleep(2)`. -/
  | orphaned
  | return0
  deriving DecidableEq, Repr

inductive Line where
  /-- `"This is the parent process. Parent Process ID: " << getpid()`. -/
  | parent (pid : Nat)
  /-- `"This is the child process. Child Process ID: " << getpid() << " Parent Process ID: " << getppid()`. -/
  | child (pid ppid : Nat)
  /-- `"Orphaned Child Process ID: " << getpid() << " New Parent Process ID: " << getppid()`. -/
  | orphaned (pid ppid : Nat)
  deriving DecidableEq, Repr

def next : Pc → Call Pc Line
  | .fork => .fork .child (fun _ => .parent) .return0
  | .parent => .put (fun pid _ => .parent pid) .return0
  | .child => .put .child .orphaned
  | .orphaned => .put .orphaned .return0
  | .return0 => .exit 0

end Orphan

end CppBackend.LinuxProcess
