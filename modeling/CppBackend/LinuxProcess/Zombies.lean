import CppBackend.LinuxProcess.Model
import CppBackend.Library.Children

/-!
# Children that nobody waits for

The parent of `zombie.cpp` does not wait, and it only ends when it is killed or its last `fork` has failed.  So its
children stay in the table as zombies until then; after that the processes outside wait for everybody.
-/

set_option autoImplicit false

namespace CppBackend.LinuxProcess.Zombie

open Library.Transition Library.Processes

def leaf : Pc → Bool
  | .child | .return0 => true
  | _ => false

theorem leaves (last : Nat) : Leaves (next last) leaf := by
  refine .of_calls (fun pc => ?_) fun pc h => ?_
  · cases pc <;> trivial
  · cases pc <;> trivial

theorem noWait (last : Nat) : NoWait (next last) := by
  intro pc reaped noChild h
  cases pc <;> cases h

/-- What the last `fork` has returned at each program point of the parent. -/
inductive Phase (es : List (Event Line)) : Pc → Prop where
  | fork (i : Nat) : Phase es (.fork i)
  | alive (hl : lastFork es = some true) : Phase es .alive
  | return0 (hl : lastFork es = some false) : Phase es .return0

/-- How the parent has ended. -/
inductive Final (pid : Nat) : List (Event Line) → Prop where
  | forkFailed {es : List (Event Line)} (h : lastFork es = some false) : Final pid (es ++ [.ended pid (.exited 0)])
  | killed (es : List (Event Line)) (sig : Nat) : Final pid (es ++ [.ended pid (.signaled sig)])

variable {last pid ppid : Nat} {pc pc' : Pc} {kids kids' : List (Proc Pc)} {es : List (Event Line)} {e : Event Line}
  {outer : List Nat} {reaper : Nat} {s : System Pc Line}

theorem phase_nextPass (i : Nat) (forked' : Bool) (hl : lastFork es = some forked') :
    Phase es (nextPass last i forked') := by
  unfold nextPass LinuxProcess.nextPass
  split
  · exact .fork _
  · cases forked' with
    | true => exact .alive hl
    | false => exact .return0 hl

theorem phase_step (hI : Phase es pc) (hm : ParentMoves (next last) pid ppid pc kids e pc' kids') :
    Phase (es ++ [e]) pc' := by
  cases hI with
  | fork i =>
    cases hm with
    | fork hn => cases hn; exact phase_nextPass i true (by simp)
    | forkFails hn => cases hn; exact phase_nextPass i false (by simp)
    | reap hn | noChild hn | put hn => cases hn
  | alive hl =>
    cases hm with
    | put hn => cases hn; exact .alive (by simpa using hl)
    | fork hn | forkFails hn | reap hn | noChild hn => cases hn
  | return0 hl =>
    cases hm with
    | fork hn | forkFails hn | reap hn | noChild hn | put hn => cases hn

theorem phase_ends {status : Status} (hI : Phase es pc)
    (hs : (∃ code, next last pc = .exit code ∧ status = .exited code) ∨ ∃ sig, status = .signaled sig) :
    Final pid (es ++ [.ended pid status]) := by
  rcases hs with ⟨code, hn, rfl⟩ | ⟨sig, rfl⟩
  · cases hI with
    | return0 hl => cases hn; exact .forkFailed hl
    | fork | alive => cases hn
  · exact .killed es sig

theorem run_story (hpid : pid ∉ outer) (hppid : ppid ∈ outer) (hreaper : reaper ∈ outer)
    (h : Reach anyStep (step (next last)) (start outer reaper pid ppid (.fork 0)) s) :
    Story leaf pid ppid (fun pc _ es => Phase es pc) (Final pid) s :=
  run_family (leaves last) hpid hppid hreaper (.fork 0) (fun _ _ _ _ hI _ => hI)
    (fun _ _ _ _ _ _ hI hm _ _ => phase_step hI hm)
    (fun _ _ _ _ hI _ hs => phase_ends hI hs) h

/-- **Zombies stay as long as their parent**: while the parent runs, the table is the parent and its children in
    the order of the forks, and each child that has ended is a zombie there.  The parent ends only when it is killed
    or its last `fork` has failed; where a run stops, nobody is left. -/
theorem zombies_stay (last : Nat) (outer : List Nat) (reaper pid ppid : Nat) (hpid : pid ∉ outer) (hppid : ppid ∈ outer)
    (hreaper : reaper ∈ outer) (s : System Pc Line)
    (h : Reach anyStep (step (next last)) (start outer reaper pid ppid (.fork 0)) s) :
    (Stands pid s → pids s.procs = pid :: forked (own pid s.log) ∧
      ∀ child status, .ended child status ∈ s.log → ⟨child, pid, .zombie status⟩ ∈ s.procs) ∧
    (¬ Stands pid s → Final pid (own pid s.log)) ∧
    (Stuck (next last) s → s.procs = []) :=
  ⟨fun hst => unwaited_stay (leaves last) (noWait last) hpid hppid hreaper h hst,
    (run_story hpid hppid hreaper h).final,
    fun hst => ((run_story hpid hppid hreaper h).stuck_nil (leaves last) hst).1⟩

/-- Two children, of which the first has ended. -/
def oneZombie : List Action :=
  [.run 0 (some 11), .run 0 (some 12), .run 1 none, .run 0 none, .run 1 none]

theorem zombies_stay_two :
    let s := (exec (step (next 1)) (start [1, 5] 1 10 5 (.fork 0)) oneZombie).get (by decide)
    (Stands 10 s → pids s.procs = 10 :: forked (own 10 s.log) ∧
      ∀ child status, .ended child status ∈ s.log → ⟨child, 10, .zombie status⟩ ∈ s.procs) ∧
    (¬ Stands 10 s → Final 10 (own 10 s.log)) ∧ (Stuck (next 1) s → s.procs = []) :=
  zombies_stay 1 [1, 5] 1 10 5 (by decide) (by decide) (by decide) _ (exec_reach_get oneZombie (by decide))

end CppBackend.LinuxProcess.Zombie
