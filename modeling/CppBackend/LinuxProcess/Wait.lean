import CppBackend.LinuxProcess.Model
import CppBackend.Library.Families

/-!
# One child and its parent

The parent of `wait.cpp` forks once and waits once, so the child that it has waited for is the one that it has
forked, and `wait` does not fail: the branch that reports a failure of `wait` is not reached.
-/

set_option autoImplicit false

namespace CppBackend.LinuxProcess.Wait

open Library.Transition Library.Processes

def leaf : Pc → Bool
  | .childRuns | .childEnds | .childExit | .exitFailure | .return0 => true
  | _ => false

theorem leaves : Leaves next leaf := by
  refine .of_calls (fun pc => ?_) fun pc h => ?_
  · cases pc <;> trivial
  · cases pc <;> trivial

/-- All that the parent does when `fork` fails. -/
def failure (pid : Nat) : List (Event Line) := [.forkFailed pid, .printed pid .forkFailed]

/-- All that it does otherwise. -/
def success (pid child : Nat) (status : Status) : List (Event Line) :=
  [.forked pid child, .printed pid (.waits pid child), .reaped pid child status, .printed pid (.recycled child)]

/-- What the parent has done at each of its program points. -/
inductive Phase (pid : Nat) : List (Event Line) → Pc → Prop where
  | fork : Phase pid [] .fork
  | perrorFork : Phase pid [.forkFailed pid] .perrorFork
  | exitFailure : Phase pid (failure pid) .exitFailure
  | waits (child : Nat) : Phase pid [.forked pid child] (.waits child)
  | wait (child : Nat) : Phase pid [.forked pid child, .printed pid (.waits pid child)] .wait
  | recycled (child : Nat) (status : Status) :
      Phase pid [.forked pid child, .printed pid (.waits pid child), .reaped pid child status] (.recycled child)
  | return0 (child : Nat) (status : Status) : Phase pid (success pid child status) .return0

/-- The parent is on one of its two ways. -/
def OnTheWay (pid : Nat) (es : List (Event Line)) : Prop :=
  es <+: failure pid ∨ ∃ child status, es <+: success pid child status

/-- What the parent has done when it has ended. -/
inductive Final (pid : Nat) : List (Event Line) → Prop where
  | failed : Final pid (failure pid ++ [.ended pid (.exited 1)])
  | returned (child : Nat) (status : Status) : Final pid (success pid child status ++ [.ended pid (.exited 0)])
  | killed {es : List (Event Line)} (sig : Nat) (h : OnTheWay pid es) : Final pid (es ++ [.ended pid (.signaled sig)])

variable {pid ppid : Nat} {pc pc' : Pc} {kids kids' : List (Proc Pc)} {es : List (Event Line)} {e : Event Line}
  {outer : List Nat} {reaper : Nat} {s : System Pc Line}

theorem Phase.onTheWay (h : Phase pid es pc) : OnTheWay pid es := by
  cases h with
  | fork => exact Or.inl (List.nil_prefix)
  | perrorFork => exact Or.inl ⟨_, rfl⟩
  | exitFailure => exact Or.inl (List.prefix_refl _)
  | waits child => exact Or.inr ⟨child, .exited 0, _, rfl⟩
  | wait child => exact Or.inr ⟨child, .exited 0, _, rfl⟩
  | recycled child status => exact Or.inr ⟨child, status, _, rfl⟩
  | return0 child status => exact Or.inr ⟨child, status, List.prefix_refl _⟩

theorem phase_step (hI : Phase pid es pc) (hacc : (pids kids' ++ waited (es ++ [e])).Perm (forked (es ++ [e])))
    (hm : ParentMoves next pid ppid pc kids e pc' kids') : Phase pid (es ++ [e]) pc' := by
  cases hI with
  | fork =>
    cases hm with
    | fork hn => cases hn; exact .waits _
    | forkFails hn => cases hn; exact .perrorFork
    | reap hn | noChild hn | put hn => cases hn
  | perrorFork =>
    cases hm with
    | put hn => cases hn; exact .exitFailure
    | fork hn | forkFails hn | reap hn | noChild hn => cases hn
  | waits child =>
    cases hm with
    | put hn => cases hn; exact .wait child
    | fork hn | forkFails hn | reap hn | noChild hn => cases hn
  | wait child =>
    cases hm with
    | @reap noChild reaped j child' status hn hj =>
      cases hn
      -- Whoever has been waited for has been forked.
      have hmem : child' ∈ [child] := hacc.mem_iff.mp (List.mem_append_right _ List.mem_cons_self)
      have heq : child' = child := List.mem_singleton.mp hmem
      subst heq
      exact .recycled _ status
    | noChild hn h =>
      subst h
      cases hacc.length_eq
    | fork hn | forkFails hn | put hn => cases hn
  | recycled child status =>
    cases hm with
    | put hn => cases hn; exact .return0 child status
    | fork hn | forkFails hn | reap hn | noChild hn => cases hn
  | exitFailure | return0 =>
    cases hm with
    | fork hn | forkFails hn | reap hn | noChild hn | put hn => cases hn

theorem phase_ends {status : Status} (hI : Phase pid es pc)
    (hs : (∃ code, next pc = .exit code ∧ status = .exited code) ∨ ∃ sig, status = .signaled sig) :
    Final pid (es ++ [.ended pid status]) := by
  rcases hs with ⟨code, hn, rfl⟩ | ⟨sig, rfl⟩
  · cases hI with
    | exitFailure => cases hn; exact .failed
    | return0 child status => cases hn; exact .returned child status
    | fork | perrorFork | waits | wait | recycled => cases hn
  · exact .killed sig hI.onTheWay

theorem run_story (hpid : pid ∉ outer) (hppid : ppid ∈ outer) (hreaper : reaper ∈ outer)
    (h : Reach anyStep (step next) (start outer reaper pid ppid .fork) s) :
    Story leaf pid ppid (fun pc _ es => Phase pid es pc) (Final pid) s :=
  run_family leaves hpid hppid hreaper .fork (fun _ _ _ _ hI _ => hI)
    (fun _ _ _ _ _ _ hI hm _ ha => phase_step hI ha hm)
    (fun _ _ _ _ hI _ hs => phase_ends hI hs) h

def cost : Pc → Nat
  | .fork => 10
  | .waits _ => 5
  | .wait | .childRuns => 4
  | .perrorFork | .perrorWait | .recycled _ | .childEnds => 3
  | .childExit | .exitFailure | .return0 => 2

theorem costs : Costs next cost 1 := by
  refine ⟨by omega, ?_, ?_, ?_, ?_⟩
  · intro pc inChild inParent failed h
    cases pc <;> cases h
    exact ⟨fun child => by simp [cost], by simp [cost]⟩
  · intro pc reaped noChild h
    cases pc <;> cases h
    exact ⟨fun child status => by simp [cost], by simp [cost]⟩
  · intro pc line pc' h
    cases pc <;> cases h <;> simp [cost]
  · intro pc
    cases pc <;> simp [cost]

/-- The child prints and ends, the parent waits for it, and the shell for the parent. -/
def oneChild : List Action :=
  [.run 0 (some 11), .run 1 none, .run 1 none, .run 0 none, .run 1 none, .run 0 (some 1), .run 0 none, .run 0 none,
    .adopt 0]

end CppBackend.LinuxProcess.Wait
