import CppBackend.LinuxProcess.Model
import CppBackend.Library.Families

/-!
# What `waitpid.cpp` waits for

The parent waits until it has no more children, but it only begins to wait if its last `fork` has succeeded.
So when it returns, it has waited for every child and reported its status, or its last `fork` has failed and it
has waited for none (`Done`).  Either way nobody is left when everything has come to its end.
-/

set_option autoImplicit false

namespace CppBackend.LinuxProcess.Waitpid

open Library.Transition Library.Processes

def leaf : Pc → Bool
  | .child | .return0 => true
  | _ => false

theorem leaves (last : Nat) : Leaves (next last) leaf := by
  refine .of_calls (fun pc => ?_) fun pc h => ?_
  · cases pc <;> trivial
  · cases pc <;> trivial

/-- The children that the parent has waited for, with what `waitpid` has reported. -/
def reapings (es : List (Event Line)) : List (Nat × Status) :=
  es.filterMap fun e => match e with
    | .reaped _ child status => some (child, status)
    | _ => none

/-- The lines about one child. -/
def report (pid : Nat) (r : Nat × Status) : List Line := [.reaped r.1, statusLine r.2, .parent pid]

/-- What the parent has done when it returns. -/
inductive Done (pid : Nat) (es : List (Event Line)) : Prop where
  | waited (hl : lastFork es = some true) (hw : (waited es).Perm (forked es)) (hd : (forked es).Nodup)
      (ho : lines es = (reapings es).flatMap (report pid) ++ [.failed])
  | forkFailed (hl : lastFork es = some false) (hw : reapings es = []) (ho : lines es = [])

/-- What the parent has done when it has ended. -/
inductive Final (pid : Nat) : List (Event Line) → Prop where
  | returned {es : List (Event Line)} (h : Done pid es) : Final pid (es ++ [.ended pid (.exited 0)])
  | killed (es : List (Event Line)) (sig : Nat) : Final pid (es ++ [.ended pid (.signaled sig)])

/-- What the parent has done at each of its program points. -/
inductive Phase (pid : Nat) (es : List (Event Line)) : Pc → Prop where
  | fork (i : Nat) (hw : reapings es = []) (ho : lines es = []) (hd : (forked es).Nodup) : Phase pid es (.fork i)
  | waitpid (hl : lastFork es = some true) (ho : lines es = (reapings es).flatMap (report pid))
      (hd : (forked es).Nodup) : Phase pid es .waitpid
  | printRet {rs : List (Nat × Status)} (ret : Nat) (status : Status) (hl : lastFork es = some true)
      (hr : reapings es = rs ++ [(ret, status)]) (ho : lines es = rs.flatMap (report pid)) (hd : (forked es).Nodup) :
      Phase pid es (.printRet ret status)
  | printStatus {rs : List (Nat × Status)} {ret : Nat} (status : Status) (hl : lastFork es = some true)
      (hr : reapings es = rs ++ [(ret, status)]) (ho : lines es = rs.flatMap (report pid) ++ [.reaped ret])
      (hd : (forked es).Nodup) : Phase pid es (.printStatus status)
  | printSelf {rs : List (Nat × Status)} {ret : Nat} {status : Status} (hl : lastFork es = some true)
      (hr : reapings es = rs ++ [(ret, status)])
      (ho : lines es = rs.flatMap (report pid) ++ [.reaped ret, statusLine status]) (hd : (forked es).Nodup) :
      Phase pid es .printSelf
  | printFailed (hl : lastFork es = some true) (hw : (waited es).Perm (forked es))
      (ho : lines es = (reapings es).flatMap (report pid)) (hd : (forked es).Nodup) : Phase pid es .printFailed
  | return0 (h : Done pid es) : Phase pid es .return0

/-! ## One more event -/

section Events

variable (es : List (Event Line)) (pid child : Nat) (status : Status)

@[simp] theorem reapings_forked : reapings (es ++ [.forked pid child]) = reapings es := by simp [reapings]

@[simp] theorem reapings_forkFailed : reapings (es ++ [.forkFailed pid]) = reapings es := by simp [reapings]

@[simp] theorem reapings_printed (l : Line) : reapings (es ++ [.printed pid l]) = reapings es := by simp [reapings]

@[simp] theorem reapings_noChild : reapings (es ++ [.noChild pid]) = reapings es := by simp [reapings]

@[simp] theorem reapings_reaped :
    reapings (es ++ [.reaped pid child status]) = reapings es ++ [(child, status)] := by simp [reapings]

theorem waited_eq : waited es = (reapings es).map Prod.fst := by
  induction es with
  | nil => rfl
  | cons e es ih =>
    cases e with
    | reaped p c st => exact congrArg (c :: ·) ih
    | forked | forkFailed | printed | ended | noChild => exact ih

end Events

/-! ## The phases of a run -/

variable {last pid ppid : Nat} {pc pc' : Pc} {kids kids' : List (Proc Pc)} {es : List (Event Line)} {e : Event Line}

/-- Behind a pass of the loop. -/
theorem phase_nextPass (i : Nat) (forked' : Bool) (hw : reapings es = []) (ho : lines es = [])
    (hd : (forked es).Nodup) (hl : lastFork es = some forked') : Phase pid es (nextPass last i forked') := by
  unfold nextPass LinuxProcess.nextPass
  split
  · exact .fork _ hw ho hd
  · cases forked' with
    | true => exact .waitpid hl (by rw [ho, hw]; rfl) hd
    | false => exact .return0 (.forkFailed hl hw ho)

theorem phase_step (hI : Phase pid es pc) (hm : ParentMoves (next last) pid ppid pc kids e pc' kids')
    (hdist : (pids kids').Nodup) (hacc : (pids kids' ++ waited (es ++ [e])).Perm (forked (es ++ [e]))) :
    Phase pid (es ++ [e]) pc' := by
  cases hI with
  | fork i hw ho hd =>
    cases hm with
    | @fork inChild failed inParent child hn =>
      cases hn
      have hnone : waited (es ++ [.forked pid child]) = [] := by rw [waited_eq, reapings_forked, hw]; rfl
      rw [hnone, List.append_nil] at hacc
      exact phase_nextPass i true (by simp [hw]) (by simp [ho]) (hacc.nodup_iff.mp hdist) (by simp)
    | forkFails hn =>
      cases hn
      exact phase_nextPass i false (by simp [hw]) (by simp [ho]) (by simpa using hd) (by simp)
    | reap hn | noChild hn | put hn => cases hn
  | waitpid hl ho hd =>
    cases hm with
    | @reap noChild reaped j child status hn hj =>
      cases hn
      exact .printRet child status (by simp [hl]) (reapings_reaped es pid child status) (by simp [ho])
        (by simpa using hd)
    | noChild hn h =>
      cases hn
      subst h
      exact .printFailed (by simp [hl]) hacc (by simp [ho]) (by simpa using hd)
    | fork hn | forkFails hn | put hn => cases hn
  | printRet ret status hl hr ho hd =>
    cases hm with
    | put hn =>
      cases hn
      exact .printStatus status (by simp [hl]) (by rw [reapings_printed, hr]) (by simp [ho]) (by simpa using hd)
    | fork hn | forkFails hn | reap hn | noChild hn => cases hn
  | printStatus status hl hr ho hd =>
    cases hm with
    | put hn =>
      cases hn
      exact .printSelf (by simp [hl]) (by rw [reapings_printed, hr]) (by simp [ho]) (by simpa using hd)
    | fork hn | forkFails hn | reap hn | noChild hn => cases hn
  | printSelf hl hr ho hd =>
    cases hm with
    | put hn =>
      cases hn
      refine .waitpid (by simp [hl]) ?_ (by simpa using hd)
      rw [lines_printed, reapings_printed, ho, hr, List.flatMap_append]
      simp [report]
    | fork hn | forkFails hn | reap hn | noChild hn => cases hn
  | printFailed hl hw ho hd =>
    cases hm with
    | put hn =>
      cases hn
      exact .return0 (.waited (by simp [hl]) (by simpa using hw) (by simpa using hd) (by simp [ho]))
    | fork hn | forkFails hn | reap hn | noChild hn => cases hn
  | return0 h =>
    cases hm with
    | fork hn | forkFails hn | reap hn | noChild hn | put hn => cases hn

theorem phase_ends {status : Status} (hI : Phase pid es pc)
    (hs : (∃ code, next last pc = .exit code ∧ status = .exited code) ∨ ∃ sig, status = .signaled sig) :
    Final pid (es ++ [.ended pid status]) := by
  rcases hs with ⟨code, hn, rfl⟩ | ⟨sig, rfl⟩
  · cases hI with
    | return0 h =>
      cases hn
      exact .returned h
    | fork | waitpid | printRet | printStatus | printSelf | printFailed => cases hn
  · exact .killed es sig

variable {outer : List Nat} {reaper : Nat} {s : System Pc Line}

theorem run_story (hpid : pid ∉ outer) (hppid : ppid ∈ outer) (hreaper : reaper ∈ outer)
    (h : Reach anyStep (step (next last)) (start outer reaper pid ppid (.fork 0)) s) :
    Story leaf pid ppid (fun pc _ es => Phase pid es pc) (Final pid) s :=
  run_family (leaves last) hpid hppid hreaper (.fork 0 rfl rfl List.nodup_nil) (fun _ _ _ _ hI _ => hI)
    (fun _ _ _ _ _ _ hI hm hd ha => phase_step hI hm hd ha) (fun _ _ _ _ hI _ hs => phase_ends hI hs) h

/-- **When the parent has returned**, its last `fork` has succeeded and it has waited for each of its children once,
    and reported the status with which it has ended; or its last `fork` has failed and it has waited for none. -/
theorem waitpid_final (last : Nat) (outer : List Nat) (reaper pid ppid : Nat) (hpid : pid ∉ outer)
    (hppid : ppid ∈ outer) (hreaper : reaper ∈ outer) (s : System Pc Line)
    (h : Reach anyStep (step (next last)) (start outer reaper pid ppid (.fork 0)) s) :
    (¬ Stands pid s → Final pid (own pid s.log)) ∧
    ∀ r ∈ reapings (own pid s.log), .ended r.1 r.2 ∈ s.log := by
  constructor
  · exact (run_story hpid hppid hreaper h).final
  · rintro ⟨child, status⟩ hr
    obtain ⟨e, he, hev⟩ := List.mem_filterMap.mp hr
    cases e with
    | reaped p c st =>
      cases hev
      exact (run_recorded h).reaped p _ _ (List.mem_of_mem_filter he)
    | forked | forkFailed | printed | ended | noChild => cases hev

/-! ## The end of everything -/

def cost (last : Nat) : Pc → Nat
  | .fork i => 7 * (last - i) + 14
  | .waitpid => 7
  | .printRet _ _ => 10
  | .printStatus _ => 9
  | .printSelf => 8
  | .printFailed => 6
  | .child => 6
  | .return0 => 5

theorem cost_nextPass (last i : Nat) (forked : Bool) :
    cost last (nextPass last i forked) + 7 ≤ cost last (.fork i) := by
  unfold nextPass LinuxProcess.nextPass
  split
  · simp only [cost]
    omega
  · cases forked <;> simp [cost]

theorem costs (last : Nat) : Costs (next last) (cost last) 4 := by
  refine ⟨by omega, ?_, ?_, ?_, ?_⟩
  · intro pc inChild inParent failed h
    cases pc with
    | fork i =>
      cases h
      have h₁ := cost_nextPass last i true
      have h₂ := cost_nextPass last i false
      refine ⟨fun _ => ?_, by omega⟩
      show cost last (nextPass last i true) + 6 < _
      omega
    | waitpid | printRet | printStatus | printSelf | printFailed | child | return0 => cases h
  · intro pc reaped noChild h
    cases pc with
    | waitpid =>
      cases h
      exact ⟨fun _ _ => Nat.lt_succ_self 10, Nat.lt_succ_self 6⟩
    | fork | printRet | printStatus | printSelf | printFailed | child | return0 => cases h
  · intro pc line pc' h
    cases pc <;> cases h <;> simp [cost]
  · intro pc
    cases pc <;> simp only [cost] <;> omega

/-- Two children; the first one is killed, the parent waits for both, and the process outside for the parent. -/
def twoChildren : List Action :=
  [.run 0 (some 11), .run 0 (some 12), .run 2 none, .run 2 none, .kill 1 9, .run 0 (some 2), .run 0 none, .run 0 none,
    .run 0 none, .run 0 (some 1), .run 0 none, .run 0 none, .run 0 none, .run 0 none, .run 0 none, .run 0 none,
    .adopt 0]

theorem waitpid_final_two :
    let s := (exec (step (next 1)) (start [1, 5] 1 10 5 (.fork 0)) twoChildren).get (by decide)
    Final 10 (own 10 s.log) ∧ ∀ r ∈ reapings (own 10 s.log), .ended r.1 r.2 ∈ s.log :=
  (waitpid_final 1 [1, 5] 1 10 5 (by decide) (by decide) (by decide) _ (exec_reach_get twoChildren (by decide))).imp
    (fun h => h (not_stands (by decide))) id

end CppBackend.LinuxProcess.Waitpid
