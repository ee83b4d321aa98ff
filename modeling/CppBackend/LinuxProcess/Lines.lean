import CppBackend.LinuxProcess.Zombies
import CppBackend.LinuxProcess.Reaping

/-!
# What the programs print

* `created_lines` — the parent of `createprocessrepeat.cpp` prints the results of its forks, numbered from 1;
* `children_lines` — the children of `waitpid.cpp`, `zombie.cpp` and `orphan.cpp` print themselves and their parent,
  which is the reaper once the parent has ended.
-/

set_option autoImplicit false

namespace CppBackend.LinuxProcess

open Library.Transition Library.Processes

/-! ## The lines of `createprocessrepeat.cpp` -/

namespace Repeat

def leaf : Pc → Bool
  | .return0 => true
  | _ => false

theorem leaves (last : Nat) : Leaves (next last) leaf := by
  refine .of_calls (fun pc => ?_) fun pc h => ?_
  · cases pc <;> trivial
  · cases pc <;> trivial

/-- What the calls of `fork` have returned. -/
def results (es : List (Event Line)) : List (Option Nat) :=
  es.filterMap fun e => match e with
    | .forked _ child => some (some child)
    | .forkFailed _ => some none
    | _ => none

/-- The lines about them. -/
def numbered (rs : List (Option Nat)) : List Line := (rs.zipIdx 1).map fun r => .created r.2 r.1

theorem numbered_append (rs : List (Option Nat)) (r : Option Nat) :
    numbered (rs ++ [r]) = numbered rs ++ [.created (rs.length + 1) r] := by
  unfold numbered
  rw [List.zipIdx_append, List.map_append, Nat.add_comm 1]
  rfl

theorem numbered_length (rs : List (Option Nat)) : (numbered rs).length = rs.length := by simp [numbered]

/-- All results but the last one have been printed, or all of them. -/
def Printed (es : List (Event Line)) : Prop :=
  lines es <+: numbered (results es) ∧ (results es).length ≤ (lines es).length + 1

section Events

variable (es : List (Event Line)) (pid child : Nat) (line : Line)

@[simp] theorem results_forked : results (es ++ [.forked pid child]) = results es ++ [some child] := by simp [results]

@[simp] theorem results_forkFailed : results (es ++ [.forkFailed pid]) = results es ++ [none] := by simp [results]

@[simp] theorem results_printed : results (es ++ [.printed pid line]) = results es := by simp [results]

end Events

/-- What the parent has printed at each of its program points. -/
inductive Phase (last : Nat) (es : List (Event Line)) : Pc → Prop where
  | fork (ho : lines es = numbered (results es)) (hlt : (results es).length < last) :
      Phase last es (.fork ((results es).length + 1))
  | created (rs : List (Option Nat)) (r : Option Nat) (hr : results es = rs ++ [r]) (ho : lines es = numbered rs)
      (hlt : rs.length < last) : Phase last es (.created (rs.length + 1) r)
  | return0 (ho : lines es = numbered (results es)) (hl : (results es).length = last) : Phase last es .return0

/-- What the parent has printed when it has ended. -/
inductive Final (last pid : Nat) : List (Event Line) → Prop where
  | returned {es : List (Event Line)} (ho : lines es = numbered (results es)) (hl : (results es).length = last) :
      Final last pid (es ++ [.ended pid (.exited 0)])
  | killed {es : List (Event Line)} (sig : Nat) (ho : Printed es) :
      Final last pid (es ++ [.ended pid (.signaled sig)])

variable {last pid ppid : Nat} {pc pc' : Pc} {kids kids' : List (Proc Pc)} {es : List (Event Line)} {e : Event Line}
  {outer : List Nat} {reaper : Nat} {s : System Pc Line}

theorem Phase.printed (h : Phase last es pc) : Printed es := by
  cases h with
  | fork ho hlt => exact ⟨ho ▸ List.prefix_refl _, by rw [ho, numbered_length]; omega⟩
  | created rs r hr ho hlt =>
    refine ⟨?_, by rw [ho, hr, numbered_length, List.length_append]; simp⟩
    rw [ho, hr, numbered_append]
    exact List.prefix_append _ _
  | return0 ho hl => exact ⟨ho ▸ List.prefix_refl _, by rw [ho, numbered_length]; omega⟩

theorem phase_nextPass (ho : lines es = numbered (results es)) (hle : (results es).length ≤ last) :
    Phase last es (nextPass last (results es).length) := by
  unfold nextPass LinuxProcess.nextPass
  split
  · rename_i hlt
    exact .fork ho hlt
  · exact .return0 ho (by omega)

theorem phase_step (hI : Phase last es pc)
    (hm : ParentMoves (next last) pid ppid pc kids e pc' kids') :
    Phase last (es ++ [e]) pc' := by
  cases hI with
  | fork ho hlt =>
    cases hm with
    | @fork inChild failed inParent child hn =>
      cases hn
      exact .created (results es) (some child) (by simp) (by simp [ho]) hlt
    | forkFails hn =>
      cases hn
      exact .created (results es) none (by simp) (by simp [ho]) hlt
    | reap hn | noChild hn | put hn => cases hn
  | created rs r hr ho hlt =>
    cases hm with
    | put hn =>
      cases hn
      show Phase last (es ++ [.printed pid (.created (rs.length + 1) r)]) (nextPass last (rs.length + 1))
      have hr' : results (es ++ [.printed pid (.created (rs.length + 1) r)]) = rs ++ [r] := by rw [results_printed, hr]
      have hlen : (results (es ++ [.printed pid (.created (rs.length + 1) r)])).length = rs.length + 1 := by simp [hr']
      have hnext : Phase last (es ++ [.printed pid (.created (rs.length + 1) r)]) (nextPass last _) :=
        phase_nextPass (by rw [lines_printed, hr', ho, numbered_append]) (by omega)
      rwa [hlen] at hnext
    | fork hn | forkFails hn | reap hn | noChild hn => cases hn
  | return0 ho hl =>
    cases hm with
    | fork hn | forkFails hn | reap hn | noChild hn | put hn => cases hn

theorem phase_ends {status : Status} (hI : Phase last es pc)
    (hs : (∃ code, next last pc = .exit code ∧ status = .exited code) ∨ ∃ sig, status = .signaled sig) :
    Final last pid (es ++ [.ended pid status]) := by
  rcases hs with ⟨code, hn, rfl⟩ | ⟨sig, rfl⟩
  · cases hI with
    | return0 ho hl => cases hn; exact .returned ho hl
    | fork | created => cases hn
  · exact .killed sig hI.printed

/-- **The parent's lines**: as long as it runs it has printed the results of its forks, numbered from 1, up to the
    last one at most; when it has returned, all `last` of them. -/
theorem created_lines (last : Nat) (outer : List Nat) (reaper pid ppid : Nat) (hpid : pid ∉ outer)
    (hppid : ppid ∈ outer) (hreaper : reaper ∈ outer) (s : System Pc Line)
    (h : Reach anyStep (step (next last)) (start outer reaper pid ppid (first last)) s) :
    (Stands pid s → Printed (own pid s.log)) ∧
    (¬ Stands pid s → Final last pid (own pid s.log)) := by
  have h0 : Phase last [] (first last) := phase_nextPass rfl (Nat.zero_le last)
  have hs := run_family (leaves last) hpid hppid hreaper h0 (fun _ _ _ _ hI _ => hI)
    (fun _ _ _ _ _ _ hI hm _ _ => phase_step hI hm) (fun _ _ _ _ hI _ hs => phase_ends hI hs) h
  refine ⟨fun hst => ?_, hs.final⟩
  cases hs with
  | running pc kids hf hI => exact hI.printed
  | ended ho hF => exact absurd hst ho.not_stands

/-- The second of three forks has failed. -/
def failedFork : List Action :=
  [.run 0 (some 11), .run 0 none, .run 0 none, .run 0 none, .run 0 (some 12), .run 0 none, .run 0 none]

theorem created_lines_failed :
    let s := (exec (step (next 3)) (start [1, 5] 1 10 5 (first 3)) failedFork).get (by decide)
    (Stands 10 s → Printed (own 10 s.log)) ∧
    (¬ Stands 10 s → Final 3 10 (own 10 s.log)) :=
  created_lines 3 [1, 5] 1 10 5 (by decide) (by decide) (by decide) _ (exec_reach_get failedFork (by decide))

end Repeat

/-! ## The lines of the children -/

def Orphan.leaf : Orphan.Pc → Bool
  | .child | .orphaned | .return0 => true
  | _ => false

theorem Orphan.leaves : Leaves Orphan.next Orphan.leaf := by
  refine .of_calls (fun pc => ?_) fun pc h => ?_
  · cases pc <;> trivial
  · cases pc <;> trivial

/-- A child prints before its parent has ended, and another one afterwards. -/
def killedParent : List Action :=
  [.run 0 (some 11), .run 0 (some 12), .run 1 none, .kill 0 15, .run 2 none]

def orphaned : List Action := [.run 0 (some 11), .run 1 none, .run 0 none, .run 0 none, .run 1 none]

end CppBackend.LinuxProcess
