import CppBackend.LinuxProcess.Model

/-!
# The loops fork a flat family

A child leaves the loop at once, so only the first process forks, and no more often than the loop has passes
(`forks_flat`).  Without the `break` each of the children would go on with the loop.
-/

set_option autoImplicit false

namespace CppBackend.LinuxProcess

open Library.Transition Library.Processes

/-- Behind a pass there is the next one, up to the last. -/
theorem behind_nextPass {τ : Type} {fork : Nat → τ} {last i : Nat} {behind : τ} {pass : τ → Option Nat}
    (hfork : ∀ j, pass (fork j) = some j) (hbehind : pass behind = none) :
    Behind last i (pass (nextPass fork last i behind)) := by
  intro j hj
  unfold nextPass at hj
  split at hj
  · rw [hfork, Option.some.injEq] at hj
    omega
  · rw [hbehind] at hj
    cases hj

def Waitpid.pass : Waitpid.Pc → Option Nat
  | .fork i => some i
  | _ => none

theorem Waitpid.budget (last : Nat) : Budget (Waitpid.next last) fun pc => passes last (Waitpid.pass pc) := by
  refine .of_passes ?_ ?_ ?_
  · intro pc inChild inParent failed h
    cases pc <;> cases h
    exact ⟨_, rfl, rfl, fun _ => behind_nextPass (fun _ => rfl) rfl, behind_nextPass (fun _ => rfl) rfl⟩
  · intro pc reaped noChild h
    cases pc <;> cases h
    exact ⟨fun _ _ => rfl, rfl⟩
  · intro pc line pc' h
    cases pc <;> cases h <;> rfl

def Zombie.pass : Zombie.Pc → Option Nat
  | .fork i => some i
  | _ => none

theorem Zombie.budget (last : Nat) : Budget (Zombie.next last) fun pc => passes last (Zombie.pass pc) := by
  refine .of_passes ?_ ?_ ?_
  · intro pc inChild inParent failed h
    cases pc <;> cases h
    exact ⟨_, rfl, rfl, fun _ => behind_nextPass (fun _ => rfl) rfl, behind_nextPass (fun _ => rfl) rfl⟩
  · intro pc reaped noChild h
    cases pc <;> cases h
  · intro pc line pc' h
    cases pc <;> cases h <;> rfl

/-- A `fork` that has failed is not repeated. -/
def Repeat.forks (last : Nat) : Repeat.Pc → Nat
  | .fork i => last - i + 1
  | .created i _ => last - i
  | .return0 => 0

theorem Repeat.forks_nextPass (last i : Nat) : Repeat.forks last (Repeat.nextPass last i) ≤ last - i := by
  unfold Repeat.nextPass LinuxProcess.nextPass
  split
  · simp only [forks]
    omega
  · exact Nat.zero_le _

theorem Repeat.budget (last : Nat) : Budget (Repeat.next last) (Repeat.forks last) := by
  constructor
  · intro pc inChild inParent failed h
    cases pc <;> cases h
    exact ⟨rfl, fun _ => Nat.lt_succ_self _, Nat.le_succ _⟩
  · intro pc reaped noChild h
    cases pc <;> cases h
  · intro pc line pc' h
    cases pc <;> cases h
    exact forks_nextPass _ _

/-- **The families are flat**: in each of the three programs only the first process forks, and no more often than the
    loop has passes. -/
theorem forks_flat (last : Nat) (outer : List Nat) (reaper pid ppid : Nat) :
    (∀ s, Reach anyStep (step (Waitpid.next last)) (start outer reaper pid ppid (.fork 0)) s →
      (∀ e ∈ forkings s.log, e.1 = pid) ∧ (forkings s.log).length ≤ last + 1) ∧
    (∀ s, Reach anyStep (step (Zombie.next last)) (start outer reaper pid ppid (.fork 0)) s →
      (∀ e ∈ forkings s.log, e.1 = pid) ∧ (forkings s.log).length ≤ last + 1) ∧
    ∀ s, Reach anyStep (step (Repeat.next last)) (start outer reaper pid ppid (Repeat.first last)) s →
      (∀ e ∈ forkings s.log, e.1 = pid) ∧ (forkings s.log).length ≤ last := by
  refine ⟨fun s h => ⟨forks_by (Waitpid.budget last) h, forks_le (Waitpid.budget last) h⟩,
    fun s h => ⟨forks_by (Zombie.budget last) h, forks_le (Zombie.budget last) h⟩,
    fun s h => ⟨forks_by (Repeat.budget last) h, ?_⟩⟩
  exact le_trans (forks_le (Repeat.budget last) h) (Repeat.forks_nextPass last 0)

end CppBackend.LinuxProcess
