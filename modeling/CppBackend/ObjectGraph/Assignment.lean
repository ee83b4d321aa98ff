import CppBackend.ObjectGraph.Programs

/-!
# Assignment between handles of an object graph

`operator=` lets go of the target first and reads the source afterwards.  The check `this != &other`
covers an assignment to itself only.

* `assign_safe_iff` — an assignment is safe (`Safe`) exactly if it is one to itself, or neither the
  target nor the source is a member of an object that the target keeps alive;
* `member_faults` — one from a member of the object that only the target holds faults;
* `head_next_unsafe` — `head = std::move(head->next)` in a list of two nodes.
-/

set_option autoImplicit false

namespace CppBackend.ObjectGraph

open Library Library.Storage Library.Transition

variable {vars n : Nat} {m : Machine} {i j : Slot} {x : Addr}

/-- The assignment of the handle in the slot `j` to the one in the slot `i` ends without a fault, the
    target holds what the source has held, and that object is alive. -/
def Safe (m : Machine) (i j : Slot) (r : Run Machine) : Prop :=
  ∃ m', r = .ok m' ∧ m'.handle i = m.handle j ∧ ∀ x, m.Holds j x → (m'.members x).isSome = true

/-- A member of the object that only the slot `i` holds. -/
theorem Machine.doomed_of_sole (hi : m.Holds i x) (hsole : ∀ l, m.Holds l x → l = i)
    (hj : m.Inside j x) : m.Doomed i j := by
  refine ⟨x, ?_, hj⟩
  exact Releases.released_closed x ⟨i, hi⟩ fun l hl => Or.inl (hsole l hl)

/-- An assignment with a target or a source that the target keeps alive faults. -/
theorem assign_faults {k : Assignment} {r : Run Machine} (hn : n < 2 ^ 64) (hm : Managed vars n m)
    (h : m.apply vars (k.op i j) = some r) (hij : i ≠ j) (hdoomed : m.Doomed i i ∨ m.Doomed i j) :
    ∃ e, r = .fault e := by
  obtain ⟨g, -, -, hother⟩ := assign_ends hn hm h
  exact (hother hij).exists_fault fun _ ha => hdoomed.elim ha.target ha.source

/-- **An assignment from a member of the object that only the target holds faults**, in every reachable
    object graph. -/
theorem member_faults {cells : Nat} (hn : vars + cells < 2 ^ 64)
    (hm : Reach soleReset (step vars) (init vars cells) (.ok m)) {k : Assignment} {r : Run Machine}
    (h : step vars (.ok m) (k.op i j) = some r) (hij : i ≠ j) (hi : m.Holds i x)
    (hsole : ∀ l, m.Holds l x → l = i) (hj : m.Inside j x) : ∃ e, r = .fault e :=
  assign_faults hn (runs_managed hn hm) h hij (Or.inr (Machine.doomed_of_sole hi hsole hj))

/-- **When an assignment is safe**, for any number of variables and members below `2^64`, every
    reachable object graph and both assignments: it is one to itself, or the target keeps alive no
    object that has the target or the source among its members. -/
theorem assign_safe_iff (vars cells : Nat) (hn : vars + cells < 2 ^ 64) (m : Machine)
    (hm : Reach soleReset (step vars) (init vars cells) (.ok m)) (k : Assignment) (i j : Slot)
    (r : Run Machine) (h : step vars (.ok m) (k.op i j) = some r) :
    Safe m i j r ↔ i = j ∨ ¬ m.Doomed i i ∧ ¬ m.Doomed i j := by
  have hman := runs_managed hn hm
  obtain ⟨g, hg, hself, hother⟩ := assign_ends hn hman h
  constructor
  · rintro ⟨m', hr, -, -⟩
    by_cases hij : i = j
    · exact Or.inl hij
    · have hassigned := (hother hij).of_ok hr
      exact Or.inr ⟨hassigned.target, hassigned.source⟩
  · intro hcond
    by_cases hij : i = j
    · exact ⟨m, hself hij, by rw [hij], fun x hx => hman.alive hx⟩
    · obtain ⟨htarget, hsource⟩ := hcond.resolve_left hij
      have hnofault : ∀ e : Fault, ¬ (m.Doomed i i ∨ m.Doomed i j) := fun _ hor =>
        hor.elim htarget hsource
      obtain ⟨m', hr, hassigned⟩ := (hother hij).exists_ok hnofault
      refine ⟨m', hr, by rw [hassigned.holds, hg], ?_⟩
      rintro x ⟨g', hg', hp⟩
      rw [hg] at hg'
      cases hg'
      exact hassigned.managed.alive ⟨g, hassigned.holds, hp⟩

def Op.isReset : Op → Bool
  | .reset _ => true
  | _ => false

/-- No call of `reset`. -/
def noReset (_ : Run Machine) (op : Op) (_ : Run Machine) : Prop := op.isReset = false

instance : ∀ s op s', Decidable (noReset s op s') := fun _ op _ =>
  inferInstanceAs (Decidable (op.isReset = false))

theorem noReset_sole {s : Run Machine} (h : Reach noReset (step vars) (init vars n) s) :
    Reach soleReset (step vars) (init vars n) s := by
  refine Reach.mono (fun _ op _ hno => ?_) h
  rintro m i h rfl rfl
  cases hno

/-- The variable 0 holds the head of a list of two nodes; their members `next` are the slots 2 and 3. -/
def listRun : List Op :=
  [.makeUnique 0 0 [(2, .unique)], .makeUnique 1 1 [(3, .unique)], .moveAssign 2 1]

/-- `head = std::move(head->next)` would fault in this state. -/
def headNextFaults : Run Machine → Bool
  | .ok m =>
    (m.handle 0 == some (.unique ⟨some 0⟩)) && (m.members 0 == some [2]) &&
      (m.apply 2 (.moveAssign 0 2)).any fun r => match r with
        | .fault _ => true
        | _ => false
  | _ => false

/-- After the run. -/
theorem list_state : ∃ m, Reach soleReset (step 2) (init 2 2) (.ok m) ∧
    headNextFaults (.ok m) = true := by
  have hrun : (exec (guarded noReset (step 2)) (init 2 2) listRun).any headNextFaults = true := by
    decide +kernel
  obtain ⟨s, hs, hfault⟩ := (Option.any_eq_true _ _).mp hrun
  cases s with
  | ok m => exact ⟨m, noReset_sole (exec_guarded_reach listRun hs), hfault⟩
  | fault e => cases hfault
  | unfinished => cases hfault

theorem assign_safe_iff_list : ∃ m r, step 2 (.ok m) (.moveAssign 0 2) = some r ∧
    (Safe m 0 2 r ↔ (0 : Slot) = 2 ∨ ¬ m.Doomed 0 0 ∧ ¬ m.Doomed 0 2) := by
  obtain ⟨m, hm, hfault⟩ := list_state
  unfold headNextFaults at hfault
  simp only [Bool.and_eq_true] at hfault
  obtain ⟨r, hr, -⟩ := (Option.any_eq_true _ _).mp hfault.2
  exact ⟨m, r, hr, assign_safe_iff 2 2 (by decide) m hm .move 0 2 r hr⟩

/-- **`head = std::move(head->next)`** reads `head->next` after its node has been deleted. -/
theorem head_next_unsafe : ∃ m r, Reach soleReset (step 2) (init 2 2) (.ok m) ∧
    m.Holds 0 0 ∧ m.Inside 2 0 ∧ step 2 (.ok m) (.moveAssign 0 2) = some r ∧ ¬ Safe m 0 2 r := by
  obtain ⟨m, hm, hfault⟩ := list_state
  unfold headNextFaults at hfault
  simp only [Bool.and_eq_true, beq_iff_eq] at hfault
  obtain ⟨⟨hholds, hmembers⟩, hany⟩ := hfault
  obtain ⟨r, hr, hfault⟩ := (Option.any_eq_true _ _).mp hany
  refine ⟨m, r, hm, ⟨_, hholds, rfl⟩, ⟨_, hmembers, List.mem_cons_self⟩, hr, ?_⟩
  rintro ⟨m', rfl, -, -⟩
  cases hfault

end CppBackend.ObjectGraph
