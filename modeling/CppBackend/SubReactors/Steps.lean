import CppBackend.SubReactors.Model

/-!
# Steps of the pool of sub-reactors

What a thread does in its loop (`Turn`), and what a step does to the pool (`Moves`), with the guards; and what
holds in every reachable state (`Inv`): which threads have been started, and which flags have been cleared.
-/

set_option autoImplicit false

namespace CppBackend.SubReactors

open Library.Transition

/-! ## Changing one sub-reactor -/

section
variable {s : Pool} {r : Reactor} {i j : Nat}

@[simp] theorem set_self : (s.set i r).reactor i = r := by
  simp [Pool.set]

theorem set_of_ne (h : j ≠ i) : (s.set i r).reactor j = s.reactor j := by
  simp [Pool.set, h]

@[simp] theorem set_size : (s.set i r).size = s.size := rfl

@[simp] theorem set_pc : (s.set i r).pc = s.pc := rfl

@[simp] theorem set_next : (s.set i r).next = s.next := rfl

@[simp] theorem set_buffer : (s.set i r).buffer = s.buffer := rfl

variable {room : Nat}

@[simp] theorem emplaceBack_pc : (s.emplaceBack room).pc = .start := rfl

@[simp] theorem emplaceBack_size : (s.emplaceBack room).size = s.size + 1 := rfl

@[simp] theorem emplaceBack_next : (s.emplaceBack room).next = s.next := rfl

@[simp] theorem emplaceBack_last : (s.emplaceBack room).reactor s.size = .new := set_self

/-- The elements of before are moved, with their threads where they are. -/
theorem emplaceBack_of_lt (h : j < s.size) : (s.emplaceBack room).reactor j = s.reactor j :=
  set_of_ne (Nat.ne_of_lt h)

end

/-! ## Steps -/

/-- The thread `i` goes on, with the vector in this buffer. -/
inductive Turn (buffer i : Nat) (r : Reactor) : Action → Reactor → Prop where
  | fetch (hpc : r.pc = .lambda) : Turn buffer i r (.fetch i) { r with pc := .index buffer }
  | index (hpc : r.pc = .index buffer) : Turn buffer i r (.index i) { r with pc := .top }
  | astray {b : Nat} (hpc : r.pc = .index b) (hne : b ≠ buffer) :
      Turn buffer i r (.index i) { r with pc := .astray }
  | test (hpc : r.pc = .top) :
      Turn buffer i r (.test i) { r with pc := if r.isRunning then .wait else .left }
  | wake {batch : List Nat} (hpc : r.pc = .wait) (hne : batch ≠ []) (hready : ∀ fd ∈ batch, fd ∈ r.interest) :
      Turn buffer i r (.wake i batch) { r with pc := .handle batch }
  | handled {ended : Bool} (hpc : r.pc = .handle []) : Turn buffer i r (.handle i ended) { r with pc := .top }
  | handle {fd : Nat} {batch : List Nat} {ended : Bool} (hpc : r.pc = .handle (fd :: batch)) :
      Turn buffer i r (.handle i ended)
        { r with interest := if ended then r.interest.erase fd else r.interest, pc := .handle batch }

theorem fetch_turn {buffer i : Nat} {r r' : Reactor} (h : r.fetch buffer = some r') :
    Turn buffer i r (.fetch i) r' := by
  unfold Reactor.fetch at h
  split at h
  · rename_i hpc
    cases h
    exact .fetch hpc
  · cases h

theorem index_turn {buffer i : Nat} {r r' : Reactor} (h : r.index buffer = some r') :
    Turn buffer i r (.index i) r' := by
  unfold Reactor.index at h
  split at h
  · rename_i b hpc
    by_cases hb : b = buffer
    · subst hb
      rw [if_pos rfl] at h
      cases h
      exact .index hpc
    · rw [if_neg hb] at h
      cases h
      exact .astray hpc hb
  · cases h

theorem test_turn {buffer i : Nat} {r r' : Reactor} (h : r.test = some r') : Turn buffer i r (.test i) r' := by
  unfold Reactor.test at h
  split at h
  · rename_i hpc
    cases h
    exact .test hpc
  · cases h

theorem wake_turn {buffer i : Nat} {r r' : Reactor} {batch : List Nat} (h : r.wake batch = some r') :
    Turn buffer i r (.wake i batch) r' := by
  unfold Reactor.wake at h
  split at h
  · rename_i hpc
    split at h
    · rename_i hbatch
      cases h
      exact .wake hpc hbatch.1 hbatch.2.2.2
    · cases h
  · cases h

theorem handle_turn {buffer i : Nat} {r r' : Reactor} {ended : Bool} (h : r.handle ended = some r') :
    Turn buffer i r (.handle i ended) r' := by
  unfold Reactor.handle at h
  split at h
  · rename_i hpc
    cases h
    exact .handled hpc
  · rename_i fd batch hpc
    cases h
    exact .handle hpc
  · cases h

/-- What a step does. -/
inductive Moves (s : Pool) : Action → Pool → Prop where
  | create {room : Nat} (hpc : s.pc = .create) : Moves s (.create (some room)) (s.emplaceBack room)
  | createFails (hpc : s.pc = .create) : Moves s (.create none) { s with pc := .stop 0 }
  | start {pc : OwnerPc} (hpc : s.pc = .start) (hnext : pc = .create ∨ pc = .ready) :
      Moves s .start { s.set (s.size - 1) { s.reactor (s.size - 1) with pc := .lambda } with pc := pc }
  | accept {fd : Nat} {ok : Bool} (hpc : s.pc = .ready) : Moves s (.accept fd ok) (s.accept fd ok)
  | destroy (hpc : s.pc = .ready) : Moves s .destroy { s with pc := .stop 0 }
  | stop {i : Nat} (hpc : s.pc = .stop i) (hi : i < s.size) :
      Moves s .stop { s.set i { s.reactor i with isRunning := false } with pc := .stop (i + 1) }
  | stopped {i : Nat} (hpc : s.pc = .stop i) (hi : s.size ≤ i) : Moves s .stop { s with pc := .join 0 }
  | join {i : Nat} (hpc : s.pc = .join i) (hi : i < s.size) (hleft : (s.reactor i).pc = .left) :
      Moves s .join { s with pc := .join (i + 1) }
  | joined {i : Nat} (hpc : s.pc = .join i) (hi : s.size ≤ i) : Moves s .join { s with pc := .destroyed }
  | thread {i : Nat} {a : Action} {r : Reactor} (hi : i < s.size) (ht : Turn s.buffer i (s.reactor i) a r) :
      Moves s a (s.set i r)

theorem thread_eq {s s' : Pool} {i : Nat} {f : Reactor → Option Reactor} (h : s.thread i f = some s') :
    i < s.size ∧ ∃ r, f (s.reactor i) = some r ∧ s' = s.set i r := by
  unfold Pool.thread at h
  split at h
  · rename_i hi
    obtain ⟨r, hr, hs⟩ := Option.map_eq_some_iff.mp h
    exact ⟨hi, r, hr, hs.symm⟩
  · cases h

theorem step_inv {s s' : Pool} {a : Action} (h : step s a = some s') : Moves s a s' := by
  cases a with
  | create room =>
    simp only [step] at h
    split at h
    · rename_i room hpc
      cases h
      exact .create hpc
    · rename_i hpc
      cases h
      exact .createFails hpc
    · cases h
  | start =>
    simp only [step] at h
    split at h
    · rename_i hpc
      cases h
      refine .start hpc ?_
      split
      · exact Or.inl rfl
      · exact Or.inr rfl
    · cases h
  | accept fd ok =>
    simp only [step] at h
    split at h
    · rename_i hpc
      split at h
      · cases h
        exact .accept hpc
      · cases h
    · cases h
  | destroy =>
    simp only [step] at h
    split at h
    · rename_i hpc
      cases h
      exact .destroy hpc
    · cases h
  | stop =>
    simp only [step] at h
    split at h
    · rename_i i hpc
      split at h
      · rename_i hi
        cases h
        exact .stop hpc hi
      · rename_i hi
        cases h
        exact .stopped hpc (Nat.le_of_not_lt hi)
    · cases h
  | join =>
    simp only [step] at h
    split at h
    · rename_i i hpc
      split at h
      · rename_i hi
        split at h
        · rename_i hleft
          cases h
          exact .join hpc hi hleft
        · cases h
      · rename_i hi
        cases h
        exact .joined hpc (Nat.le_of_not_lt hi)
    · cases h
  | fetch i =>
    simp only [step] at h
    obtain ⟨hi, r, hr, rfl⟩ := thread_eq h
    exact .thread hi (fetch_turn hr)
  | index i =>
    simp only [step] at h
    obtain ⟨hi, r, hr, rfl⟩ := thread_eq h
    exact .thread hi (index_turn hr)
  | test i =>
    simp only [step] at h
    obtain ⟨hi, r, hr, rfl⟩ := thread_eq h
    exact .thread hi (test_turn hr)
  | wake i batch =>
    simp only [step] at h
    obtain ⟨hi, r, hr, rfl⟩ := thread_eq h
    exact .thread hi (wake_turn hr)
  | handle i ended =>
    simp only [step] at h
    obtain ⟨hi, r, hr, rfl⟩ := thread_eq h
    exact .thread hi (handle_turn hr)

theorem Turn.isRunning {buffer i : Nat} {r r' : Reactor} {a : Action} (h : Turn buffer i r a r') :
    r'.isRunning = r.isRunning := by
  cases h <;> rfl

theorem Turn.started {buffer i : Nat} {r r' : Reactor} {a : Action} (h : Turn buffer i r a r') :
    r.pc ≠ .unstarted ∧ r'.pc ≠ .unstarted := by
  cases h with
  | test hpc =>
    refine ⟨by simp [hpc], ?_⟩
    show (if r.isRunning then LoopPc.wait else .left) ≠ .unstarted
    split <;> simp
  | fetch hpc | index hpc | astray hpc | wake hpc | handled hpc | handle hpc => simp [hpc]

/-! ## Reachable states -/

/-- How many sub-reactors `stop()` has been called on. -/
def Pool.stopped (s : Pool) : Nat :=
  match s.pc with
  | .create | .start | .ready => 0
  | .stop i => i
  | .join _ | .destroyed => s.size

structure Inv (s : Pool) : Prop where
  /-- Only the last thread may still be unstarted, and it is started next. -/
  started : ∀ i < s.size, (s.reactor i).pc = .unstarted ↔ s.pc = .start ∧ i + 1 = s.size
  nonempty : s.pc = .start ∨ s.pc = .ready → 0 < s.size
  bound : s.stopped ≤ s.size
  flags : ∀ i < s.stopped, (s.reactor i).isRunning = false

variable {s s' : Pool} {a : Action} {n : Int} {i : Nat}

theorem inv_init : Inv (init n) :=
  ⟨fun _ hi => absurd hi (Nat.not_lt_zero _), fun h => (by rcases h with h | h <;> cases h), Nat.zero_le _,
    fun _ hi => absurd hi (Nat.not_lt_zero _)⟩

/-- Accepting changes a set of registered descriptors and the counter. -/
theorem accept_same (s : Pool) (fd : Nat) (ok : Bool) :
    (s.accept fd ok).size = s.size ∧ (s.accept fd ok).pc = s.pc ∧
      ∀ j, ((s.accept fd ok).reactor j).pc = (s.reactor j).pc := by
  unfold Pool.accept
  split
  · exact ⟨rfl, rfl, fun _ => rfl⟩
  · rename_i idx next _
    cases ok with
    | true =>
      refine ⟨rfl, rfl, fun j => ?_⟩
      by_cases hj : j = idx.toNat
      · simp [hj]
      · simp [set_of_ne hj]
    | false => exact ⟨rfl, rfl, fun _ => rfl⟩

/-- The sub-reactors stay as they are, and the owner does not go back to `init`. -/
theorem Inv.moveOn (hi : Inv s) {pc : OwnerPc} (hpc : s.pc ≠ .start) (hpc' : pc ≠ .start ∧ pc ≠ .ready)
    (hstopped : ({ s with pc := pc } : Pool).stopped = s.stopped) : Inv { s with pc := pc } := by
  refine ⟨fun i hlt => ?_, fun h => ?_, ?_, fun i hlt => ?_⟩
  · show (s.reactor i).pc = .unstarted ↔ _
    rw [hi.started i hlt]
    simp [hpc, hpc'.1]
  · exact absurd h (by simp [hpc'.1, hpc'.2])
  · rw [hstopped]
    exact hi.bound
  · rw [hstopped] at hlt
    exact hi.flags i hlt

theorem inv_step (hi : Inv s) (h : step s a = some s') : Inv s' := by
  cases step_inv h with
  | create hpc =>
    refine ⟨fun i hlt => ?_, fun _ => Nat.succ_pos _, Nat.zero_le _, fun _ hlt => absurd hlt (Nat.not_lt_zero _)⟩
    rw [emplaceBack_size] at hlt
    by_cases hlast : i = s.size
    · subst hlast
      simp [Reactor.new]
    · have hlt' : i < s.size := by omega
      rw [emplaceBack_of_lt hlt', hi.started i hlt']
      simp [hpc, hlast]
  | createFails hpc => exact hi.moveOn (by simp [hpc]) (by simp) (by simp [Pool.stopped, hpc])
  | start hpc hnext =>
    have hpos : 0 < s.size := hi.nonempty (Or.inl hpc)
    refine ⟨fun i hlt => ?_, fun _ => hpos, ?_, fun i hlt => ?_⟩
    · refine iff_of_false (fun hun => ?_) fun h => by rcases hnext with rfl | rfl <;> exact absurd h.1 (by simp)
      by_cases hlast : i = s.size - 1
      · simp [hlast] at hun
      · have hun' : (s.reactor i).pc = .unstarted := by simpa [set_of_ne hlast] using hun
        have hlast' := ((hi.started i hlt).mp hun').2
        omega
    · rcases hnext with rfl | rfl <;> exact Nat.zero_le _
    · rcases hnext with rfl | rfl <;> exact absurd hlt (Nat.not_lt_zero _)
  | @accept fd ok hpc =>
    obtain ⟨hsize, hpc', hreactor⟩ := accept_same s fd ok
    have hstopped : (s.accept fd ok).stopped = 0 := by simp [Pool.stopped, hpc', hpc]
    refine ⟨fun i hlt => ?_, fun _ => ?_, ?_, fun i hlt => ?_⟩
    · rw [hreactor, hpc', hsize]
      exact hi.started i (hsize ▸ hlt)
    · rw [hsize]
      exact hi.nonempty (Or.inr hpc)
    · rw [hstopped]
      exact Nat.zero_le _
    · rw [hstopped] at hlt
      exact absurd hlt (Nat.not_lt_zero _)
  | destroy hpc => exact hi.moveOn (by simp [hpc]) (by simp) (by simp [Pool.stopped, hpc])
  | @stop i hpc hlt =>
    have hstopped : s.stopped = i := by simp [Pool.stopped, hpc]
    refine ⟨fun j hj => ?_, fun h => by simp at h, hlt, fun j hj => ?_⟩
    · refine iff_of_false (fun hun => ?_) (by simp)
      have hun' : (s.reactor j).pc = .unstarted := by
        by_cases hji : j = i
        · simpa [hji] using hun
        · simpa [set_of_ne hji] using hun
      simpa [hpc] using ((hi.started j hj).mp hun').1
    · by_cases hji : j = i
      · simp [hji]
      · have hj' : j < i + 1 := hj
        simpa [set_of_ne hji] using hi.flags j (by omega)
  | stopped hpc hle =>
    have hsize := hi.bound
    simp only [Pool.stopped, hpc] at hsize
    exact hi.moveOn (by simp [hpc]) (by simp) (by simpa [Pool.stopped, hpc] using Nat.le_antisymm hle hsize)
  | join hpc => exact hi.moveOn (by simp [hpc]) (by simp) (by simp [Pool.stopped, hpc])
  | joined hpc => exact hi.moveOn (by simp [hpc]) (by simp) (by simp [Pool.stopped, hpc])
  | @thread i a r hlt ht =>
    refine ⟨fun j hj => ?_, hi.nonempty, hi.bound, fun j hj => ?_⟩
    · by_cases hji : j = i
      · subst hji
        rw [set_self]
        exact iff_of_false ht.started.2 fun h => ht.started.1 ((hi.started j hlt).mpr h)
      · rw [set_of_ne hji]
        exact hi.started j hj
    · by_cases hji : j = i
      · subst hji
        simpa [ht.isRunning] using hi.flags j hj
      · simpa [set_of_ne hji] using hi.flags j hj

theorem reach_inv (hr : Reach anyStep step (init n) s) : Inv s :=
  hr.invariant inv_init fun _ _ _ hi h _ => inv_step hi h

end CppBackend.SubReactors
