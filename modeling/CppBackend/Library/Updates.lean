import Mathlib.Logic.Function.Basic
import Mathlib.Data.List.Basic

/-!
# Updates of places, and serial order

A store has a value at each place; an update changes the value at one place.  Updates of different places
commute (`runAll_comm`).  When the updates that different threads still have before them are at different
places, the store in which all of them have been made (`settled`) does not change when a thread makes one
of its updates, and a thread that takes on new updates adds them at the end: the order in which the threads
take on their updates is a serial order for them.
-/

set_option autoImplicit false

namespace Library.Updates

variable {κ V τ : Type} [DecidableEq κ]

structure Update (κ V : Type) where
  place : κ
  change : V → V

def Update.run (u : Update κ V) (store : κ → V) : κ → V :=
  Function.update store u.place (u.change (store u.place))

/-- The updates, one after another. -/
def runAll (us : List (Update κ V)) (store : κ → V) : κ → V := us.foldl (fun store u => u.run store) store

/-- No place is updated by both. -/
def Apart (us vs : List (Update κ V)) : Prop := ∀ u ∈ us, ∀ v ∈ vs, u.place ≠ v.place

variable {us vs : List (Update κ V)} {u v : Update κ V} {store : κ → V}

@[simp] theorem runAll_nil : runAll [] store = store := rfl

@[simp] theorem runAll_cons : runAll (u :: us) store = runAll us (u.run store) := rfl

theorem runAll_append : runAll (us ++ vs) store = runAll vs (runAll us store) := List.foldl_append

theorem run_comm (h : u.place ≠ v.place) : u.run (v.run store) = v.run (u.run store) := by
  unfold Update.run
  rw [Function.update_of_ne h, Function.update_of_ne (Ne.symm h)]
  exact Function.update_comm (Ne.symm h) _ _ _

theorem run_runAll_comm : ∀ {us : List (Update κ V)} {store : κ → V}, (∀ v ∈ us, u.place ≠ v.place) →
    runAll us (u.run store) = u.run (runAll us store)
  | [], _, _ => rfl
  | v :: us, store, h => by
    have hv : u.place ≠ v.place := h v List.mem_cons_self
    have hus : ∀ w ∈ us, u.place ≠ w.place := fun w hw => h w (List.mem_cons_of_mem v hw)
    rw [runAll_cons, runAll_cons, ← run_comm hv, run_runAll_comm hus]

/-- **Updates of different places commute.** -/
theorem runAll_comm : ∀ {us : List (Update κ V)} {store : κ → V}, Apart us vs →
    runAll us (runAll vs store) = runAll vs (runAll us store)
  | [], _, _ => rfl
  | u :: us, store, h => by
    have hu : ∀ v ∈ vs, u.place ≠ v.place := h u List.mem_cons_self
    have hus : Apart us vs := fun w hw => h w (List.mem_cons_of_mem u hw)
    rw [runAll_cons, runAll_cons, ← run_runAll_comm hu, runAll_comm hus]

/-- Nothing changes at a place that is not updated. -/
theorem runAll_untouched {a : κ} : ∀ {us : List (Update κ V)} {store : κ → V}, (∀ u ∈ us, u.place ≠ a) →
    runAll us store a = store a
  | [], _, _ => rfl
  | u :: us, store, h => by
    have hu : u.place ≠ a := h u List.mem_cons_self
    rw [runAll_cons, runAll_untouched fun v hv => h v (List.mem_cons_of_mem u hv)]
    exact Function.update_of_ne (Ne.symm hu) _ _

omit [DecidableEq κ] in
theorem apart_flatMap {pending : τ → List (Update κ V)} {ts : List τ}
    (h : ∀ t ∈ ts, Apart us (pending t)) : Apart us (ts.flatMap pending) := by
  intro u hu v hv
  obtain ⟨t, ht, hmem⟩ := List.mem_flatMap.mp hv
  exact h t ht u hu v hmem

section Settled

variable {pending : τ → List (Update κ V)} {ts : List τ} {i : Nat} {t t' : τ}

/-- The store when every thread has made the updates that it has before it. -/
def settled (pending : τ → List (Update κ V)) (ts : List τ) (store : κ → V) : κ → V :=
  runAll (ts.flatMap pending) store

/-- A thread in the middle of the list. -/
theorem split_set (t' : τ) (ht : ts[i]? = some t) :
    ts = ts.take i ++ t :: ts.drop (i + 1) ∧ ts.set i t' = ts.take i ++ t' :: ts.drop (i + 1) := by
  obtain ⟨hi, rfl⟩ := List.getElem?_eq_some_iff.mp ht
  exact ⟨by simp, List.set_eq_take_append_cons_drop.trans (if_pos hi)⟩

theorem getElem?_take_of {j : Nat} {u : τ} (h : (ts.take i)[j]? = some u) : j < i ∧ ts[j]? = some u := by
  have hj : j < (ts.take i).length := (List.getElem?_eq_some_iff.mp h).1
  rw [List.length_take] at hj
  have hji : j < i := by omega
  rw [List.getElem?_take_of_lt hji] at h
  exact ⟨hji, h⟩

/-- A thread before place `i` is another one. -/
theorem mem_take_other {u : τ} (h : u ∈ ts.take i) : ∃ j, j ≠ i ∧ ts[j]? = some u := by
  obtain ⟨j, hj⟩ := List.mem_iff_getElem?.mp h
  obtain ⟨hlt, hu⟩ := getElem?_take_of hj
  exact ⟨j, by omega, hu⟩

theorem mem_drop_other {u : τ} (h : u ∈ ts.drop (i + 1)) : ∃ j, j ≠ i ∧ ts[j]? = some u := by
  obtain ⟨j, hj⟩ := List.mem_iff_getElem?.mp h
  rw [List.getElem?_drop] at hj
  exact ⟨i + 1 + j, by omega, hj⟩

/-- A thread that has the same updates before it as ever. -/
theorem settled_same (ht : ts[i]? = some t) (h : pending t' = pending t) :
    settled pending (ts.set i t') store = settled pending ts store := by
  obtain ⟨hts, hset⟩ := split_set t' ht
  unfold settled
  rw [hset]
  conv_rhs => rw [hts]
  rw [List.flatMap_append, List.flatMap_append, List.flatMap_cons, List.flatMap_cons, h]

/-- **A thread makes its next update.** -/
theorem settled_write (ht : ts[i]? = some t) (h : pending t = u :: pending t')
    (hother : ∀ (j : Nat) (w : τ), j ≠ i → ts[j]? = some w → ∀ v ∈ pending w, u.place ≠ v.place) :
    settled pending (ts.set i t') (u.run store) = settled pending ts store := by
  obtain ⟨hts, hset⟩ := split_set t' ht
  have hpre : ∀ v ∈ (ts.take i).flatMap pending, u.place ≠ v.place := by
    intro v hv
    obtain ⟨w, hw, hmem⟩ := List.mem_flatMap.mp hv
    obtain ⟨j, hj, hw'⟩ := mem_take_other hw
    exact hother j w hj hw' v hmem
  unfold settled
  rw [hset]
  conv_rhs => rw [hts]
  simp only [List.flatMap_append, List.flatMap_cons, h, List.cons_append, runAll_append, runAll_cons,
    run_runAll_comm hpre]

/-- **A thread takes on its updates**: they come last. -/
theorem settled_begin (ht : ts[i]? = some t) (h : pending t = [])
    (hother : ∀ (j : Nat) (w : τ), j ≠ i → ts[j]? = some w → Apart (pending t') (pending w)) :
    settled pending (ts.set i t') store = runAll (pending t') (settled pending ts store) := by
  obtain ⟨hts, hset⟩ := split_set t' ht
  have hpost : Apart (pending t') ((ts.drop (i + 1)).flatMap pending) := by
    refine apart_flatMap fun w hw => ?_
    obtain ⟨j, hj, hw'⟩ := mem_drop_other hw
    exact hother j w hj hw'
  unfold settled
  rw [hset]
  conv_rhs => rw [hts]
  rw [List.flatMap_append, List.flatMap_append, List.flatMap_cons, List.flatMap_cons, h, List.nil_append,
    runAll_append, runAll_append, runAll_append, runAll_comm hpost]

end Settled

end Library.Updates
