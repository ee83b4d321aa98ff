import CppBackend.ObserverMode.Model

/-!
# Delivery is exact, pruning is unobservable

`notify` erases the expired entries on its way, `detach` steps over them.  The reference list of a
history is the log of its attaches from which each detach deletes the earliest entry of its observer, and
from which nothing else is erased.

* `detach_eq`, `notify_eq` — what the two loops compute;
* `Tracks` — the vector has the same living entries as another list; every call keeps this
  (`Tracks.record`), and does not tell the two lists apart (`Tracks.follow`);
* `delivery_exact` — for every history.
-/

set_option autoImplicit false

namespace CppBackend.ObserverMode

open Library.Loop Library.Transition

/-! ## The two loops -/

namespace Subject

variable {lock : Observer → Bool} {observers : List Observer} {obs : Observer}

/-- At the head of the loop of `detach`: no entry of the observer has been passed. -/
structure Detaching.Inv (observers : List Observer) (obs : Observer) (d : Detaching) : Prop where
  unchanged : d.observers = observers
  passed : obs ∉ observers.take d.it

variable {d d' : Detaching} {r : List Observer}

theorem eraseIdx_eq_erase {it : Nat} (hget : observers[it]? = some obs)
    (hpassed : obs ∉ observers.take it) : observers.eraseIdx it = observers.erase obs := by
  have hlt : it < observers.length := (List.getElem?_eq_some_iff.mp hget).1
  have hsplit : observers = observers.take it ++ obs :: observers.drop (it + 1) := by
    rw [List.getElem?_eq_getElem hlt, Option.some.injEq] at hget
    rw [← hget, List.getElem_cons_drop, List.take_append_drop]
  calc observers.eraseIdx it = observers.take it ++ observers.drop (it + 1) :=
        List.eraseIdx_eq_take_drop_succ _ _
    _ = (observers.take it ++ obs :: observers.drop (it + 1)).erase obs := by
        rw [List.erase_append_right _ hpassed, List.erase_cons_head]
    _ = observers.erase obs := by rw [← hsplit]

theorem detach_again (hi : Detaching.Inv observers obs d)
    (h : detachStep lock (some obs) d = .again d') (hlive : lock obs = true) :
    Detaching.Inv observers obs d' ∧ observers.length - d'.it < observers.length - d.it := by
  unfold detachStep at h
  split at h
  · cases h
  · rename_i spt hget
    rw [hi.unchanged] at hget
    obtain ⟨hlt, hspt⟩ := List.getElem?_eq_some_iff.mp hget
    split at h
    · cases h
    · rename_i hother
      cases h
      refine ⟨⟨hi.unchanged, ?_⟩, by simp only; omega⟩
      show obs ∉ observers.take (d.it + 1)
      rw [List.take_succ_eq_append_getElem hlt, hspt]
      simp only [List.mem_append, List.mem_singleton, not_or]
      refine ⟨hi.passed, ?_⟩
      rintro rfl
      exact hother ⟨hlive, rfl⟩

theorem detach_done (hi : Detaching.Inv observers obs d)
    (h : detachStep lock (some obs) d = .done r) : r = observers.erase obs := by
  unfold detachStep at h
  rw [hi.unchanged] at h
  split at h
  · rename_i hget
    cases h
    have hpassed := hi.passed
    rw [List.take_of_length_le (List.getElem?_eq_none_iff.mp hget)] at hpassed
    exact (List.erase_of_not_mem hpassed).symm
  · rename_i spt hget
    split at h
    · rename_i hfound
      cases h
      cases hfound.2
      exact eraseIdx_eq_erase hget hi.passed
    · cases h

/-- **`detach`** deletes the earliest entry of an observer that is alive. -/
theorem detach_eq (hlive : lock obs = true) :
    detach lock observers (some obs) = some (observers.erase obs) := by
  have hrun : ∃ r, detach lock observers (some obs) = some r ∧ r = observers.erase obs :=
    run_spec (I := Detaching.Inv observers obs)
      (μ := fun d : Detaching => observers.length - d.it)
      (fun _ _ hi h => detach_again hi h hlive) (fun _ _ hi h => detach_done hi h)
      ⟨rfl, by simp⟩ (by simp)
  obtain ⟨r, hr, rfl⟩ := hrun
  exact hr

/-- A null pointer is equal to no entry. -/
theorem detach_null : detach lock observers none = some observers := by
  have hrun : ∃ r, detach lock observers none = some r ∧ r = observers := by
    apply run_spec (I := fun d : Detaching => d.observers = observers)
      (μ := fun d : Detaching => observers.length - d.it)
    · intro d d' hi h
      unfold detachStep at h
      split at h
      · cases h
      · rename_i spt hget
        rw [hi] at hget
        obtain ⟨hlt, -⟩ := List.getElem?_eq_some_iff.mp hget
        simp only [reduceCtorEq, and_false, if_false] at h
        cases h
        exact ⟨hi, by simp only; omega⟩
    · intro d r hi h
      unfold detachStep at h
      split at h
      · cases h
        exact hi
      · simp at h
    · rfl
    · simp
  obtain ⟨r, hr, rfl⟩ := hrun
  exact hr

/-- At the head of the loop of `notify`: the entries passed are alive and have been updated. -/
structure Notifying.Inv (lock : Observer → Bool) (observers : List Observer) (rest : List Observer)
    (d : Notifying) : Prop where
  split : d.observers = d.updated ++ rest
  it : d.it = d.updated.length
  filter : d.updated ++ rest.filter lock = observers.filter lock

variable {e e' : Notifying} {rest : List Observer}

theorem Notifying.Inv.get (hi : Notifying.Inv lock observers rest e) :
    e.observers[e.it]? = rest[0]? := by
  rw [hi.split, hi.it, List.getElem?_append_right (Nat.le_refl _), Nat.sub_self]

theorem notify_again (hi : ∃ rest, Notifying.Inv lock observers rest e)
    (h : notifyStep lock e = .again e') : (∃ rest, Notifying.Inv lock observers rest e') ∧
      e'.observers.length - e'.it < e.observers.length - e.it := by
  obtain ⟨rest, hi⟩ := hi
  have hlen : e.observers.length = e.it + rest.length := by
    rw [hi.split, hi.it, List.length_append]
  unfold notifyStep at h
  rw [hi.get] at h
  cases rest with
  | nil => cases h
  | cons spt rest =>
    have hfilter := hi.filter
    simp only [List.getElem?_cons_zero] at h
    simp only [List.length_cons] at hlen
    split at h
    · rename_i halive
      cases h
      rw [List.filter_cons_of_pos halive] at hfilter
      refine ⟨⟨rest, ?_, ?_, ?_⟩, by simp only; omega⟩
      · simp [hi.split]
      · simp [hi.it]
      · simpa using hfilter
    · rename_i hexpired
      cases h
      rw [List.filter_cons_of_neg hexpired] at hfilter
      have herase : e.observers.eraseIdx e.it = e.updated ++ rest := by
        rw [hi.split, hi.it, List.eraseIdx_append_of_length_le (Nat.le_refl _)]
        simp
      have hless : (e.observers.eraseIdx e.it).length = e.it + rest.length := by
        rw [herase, hi.it, List.length_append]
      exact ⟨⟨rest, herase, hi.it, hfilter⟩, by simp only; omega⟩

theorem notify_done {r : List Observer × List Observer}
    (hi : ∃ rest, Notifying.Inv lock observers rest e) (h : notifyStep lock e = .done r) :
    r = (observers.filter lock, observers.filter lock) := by
  obtain ⟨rest, hi⟩ := hi
  unfold notifyStep at h
  rw [hi.get] at h
  cases rest with
  | nil =>
    have hfilter := hi.filter
    have hsplit := hi.split
    simp only [List.filter_nil, List.append_nil] at hfilter hsplit
    cases h
    rw [hsplit, hfilter]
  | cons spt rest =>
    simp only [List.getElem?_cons_zero] at h
    split at h <;> cases h

/-- **`notify`** updates the living entries in order, and they are what it leaves in the vector. -/
theorem notify_eq : notify lock observers = some (observers.filter lock, observers.filter lock) := by
  have hrun : ∃ r, notify lock observers = some r ∧
      r = (observers.filter lock, observers.filter lock) :=
    run_spec (I := fun e => ∃ rest, Notifying.Inv lock observers rest e)
      (μ := fun e : Notifying => e.observers.length - e.it)
      (fun _ _ hi h => notify_again hi h) (fun _ _ hi h => notify_done hi h)
      ⟨observers, rfl, rfl, rfl⟩ (by simp)
  obtain ⟨r, hr, rfl⟩ := hrun
  exact hr

end Subject

/-! ## The reference list -/

/-- What a call does to the reference list. -/
def record (entries : List Observer) : Call → List Observer
  | .attach (some obs) => entries ++ [obs]
  | .detach (some obs) => entries.erase obs
  | _ => entries

def reference (calls : List Call) : List Observer := calls.foldl record []

/-- How a call changes the number of attaches of `obs` that no detach has undone; a detach without
    an attach before it undoes none. -/
def tallied (obs : Observer) (n : Nat) : Call → Nat
  | .attach (some o) => if o = obs then n + 1 else n
  | .detach (some o) => if o = obs then n - 1 else n
  | _ => n

def outstanding (obs : Observer) (calls : List Call) : Nat := calls.foldl (tallied obs) 0

theorem count_record (obs : Observer) (entries : List Observer) (c : Call) :
    (record entries c).count obs = tallied obs (entries.count obs) c := by
  unfold record tallied
  split
  · rename_i o
    rw [List.count_append, List.count_singleton]
    by_cases h : o = obs
    · simp [h]
    · simp [h]
  · rename_i o
    rw [List.count_erase]
    by_cases h : o = obs
    · simp [h]
    · simp [h]
  · rfl

theorem count_reference (obs : Observer) (calls : List Call) :
    (reference calls).count obs = outstanding obs calls := by
  have hgen : ∀ entries : List Observer, (calls.foldl record entries).count obs =
      calls.foldl (tallied obs) (entries.count obs) := by
    induction calls with
    | nil =>
      intro entries
      rfl
    | cons c calls ih =>
      intro entries
      rw [List.foldl_cons, List.foldl_cons, ih, count_record]
  exact hgen []

/-! ## The steps of a history -/

/-- Everything that a call does. -/
inductive Moves (w : World) : Call → World → Prop where
  | create : Moves w .create { w with alive := w.alive ++ [w.next], next := w.next + 1 }
  | destroy {obs : Observer} (h : w.lock obs = true) :
      Moves w (.destroy obs) { w with alive := w.alive.filter (· ≠ obs) }
  | attach {obs : Option Observer} (h : w.valid obs = true) :
      Moves w (.attach obs) { w with observers := record w.observers (.attach obs) }
  | detach {obs : Option Observer} (h : w.valid obs = true) :
      Moves w (.detach obs) { w with observers := record w.observers (.detach obs) }
  | notify (message : String) :
      Moves w (.notify message) { w with
        observers := w.observers.filter w.lock
        received := w.received ++ (w.observers.filter w.lock).map (·, message) }

variable {w w' : World} {c : Call} {entries : List Observer}

theorem detach_record {obs : Option Observer} (h : w.valid obs = true) :
    Subject.detach w.lock w.observers obs = some (record w.observers (.detach obs)) := by
  cases obs with
  | none => exact Subject.detach_null
  | some obs => exact Subject.detach_eq h

theorem step_moves (h : step w c = some w') : Moves w c w' := by
  cases c with
  | create =>
    cases h
    exact .create
  | destroy obs =>
    simp only [step] at h
    split at h
    · rename_i hlive
      cases h
      exact .destroy hlive
    · cases h
  | attach obs =>
    simp only [step] at h
    split at h
    · rename_i hvalid
      cases h
      cases obs with
      | none => exact .attach hvalid
      | some obs => exact .attach hvalid
    · cases h
  | detach obs =>
    simp only [step] at h
    split at h
    · rename_i hvalid
      rw [detach_record hvalid] at h
      cases h
      exact .detach hvalid
    · cases h
  | notify message =>
    simp only [step, Subject.notify_eq] at h
    cases h
    exact .notify message

theorem Moves.step (h : Moves w c w') : step w c = some w' := by
  cases h with
  | create => rfl
  | destroy h => simp only [ObserverMode.step, h, if_true]
  | @attach obs h =>
    simp only [ObserverMode.step, h, if_true]
    cases obs with
    | none => rfl
    | some obs => rfl
  | detach h => simp only [ObserverMode.step, h, if_true, detach_record h]
  | notify message => simp only [ObserverMode.step, Subject.notify_eq]

/-! ## Two lists with the same living entries -/

/-- The numbers in a list have been given out. -/
def Given (w : World) (l : List Observer) : Prop := ∀ obs ∈ l, obs < w.next

/-- The vector and `entries` have the same living entries. -/
structure Tracks (w : World) (entries : List Observer) : Prop where
  same : w.observers.filter w.lock = entries.filter w.lock
  alive : Given w w.alive
  observers : Given w w.observers
  entries : Given w entries

theorem Tracks.init : Tracks World.init [] := by
  refine ⟨rfl, ?_, ?_, ?_⟩ <;> exact fun _ h => absurd h List.not_mem_nil

theorem lock_create (l : List Observer) (h : Given w l) :
    l.filter ({ w with alive := w.alive ++ [w.next], next := w.next + 1 } : World).lock =
      l.filter w.lock := by
  apply List.filter_congr
  intro obs hobs
  have hne : obs ≠ w.next := Nat.ne_of_lt (h obs hobs)
  simp [World.lock, hne]

theorem lock_destroy (l : List Observer) (obs : Observer) :
    l.filter ({ w with alive := w.alive.filter (· ≠ obs) } : World).lock =
      (l.filter w.lock).filter (· ≠ obs) := by
  rw [List.filter_filter]
  apply List.filter_congr
  intro o _
  simp [World.lock, and_comm]

theorem Given.of_subset {l l' : List Observer} (h : Given w l) (hsub : ∀ obs ∈ l', obs ∈ l) :
    Given w l' := fun obs hobs => h obs (hsub obs hobs)

theorem Given.record {l : List Observer} (h : Given w l) (halive : Given w w.alive)
    {obs : Option Observer} (hvalid : w.valid obs = true) :
    Given w (ObserverMode.record l (.attach obs)) ∧ Given w (ObserverMode.record l (.detach obs)) := by
  cases obs with
  | none => exact ⟨h, h⟩
  | some obs =>
    refine ⟨fun o ho => ?_, h.of_subset fun o ho => List.mem_of_mem_erase ho⟩
    rcases List.mem_append.mp ho with ho | ho
    · exact h o ho
    · rw [List.mem_singleton.mp ho]
      apply halive obs
      simpa [World.valid, World.lock] using hvalid

/-- Equal living entries stay equal when both lists are attached to or detached from. -/
theorem filter_record {lock : Observer → Bool} {l l' : List Observer}
    (h : l.filter lock = l'.filter lock) (c : Call) :
    (record l c).filter lock = (record l' c).filter lock := by
  unfold record
  split
  · rw [List.filter_append, List.filter_append, h]
  · rw [← List.erase_filter, ← List.erase_filter, h]
  · exact h

/-- What a call leaves of a list. -/
def pruned (lock : Observer → Bool) (entries : List Observer) (c : Call) : List Observer :=
  match c with
  | .notify _ => entries.filter lock
  | c => record entries c

/-- A call goes on from `entries` as it goes on from the vector. -/
theorem Tracks.follow (h : Tracks w entries) (hm : Moves w c w') :
    Moves { w with observers := entries } c { w' with observers := pruned w.lock entries c } ∧
      Tracks w' (pruned w.lock entries c) := by
  cases hm with
  | create =>
    refine ⟨.create, ?_, ?_, fun obs ho => ?_, fun obs ho => ?_⟩
    · show w.observers.filter _ = entries.filter _
      rw [lock_create _ h.observers, lock_create _ h.entries, h.same]
    · intro obs ho
      rcases List.mem_append.mp ho with ho | ho
      · exact Nat.lt_succ_of_lt (h.alive obs ho)
      · rw [List.mem_singleton.mp ho]
        exact Nat.lt_succ_self _
    · exact Nat.lt_succ_of_lt (h.observers obs ho)
    · exact Nat.lt_succ_of_lt (h.entries obs ho)
  | @destroy obs hlive =>
    refine ⟨.destroy hlive, ?_, ?_, h.observers, h.entries⟩
    · show w.observers.filter _ = entries.filter _
      rw [lock_destroy, lock_destroy, h.same]
    · exact h.alive.of_subset fun o ho => (List.mem_filter.mp ho).1
  | attach hvalid =>
    exact ⟨.attach hvalid, filter_record h.same _, h.alive,
      (h.observers.record h.alive hvalid).1, (h.entries.record h.alive hvalid).1⟩
  | detach hvalid =>
    exact ⟨.detach hvalid, filter_record h.same _, h.alive,
      (h.observers.record h.alive hvalid).2, (h.entries.record h.alive hvalid).2⟩
  | notify message =>
    have hmove := Moves.notify (w := { w with observers := entries }) message
    refine ⟨?_, ?_, h.alive, ?_, ?_⟩
    · rw [h.same]
      exact hmove
    · show (w.observers.filter w.lock).filter w.lock = (entries.filter w.lock).filter w.lock
      rw [h.same]
    · exact h.observers.of_subset fun o ho => (List.mem_filter.mp ho).1
    · exact h.entries.of_subset fun o ho => (List.mem_filter.mp ho).1

/-- The reference list is followed without pruning. -/
theorem Tracks.record (h : Tracks w entries) (hm : Moves w c w') :
    Tracks w' (ObserverMode.record entries c) := by
  have ht := (h.follow hm).2
  cases hm with
  | create => exact ht
  | destroy => exact ht
  | attach => exact ht
  | detach => exact ht
  | notify message =>
    refine ⟨?_, ht.alive, ht.observers, h.entries⟩
    show (w.observers.filter w.lock).filter w.lock = entries.filter w.lock
    rw [List.filter_filter, h.same.symm]
    simp

/-! ## Histories -/

theorem exec_tracks : ∀ (calls : List Call) {w : World} {entries : List Observer},
    Tracks w entries → exec step w calls = some w' → Tracks w' (calls.foldl record entries)
  | [], _, _, h, hrun => by
    cases hrun
    exact h
  | c :: calls, _, _, h, hrun => by
    obtain ⟨u, hs, hrest⟩ := exec_cons hrun
    exact exec_tracks calls (h.record (step_moves hs)) hrest

/-- What a history shows: the calls of `update`, and the living entries. -/
def World.visible (w : World) : List (Observer × String) × List Observer :=
  (w.received, w.observers.filter w.lock)

theorem Tracks.visible (h : Tracks w entries) :
    w.visible = ({ w with observers := entries } : World).visible := by
  unfold World.visible
  rw [h.same]
  rfl

theorem Tracks.symm (h : Tracks w entries) : Tracks { w with observers := entries } w.observers :=
  ⟨h.same.symm, h.alive, h.entries, h.observers⟩

/-- From two lists with the same living entries, every history goes on alike. -/
theorem exec_follow : ∀ (later : List Call) {w : World} {entries : List Observer},
    Tracks w entries → (exec step w later).map World.visible =
      (exec step { w with observers := entries } later).map World.visible
  | [], _, _, h => by
    simp only [exec, Option.map_some, h.visible]
  | c :: later, w, entries, h => by
    cases hs : step w c with
    | some u =>
      obtain ⟨hm, ht⟩ := h.follow (step_moves hs)
      simp only [exec, hs, hm.step]
      exact exec_follow later ht
    | none =>
      cases hs' : step { w with observers := entries } c with
      | none => simp only [exec, hs, hs']
      | some u =>
        have hm := (h.symm.follow (step_moves hs')).1.step
        rw [hs] at hm
        cases hm

/-- **Delivery and pruning**: in every history `notify` updates the living entries of the reference list,
    in order; each living observer once for every attach not undone; and no later history
    tells whether `notify` has erased the expired entries. -/
theorem delivery_exact (calls : List Call) (w : World) (hrun : exec step World.init calls = some w)
    (message : String) : ∃ w' updated, step w (.notify message) = some w' ∧
      updated = (reference calls).filter w.lock ∧
      w'.received = w.received ++ updated.map (·, message) ∧
      (∀ obs, w.lock obs = true → updated.count obs = outstanding obs calls) ∧
      ∀ later, (exec step w' later).map World.visible =
        (exec step { w' with observers := w.observers } later).map World.visible := by
  have ht : Tracks w (reference calls) := exec_tracks calls Tracks.init hrun
  have hm := Moves.notify (w := w) message
  refine ⟨_, (reference calls).filter w.lock, hm.step, rfl, ?_, fun obs hlive => ?_, fun later => ?_⟩
  · rw [ht.same]
  · rw [List.count_filter hlive, count_reference]
  · have hself : Tracks w w.observers := ⟨rfl, ht.alive, ht.observers, ht.observers⟩
    exact exec_follow later (hself.record hm)

/-- One observer attached twice, another one destroyed while it is attached. -/
theorem delivery_exact_expired : ∃ w' updated, step ⟨[0, 1, 0], [0], 2, []⟩ (.notify "a") = some w' ∧
    updated = [0, 0] ∧ w'.received = [] ++ updated.map (·, "a") := by
  obtain ⟨w', updated, hs, hupdated, hreceived, -⟩ := delivery_exact
    [.create, .create, .attach (some 0), .attach (some 1), .attach (some 0), .destroy 1]
    ⟨[0, 1, 0], [0], 2, []⟩ (by decide) "a"
  exact ⟨w', updated, hs, hupdated, hreceived⟩

end CppBackend.ObserverMode
