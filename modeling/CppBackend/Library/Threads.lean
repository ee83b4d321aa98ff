import CppBackend.Library.Transition
import CppBackend.Library.Tally

/-!
# Threads over a shared memory with condition variables

A world is a shared state and a list of threads, each at its own program point.  A step picks
one thread that does not wait in a join; the program says how it changes the shared state and
its own point, and which condition variable it signals.  Every interleaving of the threads is a run.

* `World.step` — one step of one thread, with the delivery of its signal;
* `step_inv` — everything one step can do;
* `tally_step` — how a step moves a tally that does not tell a sleeper from a woken thread;
* `each_moved` — a law between the shared state and each single thread is kept by a step if
  the moving thread keeps it for itself and for every other thread.

Condition variables follow the standard: `notify_one` wakes one thread that is asleep on the
variable if there is one (any one), `notify_all` wakes all of them.
-/

set_option autoImplicit false

namespace Library.Threads

open Library.Tally Library.Transition

variable {σ τ κ α : Type}

/-- What a step tells the threads that are asleep.  The target of `one` is the scheduler's
choice of the thread to wake, `none` if no thread is asleep. -/
inductive Signal (κ : Type) where
  | quiet
  | one (cv : κ) (target : Option Nat)
  | all (cv : κ)

/-- The code of the threads: the next step of a thread, whether it is asleep on a condition
variable, its program point after a wake-up, and whether it has to wait for other threads to
end (a join). -/
structure Program (σ τ κ α : Type) where
  step : σ → τ → α → Option (σ × τ × Signal κ)
  asleep : κ → τ → Bool
  wake : τ → τ
  joining : List τ → τ → Bool

structure World (σ τ : Type) where
  shared : σ
  threads : List τ
  deriving DecidableEq, Repr

/-- Deliver a signal; `none` if the scheduler's choice is not a possible one. -/
def deliver (P : Program σ τ κ α) : Signal κ → List τ → Option (List τ)
  | .quiet, ts => some ts
  | .one cv none, ts => if ts.any (P.asleep cv) then none else some ts
  | .one cv (some j), ts =>
    match ts[j]? with
    | none => none
    | some t => if P.asleep cv t then some (ts.set j (P.wake t)) else none
  | .all cv, ts => some (ts.map fun t => if P.asleep cv t then P.wake t else t)

/-- One step of thread `a.1`, making its local choice `a.2`. -/
def World.step (P : Program σ τ κ α) (w : World σ τ) (a : Nat × α) : Option (World σ τ) :=
  match w.threads[a.1]? with
  | none => none
  | some t =>
    if P.joining w.threads t then none
    else match P.step w.shared t a.2 with
      | none => none
      | some (sh, t', sig) =>
        match deliver P sig (w.threads.set a.1 t') with
        | none => none
        | some ts => some ⟨sh, ts⟩

/-- The effect of a signal on the threads. -/
inductive Delivered (P : Program σ τ κ α) : Signal κ → List τ → List τ → Prop where
  | quiet (ts : List τ) : Delivered P .quiet ts ts
  | nobody {cv : κ} {ts : List τ} (h : ∀ t ∈ ts, P.asleep cv t = false) :
      Delivered P (.one cv none) ts ts
  | one {cv : κ} {j : Nat} {t : τ} {ts : List τ} (ht : ts[j]? = some t)
      (hs : P.asleep cv t = true) : Delivered P (.one cv (some j)) ts (ts.set j (P.wake t))
  | all (cv : κ) (ts : List τ) :
      Delivered P (.all cv) ts (ts.map fun t => if P.asleep cv t then P.wake t else t)

variable {P : Program σ τ κ α}

/-- A signal leaves a thread that is not asleep as it is. -/
theorem Delivered.stays {sig : Signal κ} {ts ts' : List τ} (h : Delivered P sig ts ts') {k : Nat}
    {u : τ} (hk : ts[k]? = some u) (hu : ∀ cv, P.asleep cv u = false) : ts'[k]? = some u := by
  cases h with
  | quiet => exact hk
  | nobody => exact hk
  | @one cv j t _ ht hs =>
    rw [List.getElem?_set_ne, hk]
    rintro rfl
    rw [ht, Option.some.injEq] at hk
    rw [hk, hu cv] at hs
    cases hs
  | all cv =>
    rw [List.getElem?_map, hk, Option.map_some, hu cv]
    rfl

/-- A thread was there before the signal, or it was asleep and is woken. -/
theorem Delivered.origin {sig : Signal κ} {ts ts' : List τ} (h : Delivered P sig ts ts') {k : Nat}
    {u : τ} (hk : ts'[k]? = some u) :
    ts[k]? = some u ∨ ∃ cv t, ts[k]? = some t ∧ P.asleep cv t = true ∧ u = P.wake t := by
  cases h with
  | quiet => exact Or.inl hk
  | nobody => exact Or.inl hk
  | @one cv j t _ ht hs =>
    rw [List.getElem?_set] at hk
    split at hk
    · rename_i hjk
      split at hk <;> cases hk
      exact Or.inr ⟨cv, t, hjk ▸ ht, hs, rfl⟩
    · exact Or.inl hk
  | all cv =>
    rw [List.getElem?_map, Option.map_eq_some_iff] at hk
    obtain ⟨t, ht, he⟩ := hk
    split at he
    · rename_i hs
      exact Or.inr ⟨cv, t, ht, hs, he.symm⟩
    · exact Or.inl (he ▸ ht)

/-- A signal does not change what waking a thread does not change. -/
theorem Delivered.map_eq {β : Type} {f : τ → β} (hf : ∀ cv t, P.asleep cv t = true → f (P.wake t) = f t)
    {sig : Signal κ} {ts ts' : List τ} (h : Delivered P sig ts ts') : ts'.map f = ts.map f := by
  cases h with
  | quiet => rfl
  | nobody => rfl
  | one ht hs =>
    rw [List.map_set, hf _ _ hs]
    refine List.ext_getElem? fun k => ?_
    rw [List.getElem?_set]
    split
    · rename_i hjk
      subst hjk
      rw [List.getElem?_map, ht]
      simp [(List.getElem?_eq_some_iff.mp ht).1]
    · rfl
  | all cv =>
    rw [List.map_map]
    refine List.map_congr_left fun t _ => ?_
    show f (if P.asleep cv t then P.wake t else t) = f t
    split
    · rename_i hs
      exact hf cv t hs
    · rfl

/-- A signal seen through a map of the threads under which the same ones are asleep. -/
theorem Delivered.map {τ' α' : Type} {P' : Program σ τ' κ α'} {f : τ → τ'}
    (hs : ∀ cv t, P'.asleep cv (f t) = P.asleep cv t)
    (hw : ∀ cv t, P.asleep cv t = true → f (P.wake t) = P'.wake (f t)) {sig : Signal κ}
    {ts ts' : List τ} (h : Delivered P sig ts ts') : Delivered P' sig (ts.map f) (ts'.map f) := by
  cases h with
  | quiet => exact .quiet _
  | nobody h =>
    refine .nobody fun t' ht' => ?_
    obtain ⟨t, ht, rfl⟩ := List.mem_map.mp ht'
    rw [hs]
    exact h t ht
  | @one cv j t _ ht hsleep =>
    rw [List.map_set, hw cv t hsleep]
    refine .one ?_ (by rw [hs]; exact hsleep)
    rw [List.getElem?_map, ht]
    rfl
  | all cv =>
    have hmap : (ts.map fun t => if P.asleep cv t then P.wake t else t).map f =
        (ts.map f).map fun t => if P'.asleep cv t then P'.wake t else t := by
      rw [List.map_map, List.map_map]
      refine List.map_congr_left fun t _ => ?_
      simp only [Function.comp_apply, hs]
      split
      · rename_i hsleep
        exact hw cv t hsleep
      · rfl
    rw [hmap]
    exact .all cv _

theorem delivered_of_deliver {sig : Signal κ} {ts ts' : List τ}
    (h : deliver P sig ts = some ts') : Delivered P sig ts ts' := by
  cases sig with
  | quiet => cases h; exact .quiet _
  | one cv target =>
    cases target with
    | none =>
      simp only [deliver] at h
      split at h
      · cases h
      · rename_i hn
        cases h
        refine .nobody fun t ht => ?_
        simpa using fun hc => hn (List.any_eq_true.mpr ⟨t, ht, hc⟩)
    | some j =>
      simp only [deliver] at h
      split at h
      · cases h
      · rename_i t ht
        split at h
        · rename_i hs
          cases h
          exact .one ht hs
        · cases h
  | all cv => cases h; exact .all _ _

/-- **Inversion of a step**: one thread moves as the program says, then its signal is
    delivered. -/
theorem step_inv {w w' : World σ τ} {a : Nat × α} (h : w.step P a = some w') :
    ∃ t t' sig, w.threads[a.1]? = some t ∧ P.step w.shared t a.2 = some (w'.shared, t', sig) ∧
      Delivered P sig (w.threads.set a.1 t') w'.threads := by
  unfold World.step at h
  split at h
  · cases h
  · rename_i t ht
    split at h
    · cases h
    · split at h
      · cases h
      · rename_i sh t' sig hp
        split at h
        · cases h
        · rename_i ts hd
          cases h
          exact ⟨t, t', sig, ht, hp, delivered_of_deliver hd⟩

/-- Whoever moves is not waiting in a join. -/
theorem step_not_joining {w w' : World σ τ} {a : Nat × α} {t : τ} (h : w.step P a = some w')
    (ht : w.threads[a.1]? = some t) : P.joining w.threads t = false := by
  unfold World.step at h
  simp only [ht] at h
  split at h
  · cases h
  · rename_i hj
    exact Bool.eq_false_of_not_eq_true hj

/-- `notify_one` can always be delivered: to somebody asleep, or to nobody. -/
theorem exists_target (P : Program σ τ κ α) (cv : κ) (ts : List τ) :
    ∃ target ts', deliver P (.one cv target) ts = some ts' := by
  by_cases h : ts.any (P.asleep cv) = true
  · obtain ⟨t, ht, hs⟩ := List.any_eq_true.mp h
    obtain ⟨j, hj⟩ := List.mem_iff_getElem?.mp ht
    exact ⟨some j, ts.set j (P.wake t), by simp only [deliver, hj, hs, if_true]⟩
  · exact ⟨none, ts, if_neg h⟩

/-- A thread that can move and is not joining makes its step, if its signal can be delivered. -/
theorem step_of {w : World σ τ} {i : Nat} {c : α} {t t' : τ} {sh' : σ} {sig : Signal κ} {ts' : List τ}
    (ht : w.threads[i]? = some t) (hj : P.joining w.threads t = false)
    (hp : P.step w.shared t c = some (sh', t', sig))
    (hd : deliver P sig (w.threads.set i t') = some ts') : w.step P (i, c) = some ⟨sh', ts'⟩ := by
  unfold World.step
  simp only [ht, hj, hp, hd]
  exact if_neg Bool.false_ne_true

/-- A thread moves on alone, without a signal and without a join. -/
def Alone (P : Program σ τ κ α) : σ × τ → σ × τ → Prop :=
  Relation.ReflTransGen fun x y =>
    (∀ ts, P.joining ts x.2 = false) ∧ ∃ c, P.step x.1 x.2 c = some (y.1, y.2, .quiet)

theorem Alone.one {x y : σ × τ} (c : α) (h : P.step x.1 x.2 c = some (y.1, y.2, .quiet))
    (hj : ∀ ts, P.joining ts x.2 = false := by exact fun _ => rfl) : Alone P x y :=
  Relation.ReflTransGen.single ⟨hj, c, h⟩

theorem Alone.trans {x y z : σ × τ} (h : Alone P x y) (h' : Alone P y z) : Alone P x z :=
  Relation.ReflTransGen.trans h h'

/-- What a thread does alone, it does among the others. -/
theorem Alone.reach {w : World σ τ} {i : Nat} {t t' : τ} {sh' : σ} (h : Alone P (w.shared, t) (sh', t'))
    (ht : w.threads[i]? = some t) : Reach anyStep (World.step P) w ⟨sh', w.threads.set i t'⟩ := by
  obtain ⟨hi, hget⟩ := List.getElem?_eq_some_iff.mp ht
  suffices hall : ∀ y, Alone P (w.shared, t) y → Reach anyStep (World.step P) w ⟨y.1, w.threads.set i y.2⟩ from
    hall (sh', t') h
  intro y hy
  induction hy with
  | refl =>
    show Reach anyStep (World.step P) w ⟨w.shared, w.threads.set i t⟩
    rw [← hget, List.set_getElem_self]
    exact Reach.refl
  | @tail y z _ hm ih =>
    obtain ⟨hj, c, hc⟩ := hm
    refine ih.tail (a := (i, c)) (step_of ?_ (hj _) hc rfl) trivial |>.trans ?_
    · exact List.getElem?_set_self hi
    · rw [List.set_set]
      exact Reach.refl

/-! ## Tallies along a step -/

/-- The weight does not tell a sleeping thread from the same thread woken. -/
def WakeBlind (P : Program σ τ κ α) (f : τ → Int) : Prop :=
  ∀ cv t, P.asleep cv t = true → f (P.wake t) = f t

theorem tally_delivered {f : τ → Int} (hf : WakeBlind P f) {sig : Signal κ} {ts ts' : List τ}
    (h : Delivered P sig ts ts') : tally f ts' = tally f ts := by
  cases h with
  | quiet => rfl
  | nobody => rfl
  | one ht hs => rw [tally_set ht, hf _ _ hs]; omega
  | all cv =>
    rw [tally_map]
    refine tally_congr fun t _ => ?_
    split
    · rename_i hs; exact hf _ _ hs
    · rfl

/-- A step moves a wake-blind tally by what the moving thread contributes. -/
theorem tally_moved {f : τ → Int} (hf : WakeBlind P f) {sig : Signal κ} {ts ts' : List τ}
    {i : Nat} {t t' : τ} (ht : ts[i]? = some t) (h : Delivered P sig (ts.set i t') ts') :
    tally f ts' = tally f ts - f t + f t' := by
  rw [tally_delivered hf h, tally_set ht]

/-- A signal does not raise a weight that waking a thread does not raise. -/
theorem tally_delivered_le {f : τ → Int}
    (hf : ∀ cv t, P.asleep cv t = true → f (P.wake t) ≤ f t) {sig : Signal κ} {ts ts' : List τ}
    (h : Delivered P sig ts ts') : tally f ts' ≤ tally f ts := by
  cases h with
  | quiet => exact le_refl _
  | nobody => exact le_refl _
  | one ht hs =>
    have := hf _ _ hs
    rw [tally_set ht]
    omega
  | all cv =>
    rw [tally_map]
    apply tally_mono
    intro t
    split
    · rename_i hs; exact hf cv t hs
    · exact le_refl _

/-- A signal does not lower a weight that waking a thread does not lower. -/
theorem tally_delivered_ge {f : τ → Int}
    (hf : ∀ cv t, P.asleep cv t = true → f t ≤ f (P.wake t)) {sig : Signal κ} {ts ts' : List τ}
    (h : Delivered P sig ts ts') : tally f ts ≤ tally f ts' := by
  have hneg := tally_delivered_le (f := fun t => -f t)
    (fun cv t hs => Int.neg_le_neg (hf cv t hs)) h
  rw [tally_neg, tally_neg] at hneg
  omega

/-- A quantity made of a shared part and a wake-blind tally is kept by a step if the moving
    thread keeps its share of it. -/
theorem sum_step {g : σ → Int} {f : τ → Int} (hf : WakeBlind P f) {sig : Signal κ}
    {w w' : World σ τ} {i : Nat} {t t' : τ} (ht : w.threads[i]? = some t)
    (h : Delivered P sig (w.threads.set i t') w'.threads)
    (hl : g w'.shared + f t' = g w.shared + f t) :
    g w'.shared + tally f w'.threads = g w.shared + tally f w.threads := by
  rw [tally_moved hf ht h]
  omega

/-- Nobody is left asleep after `notify_all`. -/
theorem tally_all {f : τ → Int} {cv : κ} (hf : ∀ t, P.asleep cv t = false → f t = 0)
    (hw : ∀ t, P.asleep cv t = true → f (P.wake t) = 0) {ts ts' : List τ}
    (h : Delivered P (.all cv) ts ts') : tally f ts' = 0 := by
  cases h
  rw [tally_map, tally_congr (g := fun _ => 0)]
  · simp [tally]
  · intro t _
    split
    · rename_i hs; exact hw t hs
    · rename_i hs; exact hf t (by simpa using hs)

/-! ## What each thread does once -/

/-- A step logs what the thread had left to log, or neither changes. -/
inductive Once {γ : Type} (log : σ → List γ) (left : τ → Option γ) (sh : σ) (t : τ) (sh' : σ) (t' : τ) : Prop where
  | keep (h : log sh' = log sh) (ht : left t' = left t)
  | logs {c : γ} (ht : left t = some c) (ht' : left t' = none) (h : log sh' = log sh ++ [c])

/-- What has been logged and what is left to log stay the same together. -/
theorem once_step {γ : Type} {log : σ → List γ} {left : τ → Option γ} {all : List γ} {w w' : World σ τ} {i : Nat}
    {t t' : τ} (ht : w.threads[i]? = some t) (hs : w'.threads = w.threads.set i t')
    (h : Once log left w.shared t w'.shared t') (hp : (log w.shared ++ w.threads.filterMap left).Perm all) :
    (log w'.shared ++ w'.threads.filterMap left).Perm all := by
  cases h with
  | keep h hl =>
    rw [hs, h, filterMap_set_same ht hl]
    exact hp
  | logs hl hl' h =>
    have hperm := filterMap_set_perm ht hl hl'
    rw [hs, h, List.append_assoc]
    exact (hperm.append_left (log w.shared)).trans hp

/-! ## Laws between the shared state and each thread -/

/-- Each thread satisfies `Q` together with the shared state. -/
def Each (Q : σ → τ → Prop) (w : World σ τ) : Prop :=
  ∀ (j : Nat) (t : τ), w.threads[j]? = some t → Q w.shared t

theorem Each.mem {Q : σ → τ → Prop} {w : World σ τ} (h : Each Q w) {t : τ}
    (ht : t ∈ w.threads) : Q w.shared t := by
  obtain ⟨j, hj⟩ := List.mem_iff_getElem?.mp ht
  exact h j t hj

theorem each_delivered {Q : τ → Prop} (hw : ∀ cv t, P.asleep cv t = true → Q t → Q (P.wake t))
    {sig : Signal κ} {ts ts' : List τ} (h : Delivered P sig ts ts')
    (hq : ∀ (j : Nat) (t : τ), ts[j]? = some t → Q t) :
    ∀ (j : Nat) (t : τ), ts'[j]? = some t → Q t := by
  cases h with
  | quiet => exact hq
  | nobody => exact hq
  | @one cv k u _ hu hs =>
    intro j t ht
    rw [List.getElem?_set] at ht
    split at ht
    · split at ht
      · cases ht; exact hw cv u hs (hq k u hu)
      · cases ht
    · exact hq j t ht
  | all cv =>
    intro j t ht
    rw [List.getElem?_map] at ht
    cases hj : ts[j]? with
    | none => rw [hj] at ht; cases ht
    | some u =>
      rw [hj, Option.map_some, Option.some.injEq] at ht
      subst ht
      split
      · rename_i hs; exact hw cv u hs (hq j u hj)
      · exact hq j u hj

/-- **Rule for laws between the shared state and each thread.** -/
theorem each_moved {Q : σ → τ → Prop} {w w' : World σ τ} {i : Nat} {t' : τ} {sig : Signal κ}
    (hd : Delivered P sig (w.threads.set i t') w'.threads) (own : Q w'.shared t')
    (others : ∀ j u, j ≠ i → w.threads[j]? = some u → Q w'.shared u)
    (woken : ∀ cv sh t, P.asleep cv t = true → Q sh t → Q sh (P.wake t)) : Each Q w' := by
  refine each_delivered (fun cv u hs hu => woken cv _ u hs hu) hd ?_
  intro j u hu
  rw [List.getElem?_set] at hu
  split at hu
  · split at hu
    · cases hu; exact own
    · cases hu
  · rename_i hne
    exact others j u (Ne.symm hne) hu

end Library.Threads
