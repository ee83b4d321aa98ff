import Mathlib.Logic.Relation

/-!
# Labelled transition systems

A system is given by a partial step function `step : σ → α → Option σ`; a run is a list of
actions.  Side conditions on a run (a discipline of the environment, a bound, a guard that
the code itself does not test) are a predicate on each step taken.

* `exec` — execute a list of actions;
* `Reach ok step s₀ s` — some run from `s₀` to `s`, each of whose steps satisfies `ok`;
* `Reach.invariant` — a property of the initial state that every allowed step keeps holds in
  every reachable state;
* `Reach.mono` — a weaker side condition allows more runs;
* `Reach.map` — a system that moves with another one, or leaves it as it is, projects to it;
* `exec_reach` — an executed list of actions is a run;
* `exec_measure` — a run has no more counted actions than a measure allows;
* `Stays`, `Allowed` — a property of every state, and of every step, along one run.
-/

set_option autoImplicit false

namespace Library.Transition

variable {σ α : Type}

/-- Execute a list of actions; `none` as soon as one of them is not enabled. -/
def exec (step : σ → α → Option σ) : σ → List α → Option σ
  | s, [] => some s
  | s, a :: as =>
    match step s a with
    | none => none
    | some s' => exec step s' as

theorem exec_append (step : σ → α → Option σ) :
    ∀ (as bs : List α) {s t : σ}, exec step s as = some t →
      exec step s (as ++ bs) = exec step t bs
  | [], _, _, _, h => by
    simp only [exec, Option.some.injEq] at h
    rw [h, List.nil_append]
  | a :: as, bs, s, t, h => by
    simp only [exec, List.cons_append] at h ⊢
    split at h
    · cases h
    · rename_i s' hs
      exact exec_append step as bs h

/-- One allowed step. -/
def Move (ok : σ → α → σ → Prop) (step : σ → α → Option σ) (s s' : σ) : Prop :=
  ∃ a, step s a = some s' ∧ ok s a s'

/-- Some run from `s₀` to `s` all of whose steps satisfy `ok`. -/
def Reach (ok : σ → α → σ → Prop) (step : σ → α → Option σ) : σ → σ → Prop :=
  Relation.ReflTransGen (Move ok step)

/-- The side condition that allows every step. -/
def anyStep : σ → α → σ → Prop := fun _ _ _ => True

variable {ok ok' : σ → α → σ → Prop} {step : σ → α → Option σ} {s₀ s t : σ}

theorem Reach.refl : Reach ok step s₀ s₀ := Relation.ReflTransGen.refl

theorem Reach.tail (h : Reach ok step s₀ s) {a : α} (hs : step s a = some t) (ha : ok s a t) :
    Reach ok step s₀ t :=
  Relation.ReflTransGen.tail h ⟨a, hs, ha⟩

theorem Reach.trans (h : Reach ok step s₀ s) (h' : Reach ok step s t) : Reach ok step s₀ t :=
  Relation.ReflTransGen.trans h h'

/-- **Invariant rule.** -/
theorem Reach.invariant {I : σ → Prop} (h0 : I s₀)
    (hstep : ∀ s a s', I s → step s a = some s' → ok s a s' → I s') (h : Reach ok step s₀ s) :
    I s := by
  induction h with
  | refl => exact h0
  | tail _ hm ih =>
    obtain ⟨a, hs, ha⟩ := hm
    exact hstep _ a _ ih hs ha

/-- Invariant rule on top of facts that are already known of every reachable state. -/
theorem Reach.invariant_of {K I : σ → Prop} (hK : ∀ s, Reach ok step s₀ s → K s) (h0 : I s₀)
    (hstep : ∀ s a s', K s → I s → step s a = some s' → ok s a s' → I s')
    (h : Reach ok step s₀ s) : I s := by
  induction h with
  | refl => exact h0
  | tail hr hm ih =>
    obtain ⟨a, hs, ha⟩ := hm
    exact hstep _ a _ (hK _ hr) ih hs ha

/-- What every allowed step keeps from a reachable state on stays. -/
theorem Reach.keeps {D : σ → Prop} (h : Reach ok step s t) (hr : Reach ok step s₀ s)
    (hkeep : ∀ s a s', Reach ok step s₀ s → D s → step s a = some s' → ok s a s' → D s') (hd : D s) :
    D t := by
  induction h with
  | refl => exact hd
  | tail hmid hm ih =>
    obtain ⟨a, hs, ha⟩ := hm
    exact hkeep _ a _ (hr.trans hmid) ih hs ha

/-- **Rule for what can still be reached.**  If a run that has not come to `D` can always go on to where a
    measure is lower, then every run can go on to `D`. -/
theorem Reach.can_reach {D : σ → Prop} {μ : σ → Nat}
    (hlower : ∀ s, Reach ok step s₀ s → ¬ D s → ∃ t, Reach ok step s t ∧ μ t < μ s)
    (h : Reach ok step s₀ s) : ∃ t, Reach ok step s t ∧ D t := by
  induction hn : μ s using Nat.strongRecOn generalizing s with
  | ind n ih =>
    by_cases hd : D s
    · exact ⟨s, Reach.refl, hd⟩
    · obtain ⟨t, ht, hlt⟩ := hlower s h hd
      obtain ⟨u, hu, hdu⟩ := ih (μ t) (hn ▸ hlt) (h.trans ht) rfl
      exact ⟨u, ht.trans hu, hdu⟩

/-- The runs that `ok` allows are among those that `ok'` allows, given what holds in their
    states. -/
theorem Reach.refine (hok : ∀ s a s', Reach ok step s₀ s → step s a = some s' → ok s a s' →
    ok' s a s') (h : Reach ok step s₀ s) : Reach ok' step s₀ s := by
  induction h with
  | refl => exact Reach.refl
  | tail hr hm ih =>
    obtain ⟨a, hs, ha⟩ := hm
    exact ih.tail hs (hok _ a _ hr hs ha)

theorem Reach.mono (hok : ∀ s a s', ok s a s' → ok' s a s') (h : Reach ok step s₀ s) :
    Reach ok' step s₀ s :=
  h.refine fun s a s' _ _ ha => hok s a s' ha

theorem Reach.any (h : Reach ok step s₀ s) : Reach anyStep step s₀ s := h.mono fun _ _ _ _ => trivial

/-- Runs of one system seen as runs of another: each step is seen as a step, or as none. -/
theorem Reach.map {τ β : Type} {f : σ → τ} {next : τ → β → Option τ} {ok' : τ → β → τ → Prop}
    (hstep : ∀ s a s', step s a = some s' → ok s a s' → f s' = f s ∨
      ∃ b, next (f s) b = some (f s') ∧ ok' (f s) b (f s'))
    (h : Reach ok step s₀ s) : Reach ok' next (f s₀) (f s) := by
  induction h with
  | refl => exact Reach.refl
  | tail _ hm ih =>
    obtain ⟨a, hs, ha⟩ := hm
    rcases hstep _ a _ hs ha with he | ⟨b, hb, hok⟩
    · rw [he]
      exact ih
    · exact ih.tail hb hok

theorem exec_reach : ∀ (as : List α) {s t : σ}, exec step s as = some t →
    Reach anyStep step s t
  | [], s, t, h => by
    simp only [exec, Option.some.injEq] at h
    rw [h]; exact Reach.refl
  | a :: as, s, t, h => by
    simp only [exec] at h
    split at h
    · cases h
    · rename_i s' hs
      exact (Reach.refl.tail hs trivial).trans (exec_reach as h)

theorem exec_reach_get (as : List α) (h : (exec step s as).isSome = true) :
    Reach anyStep step s ((exec step s as).get h) :=
  exec_reach as (Option.some_get h).symm

/-- An executed run ends in a state with the property `p`, which is evaluated together with the run. -/
theorem exec_reach_any (as : List α) (p : σ → Bool) (h : (exec step s as).any p = true) :
    ∃ t, Reach anyStep step s t ∧ p t = true := by
  obtain ⟨t, ht, hp⟩ := (Option.any_eq_true _ _).mp h
  exact ⟨t, exec_reach as ht, hp⟩

/-- The step function that takes only the steps allowed by `ok`. -/
def guarded (ok : σ → α → σ → Prop) [∀ s a s', Decidable (ok s a s')] (step : σ → α → Option σ)
    (s : σ) (a : α) : Option σ :=
  match step s a with
  | none => none
  | some s' => if ok s a s' then some s' else none

theorem guarded_some [∀ s a s', Decidable (ok s a s')] {a : α} (h : guarded ok step s a = some t) :
    step s a = some t ∧ ok s a t := by
  unfold guarded at h
  split at h
  · cases h
  · rename_i s' hs
    split at h
    · rename_i hok
      cases h
      exact ⟨hs, hok⟩
    · cases h

theorem exec_guarded_reach [∀ s a s', Decidable (ok s a s')] : ∀ (as : List α) {s t : σ},
    exec (guarded ok step) s as = some t → Reach ok step s t
  | [], s, t, h => by
    simp only [exec, Option.some.injEq] at h
    rw [h]; exact Reach.refl
  | a :: as, s, t, h => by
    simp only [exec] at h
    split at h
    · cases h
    · rename_i s' hs
      obtain ⟨hst, hok⟩ := guarded_some hs
      exact (Reach.refl.tail hst hok).trans (exec_guarded_reach as h)

theorem exec_guarded_get [∀ s a s', Decidable (ok s a s')] (as : List α)
    (h : (exec (guarded ok step) s as).isSome = true) :
    Reach ok step s ((exec (guarded ok step) s as).get h) :=
  exec_guarded_reach as (Option.some_get h).symm

/-! ## Properties along a run -/

/-- `P` holds in every state of the run of `as` from `s`. -/
def Stays (P : σ → Prop) (step : σ → α → Option σ) : σ → List α → Prop
  | s, [] => P s
  | s, a :: as => P s ∧ ∀ s', step s a = some s' → Stays P step s' as

/-- Every step of the run of `as` from `s` satisfies `ok`. -/
def Allowed (ok : σ → α → σ → Prop) (step : σ → α → Option σ) : σ → List α → Prop
  | _, [] => True
  | s, a :: as => ∀ s', step s a = some s' → ok s a s' ∧ Allowed ok step s' as

theorem exec_cons {a : α} {as : List α} (h : exec step s (a :: as) = some t) :
    ∃ s', step s a = some s' ∧ exec step s' as = some t := by
  simp only [exec] at h
  split at h
  · cases h
  · rename_i s' hs
    exact ⟨s', hs, h⟩

theorem exec_tail {a : α} {as : List α} {s' : σ} (h : exec step s (a :: as) = some t) (hs : step s a = some s') :
    exec step s' as = some t := by
  simpa only [exec, hs] using h

/-- **Rule for the length of a run.**  When the counted actions lower a measure and the others do not
    raise it, a run has no more counted actions than the measure allows. -/
theorem exec_measure {I : σ → Prop} {μ : σ → Nat} {counts : α → Bool} {allowed : α → Prop}
    (hstep : ∀ s a s', I s → allowed a → step s a = some s' →
      I s' ∧ μ s' + (if counts a then 1 else 0) ≤ μ s) :
    ∀ (as : List α) {s : σ}, I s → (∀ a ∈ as, allowed a) → exec step s as = some t →
      I t ∧ μ t + as.countP counts ≤ μ s
  | [], s, hi, _, h => by
    simp only [exec, Option.some.injEq] at h
    subst h
    exact ⟨hi, by simp⟩
  | a :: as, s, hi, hall, h => by
    obtain ⟨s', hs, hrest⟩ := exec_cons h
    obtain ⟨hi', hle⟩ := hstep s a s' hi (hall a List.mem_cons_self) hs
    obtain ⟨ht, hle'⟩ := exec_measure hstep as hi' (fun b hb => hall b (List.mem_cons_of_mem a hb)) hrest
    refine ⟨ht, ?_⟩
    rw [List.countP_cons]
    omega

theorem Allowed.cons {a : α} {as : List α} (hs : step s a = some t) (hok : ok s a t)
    (h : Allowed ok step t as) : Allowed ok step s (a :: as) := by
  intro s' hs'
  rw [hs, Option.some.injEq] at hs'
  exact hs' ▸ ⟨hok, h⟩

/-- Two side conditions at once. -/
theorem allowed_and : ∀ (as : List α) {s : σ}, Allowed (fun s a s' => ok s a s' ∧ ok' s a s') step s as ↔
    Allowed ok step s as ∧ Allowed ok' step s as
  | [], _ => by simp [Allowed]
  | a :: as, s => by
    constructor
    · intro h
      refine ⟨fun s' hs => ?_, fun s' hs => ?_⟩
      · exact ⟨(h s' hs).1.1, ((allowed_and as).mp (h s' hs).2).1⟩
      · exact ⟨(h s' hs).1.2, ((allowed_and as).mp (h s' hs).2).2⟩
    · rintro ⟨h, h'⟩ s' hs
      exact ⟨⟨(h s' hs).1, (h' s' hs).1⟩, (allowed_and as).mpr ⟨(h s' hs).2, (h' s' hs).2⟩⟩

/-- A run that takes only allowed steps is allowed. -/
theorem exec_guarded_allowed [∀ s a s', Decidable (ok s a s')] : ∀ (as : List α) {s : σ},
    (exec (guarded ok step) s as).isSome = true → Allowed ok step s as
  | [], _, _ => trivial
  | a :: as, s, h => by
    obtain ⟨t, ht⟩ := Option.isSome_iff_exists.mp h
    obtain ⟨s', hs, hrest⟩ := exec_cons ht
    obtain ⟨hst, hok⟩ := guarded_some hs
    exact Allowed.cons hst hok (exec_guarded_allowed as (hrest ▸ rfl))

/-- An allowed run that comes to its end reaches it by allowed steps. -/
theorem Allowed.reach : ∀ (as : List α) {s : σ}, exec step s as = some t →
    Allowed ok step s as → Reach ok step s t
  | [], s, h, _ => by
    simp only [exec, Option.some.injEq] at h
    rw [h]
    exact Reach.refl
  | a :: as, s, h, ha => by
    obtain ⟨s', hs, hrest⟩ := exec_cons h
    obtain ⟨hok, hallowed⟩ := ha s' hs
    exact (Reach.refl.tail hs hok).trans (Allowed.reach as hrest hallowed)

theorem allowed_append : ∀ (as bs : List α) {s t : σ}, exec step s as = some t →
    (Allowed ok step s (as ++ bs) ↔ Allowed ok step s as ∧ Allowed ok step t bs)
  | [], bs, s, t, h => by
    simp only [exec, Option.some.injEq] at h
    subst h
    simp [Allowed]
  | a :: as, bs, s, t, h => by
    obtain ⟨s', hs, hrest⟩ := exec_cons h
    constructor
    · intro hall
      obtain ⟨hok, hall'⟩ := hall s' hs
      obtain ⟨ha, hb⟩ := (allowed_append as bs hrest).mp hall'
      exact ⟨Allowed.cons hs hok ha, hb⟩
    · rintro ⟨ha, hb⟩
      obtain ⟨hok, ha'⟩ := ha s' hs
      exact Allowed.cons hs hok ((allowed_append as bs hrest).mpr ⟨ha', hb⟩)

/-- What allowed steps reach is the end of an allowed run. -/
theorem Reach.exists_exec (h : Reach ok step s₀ s) :
    ∃ as, exec step s₀ as = some s ∧ Allowed ok step s₀ as := by
  induction h with
  | refl => exact ⟨[], rfl, trivial⟩
  | tail _ hm ih =>
    obtain ⟨as, hrun, hall⟩ := ih
    obtain ⟨a, hs, hok⟩ := hm
    refine ⟨as ++ [a], ?_, ?_⟩
    · rw [exec_append step as [a] hrun]
      simp only [exec, hs]
    · exact (allowed_append as [a] hrun).mpr ⟨hall, Allowed.cons hs hok trivial⟩

/-- What holds in every state that allowed steps reach holds along every allowed run. -/
theorem Allowed.stays {P : σ → Prop} (hP : ∀ t, Reach ok step s₀ t → P t) :
    ∀ (as : List α) {s : σ}, Reach ok step s₀ s → Allowed ok step s as → Stays P step s as
  | [], _, hr, _ => hP _ hr
  | a :: as, _, hr, ha => by
    refine ⟨hP _ hr, fun s' hs => ?_⟩
    obtain ⟨hok, hrest⟩ := ha s' hs
    exact hrest.stays hP as (hr.tail hs hok)

/-- Two side conditions that agree on the steps of the runs that one of them allows, allow the
    same runs. -/
theorem Allowed.congr (hok : ∀ s a s', Reach ok step s₀ s → step s a = some s' →
    (ok' s a s' ↔ ok s a s')) : ∀ (as : List α) {s : σ}, Reach ok step s₀ s →
    (Allowed ok' step s as ↔ Allowed ok step s as)
  | [], _, _ => Iff.rfl
  | a :: as, s, hr => by
    constructor
    · intro h s' hs
      obtain ⟨ha, hrest⟩ := h s' hs
      have ha' := (hok s a s' hr hs).mp ha
      exact ⟨ha', (Allowed.congr hok as (hr.tail hs ha')).mp hrest⟩
    · intro h s' hs
      obtain ⟨ha, hrest⟩ := h s' hs
      exact ⟨(hok s a s' hr hs).mpr ha, (Allowed.congr hok as (hr.tail hs ha)).mpr hrest⟩

theorem Stays.head {P : σ → Prop} {s : σ} {as : List α} (h : Stays P step s as) : P s := by
  cases as with
  | nil => exact h
  | cons a as => exact h.1

/-- If a step that breaks `ok` breaks `P` at once, a run that stays in `P` is allowed. -/
theorem Stays.allowed {P : σ → Prop}
    (hP : ∀ s a s', Reach ok step s₀ s → step s a = some s' → P s' → ok s a s') :
    ∀ (as : List α) {s : σ}, Reach ok step s₀ s → Stays P step s as → Allowed ok step s as
  | [], _, _, _ => trivial
  | a :: as, s, hr, h => by
    intro s' hs
    have hok := hP s a s' hr hs (h.2 s' hs).head
    exact ⟨hok, Stays.allowed hP as (hr.tail hs hok) (h.2 s' hs)⟩

/-- If a step that breaks `ok` breaks `P` at once or brings about `D`, which no step takes back, a run that
    stays in `P` and ends without `D` is allowed. -/
theorem Stays.allowed_of_end (P D : σ → Prop)
    (hbad : ∀ s a s', Reach ok step s₀ s → step s a = some s' → P s' → ok s a s' ∨ D s')
    (hkeep : ∀ s a s', Reach anyStep step s₀ s → D s → step s a = some s' → D s') (hend : ¬ D t) :
    ∀ (as : List α) {s : σ}, Reach ok step s₀ s → exec step s as = some t → Stays P step s as →
      Allowed ok step s as
  | [], _, _, _, _ => trivial
  | a :: as, s, hr, h, hP => by
    intro s' hs
    have hrest := exec_tail h hs
    have hany : Reach anyStep step s₀ s' := hr.any.tail hs trivial
    rcases hbad s a s' hr hs (hP.2 s' hs).head with hok | hd
    · exact ⟨hok, Stays.allowed_of_end P D hbad hkeep hend as (hr.tail hs hok) hrest (hP.2 s' hs)⟩
    · exact absurd ((exec_reach as hrest).keeps hany (fun s a s' hr hd hs _ => hkeep s a s' hr hd hs) hd) hend

theorem stays_true : ∀ (as : List α) {s : σ}, Stays (fun _ => True) step s as
  | [], _ => trivial
  | _ :: as, _ => ⟨trivial, fun _ _ => stays_true as⟩

end Library.Transition
