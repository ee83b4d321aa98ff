import Mathlib.Logic.Relation

/-!
# Loops

A loop is its body: one pass leaves with a result or goes around again with new values of the
variables.  `run` executes it with a bound on the number of passes; `Heads` are the values of the
variables whenever control is at the head of the loop.

* `run_spec` — when a measure goes down with every pass, a bound above the measure is enough;
* `run_isSome_iff` — when it goes down by one, that bound is the least;
* `run_none` — no bound is enough for a loop that always goes around;
* `run_simulates` — a loop that follows another one has its results.
-/

set_option autoImplicit false

namespace Library.Loop

variable {σ ρ : Type}

/-- How one pass of a loop ends. -/
inductive Pass (σ ρ : Type) where
  | done (r : ρ)
  | again (s : σ)

/-- Run a loop for at most so many passes. -/
def run (body : σ → Pass σ ρ) : Nat → σ → Option ρ
  | 0, _ => none
  | fuel + 1, s =>
    match body s with
    | .done r => some r
    | .again s' => run body fuel s'

/-- The values of the variables at the head of the loop. -/
def Heads (body : σ → Pass σ ρ) (s₀ : σ) : σ → Prop :=
  Relation.ReflTransGen (fun s s' => body s = .again s') s₀

variable {body : σ → Pass σ ρ}

/-- **Rule for total correctness.**  An invariant that every pass keeps while a measure goes
    down, and that gives `Q` at every exit, gives `Q` for the result, and there is a result. -/
theorem run_spec {I : σ → Prop} {μ : σ → Nat} {Q : ρ → Prop}
    (hagain : ∀ s s', I s → body s = .again s' → I s' ∧ μ s' < μ s)
    (hdone : ∀ s r, I s → body s = .done r → Q r) :
    ∀ {fuel : Nat} {s : σ}, I s → μ s < fuel → ∃ r, run body fuel s = some r ∧ Q r
  | 0, _, _, hf => absurd hf (Nat.not_lt_zero _)
  | fuel + 1, s, hi, hf => by
    unfold run
    cases hb : body s with
    | done r => exact ⟨r, rfl, hdone s r hi hb⟩
    | again s' =>
      obtain ⟨hi', hμ⟩ := hagain s s' hi hb
      exact run_spec hagain hdone hi' (by omega)

/-- **Rule for the number of passes.**  When every pass but the last lowers a measure by one, and the
    last one finds it at 0, the loop ends just if the bound is above the measure. -/
theorem run_isSome_iff {I : σ → Prop} {μ : σ → Nat}
    (hagain : ∀ s s', I s → body s = .again s' → I s' ∧ μ s = μ s' + 1)
    (hdone : ∀ s r, I s → body s = .done r → μ s = 0) :
    ∀ {fuel : Nat} {s : σ}, I s → ((run body fuel s).isSome ↔ μ s < fuel)
  | 0, _, _ => by simp [run]
  | fuel + 1, s, hi => by
    unfold run
    cases hb : body s with
    | done r => simp [hdone s r hi hb]
    | again s' =>
      obtain ⟨hi', hμ⟩ := hagain s s' hi hb
      simp only [run_isSome_iff hagain hdone hi', hμ, Nat.add_lt_add_iff_right]

/-- **Rule for divergence.**  A loop that goes around from every state of an invariant has no result. -/
theorem run_none {I : σ → Prop} (hagain : ∀ s, I s → ∃ s', body s = .again s' ∧ I s') :
    ∀ {fuel : Nat} {s : σ}, I s → run body fuel s = none
  | 0, _, _ => rfl
  | fuel + 1, s, hi => by
    obtain ⟨s', hb, hi'⟩ := hagain s hi
    unfold run
    rw [hb]
    exact run_none hagain hi'

/-- **Rule for two loops.**  A loop that goes around whenever the other one does, and leaves with a
    matching result whenever the other one leaves with a result that counts, matches each such
    result. -/
theorem run_simulates {τ υ : Type} {body' : τ → Pass τ υ} {R : σ → τ → Prop} {P : ρ → Prop}
    {S : ρ → υ → Prop}
    (hagain : ∀ s t s', R s t → body s = .again s' → ∃ t', body' t = .again t' ∧ R s' t')
    (hdone : ∀ s t r, R s t → body s = .done r → P r → ∃ u, body' t = .done u ∧ S r u) :
    ∀ {fuel : Nat} {s : σ} {t : τ} {r : ρ}, R s t → run body fuel s = some r → P r →
      ∃ u, run body' fuel t = some u ∧ S r u
  | 0, _, _, _, _, h, _ => by cases h
  | fuel + 1, s, t, r, hR, h, hP => by
    unfold run at h ⊢
    cases hb : body s with
    | done r' =>
      rw [hb, Option.some.injEq] at h
      subst h
      obtain ⟨u, hu, hS⟩ := hdone s t r' hR hb hP
      exact ⟨u, by rw [hu], hS⟩
    | again s' =>
      rw [hb] at h
      obtain ⟨t', ht, hR'⟩ := hagain s t s' hR hb
      rw [ht]
      exact run_simulates hagain hdone hR' h hP

/-- **Rule for the head of the loop.** -/
theorem Heads.invariant {I : σ → Prop} {s₀ s : σ} (h0 : I s₀)
    (hagain : ∀ s s', I s → body s = .again s' → I s') (h : Heads body s₀ s) : I s := by
  induction h with
  | refl => exact h0
  | tail _ hb ih => exact hagain _ _ ih hb

end Library.Loop
