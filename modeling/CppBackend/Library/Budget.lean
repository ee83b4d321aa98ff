import CppBackend.Library.Transition
import CppBackend.Library.Tally

/-!
# Runs on a budget

Every action costs a unit of a potential.  Some actions (a spurious wake-up, a duplicate, a fault) may
raise it by so much; a run is no longer than the initial potential and these raises allow.
-/

set_option autoImplicit false

namespace Library.Budget

open Library.Transition Library.Tally

variable {σ α : Type} {step : σ → α → Option σ} {μ : σ → Int}

theorem exec_budget {refund : α → Int}
    (hstep : ∀ s a s', step s a = some s' → μ s' + 1 ≤ μ s + refund a) :
    ∀ (as : List α) {s t : σ}, exec step s as = some t → μ t + as.length ≤ μ s + tally refund as
  | [], s, t, h => by
    simp only [exec, Option.some.injEq] at h
    subst h
    simp
  | a :: as, s, t, h => by
    obtain ⟨s', hs, hrest⟩ := exec_cons h
    have hle := hstep s a s' hs
    have hle' := exec_budget hstep as hrest
    rw [List.length_cons, tally_cons]
    push_cast
    omega

theorem tally_refund (p : α → Bool) (r : Nat) (as : List α) :
    tally (fun a => if p a then (r : Int) else 0) as = r * as.countP p := by
  induction as with
  | nil => simp
  | cons a as ih =>
    rw [tally_cons, ih, List.countP_cons]
    cases p a with
    | false => simp
    | true =>
      simp only [if_true]
      push_cast
      ring

/-- **Rule for the length of a run on a budget**, where the actions with `p` raise the potential. -/
theorem exec_length_le {p : α → Bool} {r : Nat} (hpos : ∀ s, 0 ≤ μ s)
    (hstep : ∀ s a s', step s a = some s' → μ s' + 1 ≤ μ s + if p a then (r : Int) else 0)
    (as : List α) {s t : σ} (h : exec step s as = some t) : (as.length : Int) ≤ μ s + r * as.countP p := by
  have hle := exec_budget hstep as h
  have ht := hpos t
  rw [tally_refund] at hle
  omega

end Library.Budget
