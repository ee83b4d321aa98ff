import Mathlib.Init

/-!
# Computations with faults and a bounded depth

A recursive computation takes a bound on its depth.  It returns a value, stops with a fault, or is
`unfinished` when the bound was too small.  `Ends E Q` is total correctness: the computation ends,
a value satisfies `Q` and a fault satisfies `E`.  The rules follow the way a computation is put
together (`Ends.bind`, `Ends.foldlM`).
-/

set_option autoImplicit false

namespace Library

variable {ε α β σ : Type}

inductive Outcome (ε α : Type) where
  | ok (a : α)
  | fault (e : ε)
  | unfinished

def Outcome.bind (r : Outcome ε α) (f : α → Outcome ε β) : Outcome ε β :=
  match r with
  | .ok a => f a
  | .fault e => .fault e
  | .unfinished => .unfinished

instance : Monad (Outcome ε) where
  pure := .ok
  bind := Outcome.bind

@[simp] theorem Outcome.ok_bind (a : α) (f : α → Outcome ε β) : (Outcome.ok a >>= f) = f a := rfl

/-- The computation ends, in a fault with `E` or with a value that satisfies `Q`. -/
def Outcome.Ends (E : ε → Prop) (Q : α → Prop) : Outcome ε α → Prop
  | .ok a => Q a
  | .fault e => E e
  | .unfinished => False

variable {E E' : ε → Prop} {Q Q' : α → Prop} {r : Outcome ε α}

namespace Outcome

theorem Ends.mono (h : r.Ends E Q) (hQ : ∀ a, Q a → Q' a) : r.Ends E Q' := by
  cases r with
  | ok a => exact hQ a h
  | fault e => exact h
  | unfinished => exact h

theorem Ends.mono_fault (h : r.Ends E Q) (hE : ∀ e, E e → E' e) : r.Ends E' Q := by
  cases r with
  | ok a => exact h
  | fault e => exact hE e h
  | unfinished => exact h

theorem Ends.bind {f : α → Outcome ε β} {R : β → Prop} (h : r.Ends E Q)
    (hf : ∀ a, Q a → (f a).Ends E R) : (r >>= f).Ends E R := by
  cases r with
  | ok a => exact hf a h
  | fault e => exact h
  | unfinished => exact h

/-- **Rule for a loop over a list**, with what is left of the list in the invariant. -/
theorem Ends.foldlM {f : σ → α → Outcome ε σ} {I : List α → σ → Prop}
    (hstep : ∀ a as s, I (a :: as) s → (f s a).Ends E (I as)) :
    ∀ (as : List α) {s : σ}, I as s → (as.foldlM f s).Ends E (I [])
  | [], _, h => h
  | a :: as, s, h => by
    rw [List.foldlM_cons]
    exact (hstep a as s h).bind fun _ h' => Ends.foldlM hstep as h'

/-- Without a fault there is a value. -/
theorem Ends.exists_ok (h : r.Ends E Q) (hE : ∀ e, ¬ E e) : ∃ a, r = .ok a ∧ Q a := by
  cases r with
  | ok a => exact ⟨a, rfl, h⟩
  | fault e => exact absurd h (hE e)
  | unfinished => exact absurd h id

/-- Without a value there is a fault. -/
theorem Ends.exists_fault (h : r.Ends E Q) (hQ : ∀ a, ¬ Q a) : ∃ e, r = .fault e := by
  cases r with
  | ok a => exact absurd h (hQ a)
  | fault e => exact ⟨e, rfl⟩
  | unfinished => exact absurd h id

theorem Ends.of_ok {a : α} (h : r.Ends E Q) (hr : r = .ok a) : Q a := by
  subst hr
  exact h

end Outcome

end Library
