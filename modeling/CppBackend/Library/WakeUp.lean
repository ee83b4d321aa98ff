import CppBackend.Library.Threads

/-!
# Wake-ups that are not lost

Threads sleep on a condition variable `cv` until there is work.  Each thread answers for some of the
work (`cover`): it is about to notify, or awake and about to look for work itself; a woken thread
answers for one piece more.  If every step moves the work and the answer of its thread together
(`CoverStep`), then while somebody is asleep all the work is answered for (`Covered`): none of it
waits for a notification that was given too early.
-/

set_option autoImplicit false

namespace Library.WakeUp

open Library.Tally Library.Threads

variable {σ τ κ α : Type}

/-- How the threads answer for the work of one condition variable. -/
structure Duty (P : Program σ τ κ α) (cv : κ) (cover : τ → Int) : Prop where
  nonneg : ∀ t, 0 ≤ cover t
  /-- Whoever is woken is not asleep. -/
  awake : ∀ c t, P.asleep c t = true → P.asleep cv (P.wake t) = false
  woken : ∀ t, P.asleep cv t = true → cover (P.wake t) = cover t + 1
  others : ∀ c t, P.asleep c t = true → cover t ≤ cover (P.wake t)

/-- While somebody is asleep, all the work is answered for. -/
def Covered (P : Program σ τ κ α) (cv : κ) (cover : τ → Int) (work : σ → Int) (w : World σ τ) : Prop :=
  0 < tally (ind (P.asleep cv)) w.threads → work w.shared ≤ tally cover w.threads

/-- What a step does to the work and to the moving thread's answer for it. -/
inductive CoverStep (P : Program σ τ κ α) (cv : κ) (cover : τ → Int) (work : σ → Int) (sh : σ) (t : τ)
    (sh' : σ) (t' : τ) : Signal κ → Prop where
  /-- The work grows at most as the answer does, and the thread does not fall asleep. -/
  | keeps {sig : Signal κ} (hs : P.asleep cv t' = true → P.asleep cv t = true)
      (h : work sh' + cover t ≤ work sh + cover t') : CoverStep P cv cover work sh t sh' t' sig
  /-- The thread hands one piece of its answer to whom it wakes. -/
  | notifies {j : Option Nat} (hs : P.asleep cv t' = true → P.asleep cv t = true)
      (h : work sh' + cover t ≤ work sh + cover t' + 1) :
      CoverStep P cv cover work sh t sh' t' (.one cv j)
  | idle {sig : Signal κ} (h : work sh' ≤ 0) : CoverStep P cv cover work sh t sh' t' sig

variable {P : Program σ τ κ α} {cv : κ} {cover : τ → Int} {work : σ → Int}

/-- A signal puts nobody to sleep. -/
theorem asleep_delivered (hc : Duty P cv cover) {sig : Signal κ} {ts ts' : List τ}
    (h : Delivered P sig ts ts') : tally (ind (P.asleep cv)) ts' ≤ tally (ind (P.asleep cv)) ts := by
  refine tally_delivered_le (fun c t ht => ?_) h
  rw [ind_of_false (hc.awake c t ht)]
  exact ind_nonneg _ t

/-- `notify_one` finds nobody asleep, or its sleeper answers for one piece more. -/
theorem cover_one (hc : Duty P cv cover) {j : Option Nat} {ts ts' : List τ}
    (h : Delivered P (.one cv j) ts ts') :
    tally (ind (P.asleep cv)) ts' = 0 ∨ tally cover ts' = tally cover ts + 1 := by
  cases h with
  | nobody h =>
    refine Or.inl ?_
    rw [tally_congr (g := fun _ => 0) fun t ht => ind_of_false (h t ht)]
    simp [tally]
  | one ht hs =>
    refine Or.inr ?_
    rw [tally_set ht, hc.woken _ hs]
    omega

/-- No signal takes an answer away. -/
theorem cover_delivered (hc : Duty P cv cover) {sig : Signal κ} {ts ts' : List τ}
    (h : Delivered P sig ts ts') : tally cover ts ≤ tally cover ts' :=
  tally_delivered_ge hc.others h

/-- **A step keeps all work answered for.** -/
theorem covered_step (hc : Duty P cv cover) {w w' : World σ τ} {i : Nat} {t t' : τ} {sig : Signal κ}
    (hcov : Covered P cv cover work w) (ht : w.threads[i]? = some t)
    (hs : CoverStep P cv cover work w.shared t w'.shared t' sig)
    (hd : Delivered P sig (w.threads.set i t') w'.threads) : Covered P cv cover work w' := by
  intro hpos
  have hsleep := asleep_delivered hc hd
  have hge := cover_delivered hc hd
  rw [tally_set ht] at hsleep hge
  have hmono : (P.asleep cv t' = true → P.asleep cv t = true) →
      ind (P.asleep cv) t' ≤ ind (P.asleep cv) t := by
    intro h
    cases h' : P.asleep cv t' with
    | false => rw [ind_of_false h']; exact ind_nonneg _ t
    | true => rw [ind_of_true h', ind_of_true (h h')]
  cases hs with
  | keeps hs h =>
    have := hmono hs
    have := hcov (by omega)
    omega
  | notifies hs h =>
    have := hmono hs
    have := hcov (by omega)
    rcases cover_one hc hd with h0 | hone
    · omega
    · rw [tally_set ht] at hone
      omega
  | idle h =>
    have : 0 ≤ tally cover w'.threads := tally_nonneg hc.nonneg
    omega

end Library.WakeUp
