import CppBackend.Library.Threads

/-!
# Mutual exclusion

A mutex is a flag of the shared state (`locked`) together with the program points that hold it
(`holds`).  If every step that changes one changes the other as an acquisition or a release
does (`LockStep`), then at every moment exactly one thread holds a locked mutex and none a free
one (`Exclusive`).

What the mutex protects satisfies `R` while it is free; a thread that holds it may break `R` and
knows instead what `A` says of its program point (`Protects`).
-/

set_option autoImplicit false

namespace Library.Mutex

open Library.Tally Library.Threads

variable {σ τ κ α : Type} {locked : σ → Bool} {holds : τ → Bool}

/-- What one step does to the mutex and to the moving thread's hold on it. -/
inductive LockStep (locked : σ → Bool) (holds : τ → Bool) (sh : σ) (t : τ) (sh' : σ) (t' : τ) :
    Prop where
  | keep (h : locked sh' = locked sh) (ht : holds t' = holds t)
  | acquire (h : locked sh = false) (h' : locked sh' = true) (ht : holds t = false)
      (ht' : holds t' = true)
  | release (h' : locked sh' = false) (ht : holds t = true) (ht' : holds t' = false)

/-- Exactly one thread holds a locked mutex, none a free one. -/
def Exclusive (locked : σ → Bool) (holds : τ → Bool) (w : World σ τ) : Prop :=
  tally (ind holds) w.threads = if locked w.shared then 1 else 0

/-- Waking a thread does not give it the mutex. -/
def Blind (P : Program σ τ κ α) (holds : τ → Bool) : Prop :=
  ∀ cv t, P.asleep cv t = true → holds (P.wake t) = holds t

theorem Blind.tally {P : Program σ τ κ α} (h : Blind P holds) : WakeBlind P (ind holds) := by
  intro cv t ht
  unfold ind
  rw [h cv t ht]

section Laws

variable {w w' : World σ τ} {i j : Nat} {t u : τ}

/-- A thread that holds the mutex holds it alone. -/
theorem Exclusive.alone (hm : Exclusive locked holds w) (ht : w.threads[i]? = some t)
    (hu : w.threads[j]? = some u) (hij : j ≠ i) (hh : holds t = true) : holds u = false := by
  have hle := add_le_tally (ind_nonneg holds) hij hu ht
  unfold Exclusive at hm
  cases hhu : holds u with
  | false => rfl
  | true =>
    rw [ind_of_true hh, ind_of_true hhu] at hle
    split at hm <;> omega

theorem Exclusive.locked_of_holds (hm : Exclusive locked holds w) (ht : t ∈ w.threads)
    (hh : holds t = true) : locked w.shared = true := by
  have hle := le_tally (ind_nonneg holds) ht
  unfold Exclusive at hm
  rw [ind_of_true hh] at hle
  split at hm
  · assumption
  · omega

theorem Exclusive.none_of_free (hm : Exclusive locked holds w) (hf : locked w.shared = false)
    (ht : t ∈ w.threads) : holds t = false := by
  cases hh : holds t with
  | false => rfl
  | true => rw [hm.locked_of_holds ht hh] at hf; cases hf

/-- The threads at points that hold the mutex number at most one. -/
theorem Exclusive.tally_le_one (hm : Exclusive locked holds w) {p : τ → Bool}
    (hp : ∀ x, p x = true → holds x = true) : tally (ind p) w.threads ≤ 1 := by
  have hle := tally_ind_mono (l := w.threads) hp
  unfold Exclusive at hm
  split at hm <;> omega

/-- While a thread holds the mutex at a point outside `p`, nobody is at a point of `p` that holds
    it. -/
theorem Exclusive.tally_eq_zero (hm : Exclusive locked holds w) {p : τ → Bool}
    (hp : ∀ x, p x = true → holds x = true) (ht : t ∈ w.threads) (hh : holds t = true)
    (hpt : p t = false) : tally (ind p) w.threads = 0 := by
  have hsplit : tally (ind holds) w.threads =
      tally (ind p) w.threads + tally (ind fun x => holds x && !p x) w.threads := by
    rw [← tally_add]
    refine tally_congr fun x _ => ?_
    cases hpx : p x with
    | false => cases hhx : holds x <;> simp [ind, hpx, hhx]
    | true => simp [ind, hpx, hp x hpx]
  have hone := le_tally (ind_nonneg fun x => holds x && !p x) ht
  rw [ind_of_true (by rw [hh, hpt]; rfl)] at hone
  have h0 : 0 ≤ tally (ind p) w.threads := tally_nonneg (ind_nonneg p)
  unfold Exclusive at hm
  split at hm <;> omega

/-- **A step keeps mutual exclusion.** -/
theorem mutex_step {P : Program σ τ κ α} (hb : Blind P holds) (hm : Exclusive locked holds w)
    {t' : τ} {sig : Signal κ} (ht : w.threads[i]? = some t)
    (hl : LockStep locked holds w.shared t w'.shared t')
    (hd : Delivered P sig (w.threads.set i t') w'.threads) : Exclusive locked holds w' := by
  have htally := tally_moved hb.tally ht hd
  unfold Exclusive at hm ⊢
  rw [htally, hm]
  unfold ind
  rcases hl with ⟨h, hh⟩ | ⟨h, h', hh, hh'⟩ | ⟨h', hh, hh'⟩
  · rw [h, hh]; omega
  · simp [h, h', hh, hh']
  · have hlk := Exclusive.locked_of_holds hm (List.mem_of_getElem? ht) hh
    simp [hlk, h', hh, hh']

end Laws

/-! ## What a mutex protects -/

/-- `R` holds while the mutex is free, and the thread that holds it knows `A` of its point. -/
structure Protects (locked : σ → Bool) (holds : τ → Bool) (R : σ → Prop) (A : τ → σ → Prop)
    (w : World σ τ) : Prop where
  free : locked w.shared = false → R w.shared
  held : Each (fun sh t => holds t = true → A t sh) w

/-- What one step of a thread does to the mutex and to what it protects. -/
inductive Guarded (locked : σ → Bool) (holds : τ → Bool) (R : σ → Prop) (A : τ → σ → Prop) (sh : σ)
    (t : τ) (sh' : σ) (t' : τ) : Prop where
  | outside (h : locked sh' = locked sh) (ht : holds t = false) (ht' : holds t' = false)
      (hR : R sh → R sh') (hA : ∀ u, A u sh → A u sh')
  | enter (h : locked sh = false) (h' : locked sh' = true) (ht : holds t = false)
      (ht' : holds t' = true) (hA : R sh → A t' sh')
  | inside (h : locked sh' = locked sh) (ht : holds t = true) (ht' : holds t' = true)
      (hA : A t sh → A t' sh')
  | leave (h' : locked sh' = false) (ht : holds t = true) (ht' : holds t' = false)
      (hR : A t sh → R sh')

section Protects

variable {R : σ → Prop} {A : τ → σ → Prop} {sh sh' : σ} {t t' : τ} {w w' : World σ τ} {i : Nat}

theorem Guarded.lockStep (h : Guarded locked holds R A sh t sh' t') :
    LockStep locked holds sh t sh' t' := by
  cases h with
  | outside h ht ht' => exact .keep h (by rw [ht, ht'])
  | enter h h' ht ht' => exact .acquire h h' ht ht'
  | inside h ht ht' => exact .keep h (by rw [ht, ht'])
  | leave h' ht ht' => exact .release h' ht ht'

/-- **A guarded step keeps what the mutex protects.**  Whoever is woken does not hold the mutex. -/
theorem protects_step {P : Program σ τ κ α} (hb : Blind P holds)
    (hoff : ∀ cv t, P.asleep cv t = true → holds t = false) (hm : Exclusive locked holds w)
    (hp : Protects locked holds R A w) {sig : Signal κ} (ht : w.threads[i]? = some t)
    (hg : Guarded locked holds R A w.shared t w'.shared t')
    (hd : Delivered P sig (w.threads.set i t') w'.threads) : Protects locked holds R A w' := by
  have hwoken : ∀ cv sh u, P.asleep cv u = true → (holds u = true → A u sh) →
      holds (P.wake u) = true → A (P.wake u) sh := by
    intro cv sh u hs _ hw
    rw [hb cv u hs, hoff cv u hs] at hw
    cases hw
  have hmem : t ∈ w.threads := List.mem_of_getElem? ht
  cases hg with
  | outside h hht hht' hR hA =>
    refine ⟨fun hf => hR (hp.free (h ▸ hf)), each_moved hd ?_ ?_ hwoken⟩
    · intro hc
      rw [hht'] at hc
      cases hc
    · intro j u _ hu hhu
      exact hA u (hp.held j u hu hhu)
  | enter h h' hht hht' hA =>
    refine ⟨fun hf => ?_, each_moved hd (fun _ => hA (hp.free h)) ?_ hwoken⟩
    · rw [h'] at hf
      cases hf
    · intro j u _ hu hhu
      rw [hm.none_of_free h (List.mem_of_getElem? hu)] at hhu
      cases hhu
  | inside h hht hht' hA =>
    refine ⟨fun hf => ?_, each_moved hd (fun _ => hA (hp.held i t ht hht)) ?_ hwoken⟩
    · rw [h, hm.locked_of_holds hmem hht] at hf
      cases hf
    · intro j u hj hu hhu
      rw [hm.alone ht hu hj hht] at hhu
      cases hhu
  | leave h' hht hht' hR =>
    refine ⟨fun _ => hR (hp.held i t ht hht), each_moved hd ?_ ?_ hwoken⟩
    · intro hc
      rw [hht'] at hc
      cases hc
    · intro j u hj hu hhu
      rw [hm.alone ht hu hj hht] at hhu
      cases hhu

end Protects

end Library.Mutex
