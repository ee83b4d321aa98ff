import CppBackend.Library.Threads

/-!
# Shared mutual exclusion

A shared mutex (`std::shared_mutex`) is locked by one writer alone, or by any number of readers.  The shared
state has who locked it, and each program point says how its thread holds it (`Hold`).

* `Excludes` — the state says how many threads hold the mutex, and a writer holds it alone;
* `Kept` — `R` holds while no writer has the mutex, and every holder knows `A` of its point;
* `Guarded` — what a step of one thread may do: a reader must leave the other readers what they know;
* `excludes_step`, `kept_step` — guarded steps keep both.
-/

set_option autoImplicit false

namespace Library.SharedMutex

open Library.Tally Library.Threads

/-- How a thread holds the mutex. -/
inductive Hold where
  | free
  | shared
  | exclusive
  deriving DecidableEq, Repr

variable {σ τ κ α : Type}

structure Mutex (σ τ : Type) where
  writing : σ → Bool
  /-- The number of readers that have it locked. -/
  readers : σ → Nat
  hold : τ → Hold

variable (m : Mutex σ τ)

def Mutex.writes (t : τ) : Bool := decide (m.hold t = .exclusive)

def Mutex.reads (t : τ) : Bool := decide (m.hold t = .shared)

structure Excludes (w : World σ τ) : Prop where
  writer : tally (ind m.writes) w.threads = if m.writing w.shared then 1 else 0
  readers : tally (ind m.reads) w.threads = (m.readers w.shared : Int)
  apart : m.writing w.shared = true → m.readers w.shared = 0

structure Kept (R : σ → Prop) (A : τ → σ → Prop) (w : World σ τ) : Prop where
  unwritten : m.writing w.shared = false → R w.shared
  held : Each (fun sh t => m.hold t ≠ .free → A t sh) w

/-- A step of one thread, and what it does to the others' knowledge. -/
inductive Guarded (R : σ → Prop) (A : τ → σ → Prop) (sh : σ) (t : τ) (sh' : σ) (t' : τ) : Prop where
  | outside (hw : m.writing sh' = m.writing sh) (hr : m.readers sh' = m.readers sh) (ht : m.hold t = .free)
      (ht' : m.hold t' = .free) (hR : R sh → R sh') (hA : ∀ u, A u sh → A u sh')
  | lockShared (h : m.writing sh = false) (h' : m.writing sh' = false)
      (hr : m.readers sh' = m.readers sh + 1) (ht : m.hold t = .free) (ht' : m.hold t' = .shared)
      (hR : R sh → R sh' ∧ A t' sh') (hA : ∀ u, A u sh → A u sh')
  | reading (hw : m.writing sh' = m.writing sh) (hr : m.readers sh' = m.readers sh) (ht : m.hold t = .shared)
      (ht' : m.hold t' = .shared) (hR : R sh → A t sh → R sh' ∧ A t' sh')
      (hA : ∀ u, m.hold u = .shared → A u sh → A u sh')
  | unlockShared (hw : m.writing sh' = m.writing sh) (hr : m.readers sh = m.readers sh' + 1)
      (ht : m.hold t = .shared) (ht' : m.hold t' = .free) (hR : R sh → A t sh → R sh')
      (hA : ∀ u, m.hold u = .shared → A u sh → A u sh')
  | lock (h : m.writing sh = false) (h0 : m.readers sh = 0) (h' : m.writing sh' = true)
      (h0' : m.readers sh' = 0) (ht : m.hold t = .free) (ht' : m.hold t' = .exclusive) (hA : R sh → A t' sh')
  | writing (hw : m.writing sh' = m.writing sh) (hr : m.readers sh' = m.readers sh)
      (ht : m.hold t = .exclusive) (ht' : m.hold t' = .exclusive) (hA : A t sh → A t' sh')
  | unlock (h' : m.writing sh' = false) (hr : m.readers sh' = m.readers sh) (ht : m.hold t = .exclusive)
      (ht' : m.hold t' = .free) (hR : A t sh → R sh')

variable {m} {w w' : World σ τ} {i j : Nat} {t u t' : τ} {R : σ → Prop} {A : τ → σ → Prop}

theorem Excludes.none_free (h : Excludes m w) (hw : m.writing w.shared = false) (hr : m.readers w.shared = 0)
    (ht : t ∈ w.threads) : m.hold t = .free := by
  have h1 := h.writer
  have h2 := h.readers
  rw [hw] at h1
  rw [hr] at h2
  cases hh : m.hold t with
  | free => rfl
  | shared =>
    have := tally_ind_pos (p := m.reads) ht (by simp [Mutex.reads, hh])
    simp only [Nat.cast_zero] at h2
    omega
  | exclusive =>
    have := tally_ind_pos (p := m.writes) ht (by simp [Mutex.writes, hh])
    simp only [Bool.false_eq_true, if_false] at h1
    omega

/-- The mutex is free when nobody holds it. -/
theorem Excludes.free_of_none (h : Excludes m w) (hn : ∀ t ∈ w.threads, m.hold t = .free) :
    m.writing w.shared = false ∧ m.readers w.shared = 0 := by
  have h1 := h.writer
  have h2 := h.readers
  rw [tally_eq_zero fun t ht => by simp [ind, Mutex.writes, hn t ht]] at h1
  rw [tally_eq_zero fun t ht => by simp [ind, Mutex.reads, hn t ht]] at h2
  refine ⟨Bool.eq_false_of_not_eq_true fun hw => ?_, by omega⟩
  rw [if_pos hw] at h1
  cases h1

/-- Nobody writes while the mutex is not locked for writing. -/
theorem Excludes.not_exclusive (h : Excludes m w) (hw : m.writing w.shared = false) (ht : t ∈ w.threads) :
    m.hold t ≠ .exclusive := by
  intro hh
  have h1 := h.writer
  have := tally_ind_pos (p := m.writes) ht (by simp [Mutex.writes, hh])
  rw [hw] at h1
  simp only [Bool.false_eq_true, if_false] at h1
  omega

theorem Excludes.writing_of (h : Excludes m w) (ht : t ∈ w.threads) (hh : m.hold t = .exclusive) :
    m.writing w.shared = true := by
  cases hw : m.writing w.shared with
  | true => rfl
  | false => exact absurd hh (h.not_exclusive hw ht)

theorem Excludes.not_writing_of (h : Excludes m w) (ht : t ∈ w.threads) (hh : m.hold t = .shared) :
    m.writing w.shared = false := by
  cases hw : m.writing w.shared with
  | false => rfl
  | true =>
    have h2 := h.readers
    have := tally_ind_pos (p := m.reads) ht (by simp [Mutex.reads, hh])
    rw [h.apart hw] at h2
    simp only [Nat.cast_zero] at h2
    omega

/-- **A writer holds the mutex alone.** -/
theorem Excludes.alone (h : Excludes m w) (ht : w.threads[i]? = some t) (hh : m.hold t = .exclusive)
    (hu : w.threads[j]? = some u) (hij : j ≠ i) : m.hold u = .free := by
  have hmem := List.mem_of_getElem? ht
  have hw := h.writing_of hmem hh
  cases hhu : m.hold u with
  | free => rfl
  | shared =>
    have := h.not_writing_of (List.mem_of_getElem? hu) hhu
    rw [hw] at this
    cases this
  | exclusive =>
    have h1 := h.writer
    have hle := add_le_tally (ind_nonneg m.writes) hij hu ht
    rw [ind_of_true (p := m.writes) (by simp [Mutex.writes, hhu]),
      ind_of_true (p := m.writes) (by simp [Mutex.writes, hh])] at hle
    rw [hw] at h1
    simp only [if_true] at h1
    omega

section Step

variable {P : Program σ τ κ α} {sig : Signal κ}

/-- **A guarded step keeps the exclusion.** -/
theorem excludes_step (hb : ∀ cv t, P.asleep cv t = true → m.hold (P.wake t) = m.hold t) (h : Excludes m w)
    (ht : w.threads[i]? = some t) (hg : Guarded m R A w.shared t w'.shared t')
    (hd : Delivered P sig (w.threads.set i t') w'.threads) : Excludes m w' := by
  have hwb : WakeBlind P (ind m.writes) := fun cv t hs => by simp [ind, Mutex.writes, hb cv t hs]
  have hrb : WakeBlind P (ind m.reads) := fun cv t hs => by simp [ind, Mutex.reads, hb cv t hs]
  have htw := tally_moved hwb ht hd
  have htr := tally_moved hrb ht hd
  have h1 := h.writer
  have h2 := h.readers
  have hmem := List.mem_of_getElem? ht
  cases hg with
  | outside hw hr hht hht' =>
    simp [ind, Mutex.writes, Mutex.reads, hht, hht'] at htw htr
    exact ⟨by rw [htw, h1, hw], by rw [htr, h2, hr], by rw [hw, hr]; exact h.apart⟩
  | lockShared hw hw' hr hht hht' =>
    simp [ind, Mutex.writes, Mutex.reads, hht, hht'] at htw htr
    refine ⟨by rw [htw, h1, hw, hw'], by rw [htr, h2, hr, Nat.cast_succ], fun hc => ?_⟩
    rw [hw'] at hc
    cases hc
  | reading hw hr hht hht' =>
    simp [ind, Mutex.writes, Mutex.reads, hht, hht'] at htw htr
    exact ⟨by rw [htw, h1, hw], by rw [htr, h2, hr], by rw [hw, hr]; exact h.apart⟩
  | unlockShared hw hr hht hht' =>
    simp [ind, Mutex.writes, Mutex.reads, hht, hht'] at htw htr
    have hfree := h.not_writing_of hmem hht
    refine ⟨by rw [htw, h1, hw], by rw [htr, h2, hr, Nat.cast_succ]; omega, fun hc => ?_⟩
    rw [hw, hfree] at hc
    cases hc
  | lock hw h0 hw' h0' hht hht' =>
    simp [ind, Mutex.writes, Mutex.reads, hht, hht'] at htw htr
    exact ⟨by rw [htw, h1, hw, hw']; rfl, by rw [htr, h2, h0, h0'], fun _ => h0'⟩
  | writing hw hr hht hht' =>
    simp [ind, Mutex.writes, Mutex.reads, hht, hht'] at htw htr
    exact ⟨by rw [htw, h1, hw], by rw [htr, h2, hr], by rw [hw, hr]; exact h.apart⟩
  | unlock hw' hr hht hht' =>
    simp [ind, Mutex.writes, Mutex.reads, hht, hht'] at htw htr
    have hlk := h.writing_of hmem hht
    refine ⟨by rw [htw, h1, hlk, hw']; rfl, by rw [htr, h2, hr], fun hc => ?_⟩
    rw [hw'] at hc
    cases hc

/-- **A guarded step keeps what the mutex protects.** -/
theorem kept_step (hb : ∀ cv t, P.asleep cv t = true → m.hold (P.wake t) = m.hold t)
    (hoff : ∀ cv t, P.asleep cv t = true → m.hold t = .free) (h : Excludes m w) (hk : Kept m R A w)
    (ht : w.threads[i]? = some t) (hg : Guarded m R A w.shared t w'.shared t')
    (hd : Delivered P sig (w.threads.set i t') w'.threads) : Kept m R A w' := by
  have hwoken : ∀ cv sh u, P.asleep cv u = true → (m.hold u ≠ .free → A u sh) →
      m.hold (P.wake u) ≠ .free → A (P.wake u) sh := by
    intro cv sh u hs _ hw
    exact absurd ((hb cv u hs).trans (hoff cv u hs)) hw
  have hmem := List.mem_of_getElem? ht
  have hown : m.hold t ≠ .free → A t w.shared := hk.held i t ht
  -- Whoever is not free beside a reader is a reader.
  have hreader : m.writing w.shared = false → ∀ (j : Nat) (u : τ), w.threads[j]? = some u → m.hold u ≠ .free →
      m.hold u = .shared := by
    intro hw j u hu hne
    cases hh : m.hold u with
    | free => exact absurd hh hne
    | shared => rfl
    | exclusive => exact absurd hh (h.not_exclusive hw (List.mem_of_getElem? hu))
  cases hg with
  | outside hw hr hht hht' hR hA =>
    refine ⟨fun hc => hR (hk.unwritten (hw ▸ hc)), each_moved hd (fun hne => absurd hht' hne) ?_ hwoken⟩
    exact fun j u _ hu hne => hA u (hk.held j u hu hne)
  | lockShared hw hw' hr hht hht' hR hA =>
    obtain ⟨hR', hA'⟩ := hR (hk.unwritten hw)
    refine ⟨fun _ => hR', each_moved hd (fun _ => hA') ?_ hwoken⟩
    exact fun j u _ hu hne => hA u (hk.held j u hu hne)
  | reading hw hr hht hht' hR hA =>
    have hfree := h.not_writing_of hmem hht
    obtain ⟨hR', hA'⟩ := hR (hk.unwritten hfree) (hown (by rw [hht]; decide))
    refine ⟨fun _ => hR', each_moved hd (fun _ => hA') ?_ hwoken⟩
    exact fun j u _ hu hne => hA u (hreader hfree j u hu hne) (hk.held j u hu hne)
  | unlockShared hw hr hht hht' hR hA =>
    have hfree := h.not_writing_of hmem hht
    refine ⟨fun _ => hR (hk.unwritten hfree) (hown (by rw [hht]; decide)),
      each_moved hd (fun hne => absurd hht' hne) ?_ hwoken⟩
    exact fun j u _ hu hne => hA u (hreader hfree j u hu hne) (hk.held j u hu hne)
  | lock hw h0 hw' h0' hht hht' hA =>
    refine ⟨fun hc => ?_, each_moved hd (fun _ => hA (hk.unwritten hw)) ?_ hwoken⟩
    · rw [hw'] at hc
      cases hc
    · exact fun j u _ hu hne => absurd (h.none_free hw h0 (List.mem_of_getElem? hu)) hne
  | writing hw hr hht hht' hA =>
    have hlk := h.writing_of hmem hht
    refine ⟨fun hc => ?_, each_moved hd (fun _ => hA (hown (by rw [hht]; decide))) ?_ hwoken⟩
    · rw [hw, hlk] at hc
      cases hc
    · exact fun j u hj hu hne => absurd (h.alone ht hht hu hj) hne
  | unlock hw' hr hht hht' hR =>
    refine ⟨fun _ => hR (hown (by rw [hht]; decide)), each_moved hd (fun hne => absurd hht' hne) ?_ hwoken⟩
    exact fun j u hj hu hne => absurd (h.alone ht hht hu hj) hne

end Step

end Library.SharedMutex
