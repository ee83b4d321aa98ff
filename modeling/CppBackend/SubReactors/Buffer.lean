import CppBackend.SubReactors.Steps

/-!
# The buffer of `__sub_reactors`

A thread reads where the buffer is, and then its element in it (`Reactor.fetch`, `Reactor.index`).  If `init` moves
the vector in between, the element is read in a buffer that has been freed: the thread is `Lost`.  It happens by
such a move and in no other way (`lost_iff`), and there is no way back (`lost_step`).
-/

set_option autoImplicit false

namespace CppBackend.SubReactors

open Library.Transition

/-- About to read its element in another buffer than this one, or behind this. -/
def Strays (buffer : Nat) (r : Reactor) : Prop := r.pc = .astray ∨ ∃ b, r.pc = .index b ∧ b ≠ buffer

/-- The thread reads its element in a buffer that has been freed, or is about to. -/
def Lost (s : Pool) (i : Nat) : Prop := i < s.size ∧ Strays s.buffer (s.reactor i)

/-- `emplace_back` moves the vector. -/
def Relocates (s : Pool) (a : Action) : Prop :=
  s.pc = .create ∧ s.full = true ∧ ∃ room, a = .create (some room)

/-- The vector does not move while a thread is between reading where the buffer is and reading its element. -/
def InPlace (s : Pool) (a : Action) : Prop :=
  Relocates s a → ∀ i < s.size, ∀ b, (s.reactor i).pc ≠ .index b

variable {s s' : Pool} {a : Action} {n : Int} {i : Nat}

/-! ## Steps -/

theorem Turn.strays_iff {buffer : Nat} {r r' : Reactor} (h : Turn buffer i r a r') :
    Strays buffer r' ↔ Strays buffer r := by
  unfold Strays
  cases h with
  | fetch hpc | index hpc | wake hpc | handled hpc | handle hpc => simp [hpc]
  | astray hpc hne => simp [hpc, hne]
  | test hpc =>
    simp only [hpc]
    split <;> simp

theorem Turn.index_eq {buffer b : Nat} {r r' : Reactor} (h : Turn buffer i r a r') (hpc : r'.pc = .index b) :
    b = buffer := by
  cases h with
  | fetch =>
    cases hpc
    rfl
  | test =>
    simp only at hpc
    split at hpc <;> cases hpc
  | index | astray | wake | handled | handle => cases hpc

theorem size_le (h : step s a = some s') : s.size ≤ s'.size := by
  cases step_inv h with
  | create => exact Nat.le_succ _
  | @accept fd ok => rw [(accept_same s fd ok).1]
  | createFails | start | destroy | stop | stopped | join | joined | thread => exact Nat.le_refl _

theorem accept_buffer (s : Pool) (fd : Nat) (ok : Bool) : (s.accept fd ok).buffer = s.buffer := by
  unfold Pool.accept
  split
  · rfl
  · cases ok <;> rfl

theorem buffer_step (h : step s a = some s') :
    (Relocates s a ∧ s'.buffer = s.buffer + 1) ∨ (¬ Relocates s a ∧ s'.buffer = s.buffer) := by
  cases step_inv h with
  | @create room hpc =>
    by_cases hfull : s.full = true
    · exact Or.inl ⟨⟨hpc, hfull, room, rfl⟩, if_pos hfull⟩
    · exact Or.inr ⟨fun hrel => hfull hrel.2.1, if_neg hfull⟩
  | @accept fd ok hpc =>
    refine Or.inr ⟨fun hrel => ?_, accept_buffer s fd ok⟩
    obtain ⟨-, -, _, ha⟩ := hrel
    cases ha
  | createFails | start | destroy | stop | stopped | join | joined =>
    refine Or.inr ⟨fun hrel => ?_, rfl⟩
    obtain ⟨-, -, _, ha⟩ := hrel
    cases ha
  | thread _ ht =>
    refine Or.inr ⟨fun hrel => ?_, rfl⟩
    obtain ⟨-, -, _, rfl⟩ := hrel
    cases ht

theorem buffer_le (h : step s a = some s') : s.buffer ≤ s'.buffer := by
  rcases buffer_step h with ⟨-, hb⟩ | ⟨-, hb⟩ <;> omega

/-- Where a thread is behind a step: where it was, newly created, started, or one turn on. -/
theorem pc_step (hi : Inv s) (h : step s a = some s') (hlt : i < s'.size) :
    (i < s.size ∧ (s'.reactor i).pc = (s.reactor i).pc) ∨
      (s.size ≤ i ∧ (s'.reactor i).pc = .unstarted) ∨
      ((s.reactor i).pc = .unstarted ∧ (s'.reactor i).pc = .lambda) ∨
      (i < s.size ∧ Turn s.buffer i (s.reactor i) a (s'.reactor i)) := by
  cases step_inv h with
  | create hpc =>
    rw [emplaceBack_size] at hlt
    by_cases hlast : i = s.size
    · subst hlast
      exact Or.inr (Or.inl ⟨Nat.le_refl _, by simp [Reactor.new]⟩)
    · have hlt' : i < s.size := by omega
      exact Or.inl ⟨hlt', by rw [emplaceBack_of_lt hlt']⟩
  | start hpc =>
    have hlt' : i < s.size := hlt
    by_cases hlast : i = s.size - 1
    · subst hlast
      exact Or.inr (Or.inr (Or.inl ⟨(hi.started _ hlt').mpr ⟨hpc, by omega⟩, by simp⟩))
    · exact Or.inl ⟨hlt', by simp [set_of_ne hlast]⟩
  | @accept fd ok =>
    obtain ⟨hsize, -, hsame⟩ := accept_same s fd ok
    exact Or.inl ⟨hsize ▸ hlt, hsame i⟩
  | @stop j =>
    refine Or.inl ⟨hlt, ?_⟩
    by_cases hij : i = j
    · subst hij
      simp
    · simp [set_of_ne hij]
  | createFails | destroy | stopped | join | joined => exact Or.inl ⟨hlt, rfl⟩
  | @thread j _ r hj ht =>
    by_cases hij : i = j
    · subst hij
      rw [set_self]
      exact Or.inr (Or.inr (Or.inr ⟨hj, ht⟩))
    · exact Or.inl ⟨hlt, by rw [set_of_ne hij]⟩

/-! ## Lost threads -/

/-- A thread has read where the buffer is, or where it was before. -/
def Past (s : Pool) : Prop := ∀ i < s.size, ∀ b, (s.reactor i).pc = .index b → b ≤ s.buffer

theorem past_step (hi : Inv s) (hp : Past s) (h : step s a = some s') : Past s' := by
  intro i hlt b hb
  have hle := buffer_le h
  rcases pc_step hi h hlt with ⟨hlt', hsame⟩ | ⟨-, hun⟩ | ⟨-, hlam⟩ | ⟨-, ht⟩
  · exact (hp i hlt' b (hsame ▸ hb)).trans hle
  · rw [hun] at hb
    cases hb
  · rw [hlam] at hb
    cases hb
  · rw [ht.index_eq hb]
    exact hle

theorem reach_past (hr : Reach anyStep step (init n) s) : Past s :=
  hr.invariant_of (fun _ hr => reach_inv hr) (fun _ hi => absurd hi (Nat.not_lt_zero _))
    fun _ _ _ hi hp h _ => past_step hi hp h

/-- A thread stays lost. -/
theorem lost_step (hi : Inv s) (hp : Past s) (h : step s a = some s') (hl : Lost s i) : Lost s' i := by
  obtain ⟨hlt, hstrays⟩ := hl
  have hlt' : i < s'.size := Nat.lt_of_lt_of_le hlt (size_le h)
  have hle := buffer_le h
  refine ⟨hlt', ?_⟩
  rcases pc_step hi h hlt' with ⟨-, hsame⟩ | ⟨hge, -⟩ | ⟨hun, -⟩ | ⟨-, ht⟩
  · rcases hstrays with hastray | ⟨b, hb, hne⟩
    · exact Or.inl (hsame.trans hastray)
    · have hold := hp i hlt b hb
      exact Or.inr ⟨b, hsame.trans hb, by omega⟩
  · omega
  · simp [Strays, hun] at hstrays
  · rcases buffer_step h with ⟨⟨-, -, _, rfl⟩, -⟩ | ⟨-, hb⟩
    · cases ht
    · rw [hb]
      exact ht.strays_iff.mpr hstrays

/-- A thread is lost if it was, or by a move of the vector that finds it about to read. -/
theorem lost_iff (hi : Inv s) (hp : Past s) (h : step s a = some s') :
    (∃ i, Lost s' i) ↔ (∃ i, Lost s i) ∨ ¬ InPlace s a := by
  constructor
  · rintro ⟨i, hlt, hstrays⟩
    rcases pc_step hi h hlt with ⟨hlt', hsame⟩ | ⟨-, hun⟩ | ⟨-, hlam⟩ | ⟨hlt', ht⟩
    · rcases hstrays with hastray | ⟨b, hb, hne⟩
      · exact Or.inl ⟨i, hlt', Or.inl (hsame.symm.trans hastray)⟩
      · rw [hsame] at hb
        rcases buffer_step h with ⟨hrel, -⟩ | ⟨-, hbuffer⟩
        · exact Or.inr fun hplace => hplace hrel i hlt' b hb
        · exact Or.inl ⟨i, hlt', Or.inr ⟨b, hb, hbuffer ▸ hne⟩⟩
    · simp [Strays, hun] at hstrays
    · simp [Strays, hlam] at hstrays
    · rcases buffer_step h with ⟨⟨-, -, _, rfl⟩, -⟩ | ⟨-, hb⟩
      · cases ht
      · rw [hb] at hstrays
        exact Or.inl ⟨i, hlt', ht.strays_iff.mp hstrays⟩
  · rintro (⟨i, hl⟩ | hplace)
    · exact ⟨i, lost_step hi hp h hl⟩
    · unfold InPlace at hplace
      push Not at hplace
      obtain ⟨hrel, i, hlt, b, hb⟩ := hplace
      have hlt' : i < s'.size := Nat.lt_of_lt_of_le hlt (size_le h)
      have hold := hp i hlt b hb
      rcases buffer_step h with ⟨-, hbuffer⟩ | ⟨hnot, -⟩
      · refine ⟨i, hlt', Or.inr ⟨b, ?_, by omega⟩⟩
        obtain ⟨-, -, _, rfl⟩ := hrel
        rcases pc_step hi h hlt' with ⟨-, hsame⟩ | ⟨hge, -⟩ | ⟨hun, -⟩ | ⟨-, ht⟩
        · exact hsame.trans hb
        · omega
        · simp [hun] at hb
        · cases ht
      · exact absurd hrel hnot

end CppBackend.SubReactors
