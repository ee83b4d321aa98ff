import Mathlib.Logic.Function.Basic

/-!
# The descriptor table of a process

A descriptor number refers to an open connection or to nothing.  `accept` opens a new connection
under a number that is not in use, any one; `close` ends the connection that a number refers to,
and then the number may be handed out again.  Connections are numbered in the order in which they
are accepted, so that a connection is told from a later one under the same number.

* `Table.inj` — a connection is open under at most one number;
* `Gone` — a connection that has been closed is never open again (`gone_accept`, `gone_close`);
* `Own` — a number keeps referring to its connection or, once that is closed, to nothing, as long as
  `accept` does not hand it out (`own_accept`, `own_close`);
* `OrLater` — whatever is handed out, a number refers to its connection or, once that is closed, to nothing or
  to a later one (`orLater_accept`, `orLater_close`).
-/

set_option autoImplicit false

namespace Library.Descriptors

structure Table where
  conn : Nat → Option Nat
  /-- The number of connections accepted so far. -/
  next : Nat
  bounded : ∀ fd c, conn fd = some c → c < next
  inj : ∀ fd fd' c, conn fd = some c → conn fd' = some c → fd = fd'

def Table.empty : Table := ⟨fun _ => none, 0, fun _ _ h => (nomatch h), fun _ _ _ h => (nomatch h)⟩

/-- Open a new connection under the number `fd`. -/
def Table.accept (t : Table) (fd : Nat) : Table where
  conn := Function.update t.conn fd (some t.next)
  next := t.next + 1
  bounded := by
    intro f c h
    by_cases hf : f = fd
    · rw [hf, Function.update_self, Option.some.injEq] at h
      omega
    · rw [Function.update_of_ne hf] at h
      have := t.bounded f c h
      omega
  inj := by
    intro f f' c h h'
    by_cases hf : f = fd <;> by_cases hf' : f' = fd
    · rw [hf, hf']
    · rw [hf, Function.update_self, Option.some.injEq] at h
      rw [Function.update_of_ne hf'] at h'
      have := t.bounded f' c h'
      omega
    · rw [hf', Function.update_self, Option.some.injEq] at h'
      rw [Function.update_of_ne hf] at h
      have := t.bounded f c h
      omega
    · rw [Function.update_of_ne hf] at h
      rw [Function.update_of_ne hf'] at h'
      exact t.inj f f' c h h'

/-- Close the number `fd`. -/
def Table.close (t : Table) (fd : Nat) : Table where
  conn := Function.update t.conn fd none
  next := t.next
  bounded := by
    intro f c h
    by_cases hf : f = fd
    · rw [hf, Function.update_self] at h
      cases h
    · rw [Function.update_of_ne hf] at h
      exact t.bounded f c h
  inj := by
    intro f f' c h h'
    by_cases hf : f = fd
    · rw [hf, Function.update_self] at h
      cases h
    · by_cases hf' : f' = fd
      · rw [hf', Function.update_self] at h'
        cases h'
      · rw [Function.update_of_ne hf] at h
        rw [Function.update_of_ne hf'] at h'
        exact t.inj f f' c h h'

variable {t : Table} {fd f c : Nat}

@[simp] theorem accept_self (t : Table) (fd : Nat) : (t.accept fd).conn fd = some t.next :=
  Function.update_self fd _ _

@[simp] theorem accept_next (t : Table) (fd : Nat) : (t.accept fd).next = t.next + 1 := rfl

theorem accept_of_ne (h : f ≠ fd) : (t.accept fd).conn f = t.conn f := Function.update_of_ne h _ _

@[simp] theorem close_self (t : Table) (fd : Nat) : (t.close fd).conn fd = none :=
  Function.update_self fd _ _

@[simp] theorem close_next (t : Table) (fd : Nat) : (t.close fd).next = t.next := rfl

theorem close_of_ne (h : f ≠ fd) : (t.close fd).conn f = t.conn f := Function.update_of_ne h _ _

theorem accept_conn (t : Table) (fd f : Nat) :
    (t.accept fd).conn f = if f = fd then some t.next else t.conn f := by
  split
  · rename_i h
    rw [h, accept_self]
  · rename_i h
    exact accept_of_ne h

theorem close_conn (t : Table) (fd f : Nat) :
    (t.close fd).conn f = if f = fd then none else t.conn f := by
  split
  · rename_i h
    rw [h, close_self]
  · rename_i h
    exact close_of_ne h

/-- What is open after a `close` was open before, under another number. -/
theorem close_eq_some : (t.close fd).conn f = some c ↔ f ≠ fd ∧ t.conn f = some c := by
  rw [close_conn]
  by_cases h : f = fd <;> simp [h]

/-- An open number is not the one that `accept` hands out. -/
theorem ne_of_open (hfree : t.conn fd = none) (h : t.conn f = some c) : f ≠ fd := by
  rintro rfl
  rw [hfree] at h
  cases h

/-- What is open stays open under its number when another one is opened. -/
theorem accept_open (hfree : t.conn fd = none) (h : t.conn f = some c) :
    (t.accept fd).conn f = some c := by
  rw [accept_of_ne (ne_of_open hfree h), h]

/-- Closing takes nothing else away. -/
theorem close_open {c' : Nat} (hfd : t.conn fd = some c') (h : t.conn f = some c) (hne : c ≠ c') :
    (t.close fd).conn f = some c := by
  rw [close_of_ne, h]
  rintro rfl
  rw [hfd, Option.some.injEq] at h
  exact hne h.symm

/-- The connection has been accepted, and is not open any more. -/
def Gone (t : Table) (c : Nat) : Prop := c < t.next ∧ ∀ fd, t.conn fd ≠ some c

theorem gone_accept (h : Gone t c) (fd : Nat) : Gone (t.accept fd) c := by
  refine ⟨Nat.lt_succ_of_lt h.1, fun f hf => ?_⟩
  by_cases he : f = fd
  · rw [he, accept_self, Option.some.injEq] at hf
    have := h.1
    omega
  · rw [accept_of_ne he] at hf
    exact h.2 f hf

theorem gone_close (h : Gone t c) (fd : Nat) : Gone (t.close fd) c :=
  ⟨h.1, fun f hf => h.2 f (close_eq_some.mp hf).2⟩

/-- The connection that is closed is gone. -/
theorem gone_of_close (h : t.conn fd = some c) : Gone (t.close fd) c := by
  refine ⟨t.bounded fd c h, fun f hf => ?_⟩
  obtain ⟨hne, hopen⟩ := close_eq_some.mp hf
  exact hne (t.inj f fd c hopen h)

theorem not_gone_of_open (h : t.conn fd = some c) : ¬ Gone t c := fun hg => hg.2 fd h

/-- Nothing comes to an end when a connection is opened. -/
theorem gone_of_gone_accept (hfree : t.conn fd = none) (h : Gone (t.accept fd) c) : Gone t c := by
  have hne : c ≠ t.next := by
    rintro rfl
    exact h.2 fd (accept_self _ _)
  refine ⟨?_, fun f hf => h.2 f (accept_open hfree hf)⟩
  have := h.1
  rw [accept_next] at this
  omega

/-- Closing a number ends only the connection under it. -/
theorem gone_of_gone_close {d : Nat} (hopen : t.conn fd = some c) (hd : d ≠ c)
    (h : Gone (t.close fd) d) : Gone t d :=
  ⟨h.1, fun f hf => h.2 f (close_open hopen hf hd)⟩

/-- The number refers to the connection, or the connection has ended and the number is not in
use. -/
def Own (t : Table) (fd c : Nat) : Prop := t.conn fd = some c ∨ (t.conn fd = none ∧ Gone t c)

theorem own_accept {f : Nat} (h : Own t fd c) (hfree : t.conn f = none) (hne : fd ≠ f) :
    Own (t.accept f) fd c := by
  rcases h with h | ⟨h, hg⟩
  · exact Or.inl (accept_open hfree h)
  · exact Or.inr ⟨by rw [accept_of_ne hne, h], gone_accept hg f⟩

theorem own_close {f : Nat} (h : Own t fd c) : Own (t.close f) fd c := by
  by_cases hf : fd = f
  · subst hf
    refine Or.inr ⟨close_self t fd, ?_⟩
    rcases h with h | ⟨_, hg⟩
    · exact gone_of_close h
    · exact gone_close hg fd
  · rcases h with h | ⟨h, hg⟩
    · exact Or.inl (by rw [close_of_ne hf, h])
    · exact Or.inr ⟨by rw [close_of_ne hf, h], gone_close hg f⟩

/-- What a number has referred to: the connection, or, when that has ended, nothing or a later one. -/
def OrLater (t : Table) (hit : Option Nat) (c : Nat) : Prop :=
  hit = some c ∨ (Gone t c ∧ ∀ d, hit = some d → c < d)

theorem OrLater.accept {hit : Option Nat} (h : OrLater t hit c) (f : Nat) : OrLater (t.accept f) hit c :=
  h.imp_right fun hg => ⟨gone_accept hg.1 f, hg.2⟩

theorem OrLater.close {hit : Option Nat} (h : OrLater t hit c) (f : Nat) : OrLater (t.close f) hit c :=
  h.imp_right fun hg => ⟨gone_close hg.1 f, hg.2⟩

/-- Whatever number is handed out. -/
theorem orLater_accept {f : Nat} (h : OrLater t (t.conn fd) c) (hfree : t.conn f = none) :
    OrLater (t.accept f) ((t.accept f).conn fd) c := by
  by_cases hf : fd = f
  · subst hf
    rw [accept_self]
    rcases h with h | ⟨hg, -⟩
    · rw [hfree] at h
      cases h
    · refine Or.inr ⟨gone_accept hg fd, fun d hd => ?_⟩
      cases hd
      exact hg.1
  · rw [accept_of_ne hf]
    exact h.accept f

theorem orLater_close {f : Nat} (h : OrLater t (t.conn fd) c) : OrLater (t.close f) ((t.close f).conn fd) c := by
  by_cases hf : fd = f
  · subst hf
    rw [close_self]
    refine Or.inr ⟨?_, fun d hd => by cases hd⟩
    rcases h with h | ⟨hg, -⟩
    · exact gone_of_close h
    · exact gone_close hg fd
  · rw [close_of_ne hf]
    exact h.close f

end Library.Descriptors
