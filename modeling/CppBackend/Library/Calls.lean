import CppBackend.Library.Descriptors
import Mathlib.Data.List.Count

/-!
# The calls of a process on its descriptors

A process makes calls on numbers, and means a connection by each.  The log `ops` has both: the
connection that was meant, and the one that the number referred to.

* `Tracked` — every call reached the connection that it was meant for, and a connection has been
  closed once if it is gone, and not at all otherwise;
* `tracked_accept`, `tracked_call`, `tracked_close` — a call on the number under which the
  connection is open keeps that so.
-/

set_option autoImplicit false

namespace Library.Calls

open Library.Descriptors

inductive Call where
  /-- What `recv` returned; nothing if it returned 0 or failed. -/
  | recv (chunk : List UInt8)
  | send (bytes : List UInt8)
  | close
  deriving DecidableEq, Repr

/-- A call that was meant for the connection `conn` and applied to `hit`. -/
structure Op where
  call : Call
  conn : Nat
  hit : Option Nat
  deriving DecidableEq, Repr

structure Process where
  table : Table
  ops : List Op

def Process.empty : Process := ⟨.empty, []⟩

variable (p : Process)

def Process.accept (fd : Nat) : Process := { p with table := p.table.accept fd }

/-- A call of `recv` or `send` on the number `fd`, meant for the connection `c`. -/
def Process.call (k : Call) (fd c : Nat) : Process :=
  { p with ops := p.ops ++ [⟨k, c, p.table.conn fd⟩] }

def Process.close (fd c : Nat) : Process :=
  ⟨p.table.close fd, p.ops ++ [⟨.close, c, p.table.conn fd⟩]⟩

/-- How often the process has called `close` meaning the connection `c`. -/
def Process.closes (c : Nat) : Nat := p.ops.countP fun o => o.call = .close ∧ o.conn = c

@[simp] theorem accept_table (fd : Nat) : (p.accept fd).table = p.table.accept fd := rfl
@[simp] theorem accept_ops (fd : Nat) : (p.accept fd).ops = p.ops := rfl
@[simp] theorem accept_closes (fd c : Nat) : (p.accept fd).closes c = p.closes c := rfl
@[simp] theorem call_table (k : Call) (fd c : Nat) : (p.call k fd c).table = p.table := rfl
@[simp] theorem close_table (fd c : Nat) : (p.close fd c).table = p.table.close fd := rfl

theorem call_closes {k : Call} (hk : k ≠ .close) (fd c d : Nat) :
    (p.call k fd c).closes d = p.closes d := by
  simp [Process.closes, Process.call, List.countP_append, hk]

theorem close_closes_self (fd c : Nat) : (p.close fd c).closes c = p.closes c + 1 := by
  simp [Process.closes, Process.close, List.countP_append]

theorem close_closes_of_ne (fd : Nat) {c d : Nat} (hd : d ≠ c) :
    (p.close fd c).closes d = p.closes d := by
  simp [Process.closes, Process.close, List.countP_append, hd.symm]

/-- Every call reached the connection that it was meant for, and each connection is closed once. -/
structure Tracked (p : Process) : Prop where
  own : ∀ o ∈ p.ops, o.hit = some o.conn
  gone : ∀ c, Gone p.table c → p.closes c = 1
  live : ∀ c, ¬ Gone p.table c → p.closes c = 0

variable {p} {fd c : Nat}

theorem tracked_empty : Tracked .empty := by
  refine ⟨fun _ ho => (nomatch ho), fun c hg => ?_, fun _ _ => rfl⟩
  exact absurd hg.1 (Nat.not_lt_zero c)

theorem Tracked.closes_le (ht : Tracked p) (c : Nat) : p.closes c ≤ 1 := by
  by_cases hg : Gone p.table c
  · exact Nat.le_of_eq (ht.gone c hg)
  · have := ht.live c hg
    omega

theorem tracked_accept (ht : Tracked p) (hfree : p.table.conn fd = none) :
    Tracked (p.accept fd) :=
  ⟨ht.own, fun c hg => ht.gone c (gone_of_gone_accept hfree hg),
    fun c hg => ht.live c fun hg' => hg (gone_accept hg' fd)⟩

theorem own_append {ops : List Op} {k : Call} {h : Option Nat}
    (ho : ∀ o ∈ ops, o.hit = some o.conn) (hh : h = some c) :
    ∀ o ∈ ops ++ [⟨k, c, h⟩], o.hit = some o.conn := by
  intro o hm
  rcases List.mem_append.mp hm with hm | hm
  · exact ho o hm
  · rw [List.mem_singleton.mp hm]
    exact hh

theorem tracked_call (ht : Tracked p) {k : Call} (hk : k ≠ .close)
    (hopen : p.table.conn fd = some c) : Tracked (p.call k fd c) := by
  refine ⟨own_append ht.own hopen, fun d hg => ?_, fun d hg => ?_⟩
  · rw [call_closes p hk]
    exact ht.gone d hg
  · rw [call_closes p hk]
    exact ht.live d hg

theorem tracked_close (ht : Tracked p) (hopen : p.table.conn fd = some c) :
    Tracked (p.close fd c) := by
  refine ⟨own_append ht.own hopen, fun d hg => ?_, fun d hg => ?_⟩
  · by_cases hd : d = c
    · rw [hd, close_closes_self, ht.live c (not_gone_of_open hopen)]
    · rw [close_closes_of_ne p fd hd]
      exact ht.gone d (gone_of_gone_close hopen hd hg)
  · by_cases hd : d = c
    · rw [hd] at hg
      exact absurd (gone_of_close hopen) hg
    · rw [close_closes_of_ne p fd hd]
      exact ht.live d fun hg' => hg (gone_close hg' fd)

end Library.Calls
