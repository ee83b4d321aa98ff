import CppBackend.Bank.Model
import Mathlib.Algebra.BigOperators.Group.Finset.Piecewise
import Mathlib.Algebra.BigOperators.Group.List.Basic
import Mathlib.Tactic.Abel

/-!
# What the transfers leave

When all threads have come to their end, the accounts are what the calls leave one after another in some
order (`transfers_serial`), whatever the arithmetic is.  When the arithmetic is exact, an account whose mutex
is free always has what was put into it less what was taken out (`balance_of_free`), and no money is lost or
made while nobody is in the middle of a transfer (`total_conserved`).  The threads cannot keep one another from
their end (`transfers_finish`).
-/

set_option autoImplicit false

namespace CppBackend.Bank

open Library.Transition Library.ScopedLock Library.Updates

variable {κ A : Type} [DecidableEq κ]

section AnyArithmetic

variable [Add A] [Sub A] {accounts : κ → BankAccount A} {calls : List (Call κ A)} {s : Transfers κ A}
  {ok : Transfers κ A → Nat × Bool → Transfers κ A → Prop}

omit [DecidableEq κ] in
/-- Jobs that are some of the calls, in some order. -/
theorem calls_of_perm {jobs rest : List (Job κ (BankAccount A))} (h : (jobs ++ rest).Perm (calls.map Transfer)) :
    ∃ made left : List (Call κ A), (made ++ left).Perm calls ∧ jobs = made.map Transfer ∧
      rest = left.map Transfer := by
  have hcomp : Relation.Comp (fun x y => x = List.map Transfer y) List.Perm (jobs ++ rest) calls := by
    rw [List.eq_map_comp_perm]
    exact h
  obtain ⟨all, hall, hperm⟩ := hcomp
  obtain ⟨made, left, rfl, hmade, hleft⟩ := List.append_eq_map_iff.mp hall
  exact ⟨made, left, hperm, hmade.symm, hleft.symm⟩

/-- **Transfers are serial.** -/
theorem transfers_serial (h : Reach ok step (start accounts calls) s) (hdone : ∀ t ∈ s.threads, t.isDone = true) :
    ∃ order : List (Call κ A), order.Perm calls ∧ s.shared.value = runCalls order accounts := by
  obtain ⟨order, hperm, hval⟩ := run_serial h hdone
  have hall : (order ++ []).Perm (calls.map Transfer) := by rwa [List.append_nil]
  obtain ⟨made, left, hcalls, rfl, hleft⟩ := calls_of_perm hall
  have hnil : left = [] := List.map_eq_nil_iff.mp hleft.symm
  rw [hnil, List.append_nil] at hcalls
  exact ⟨made, hcalls, hval.trans (runAll_transfer accounts made)⟩

theorem transfers_serial_main : ∃ order : List (Call Bool Int), order.Perm mainCalls ∧
    ((exec step (start mainAccounts mainCalls) contended).get (by decide)).shared.value =
      runCalls order mainAccounts :=
  transfers_serial (exec_reach_get contended (by decide)) (by decide)

/-- **No deadlock**: from every state of every run, all calls can come to their end. -/
theorem transfers_finish (h : Reach anyStep step (start accounts calls) s) :
    ∃ s', Reach anyStep step s s' ∧ (∀ t ∈ s'.threads, t.isDone = true) ∧
      ∃ order : List (Call κ A), order.Perm calls ∧ s'.shared.value = runCalls order accounts := by
  obtain ⟨s', hr, hdone⟩ := can_finish h
  exact ⟨s', hr, hdone, transfers_serial (h.trans hr) hdone⟩

theorem transfers_finish_main :
    ∃ s', Reach anyStep step ((exec step (start mainAccounts mainCalls) (contended.take 4)).get (by decide)) s' ∧
      (∀ t ∈ s'.threads, t.isDone = true) ∧
      ∃ order : List (Call Bool Int), order.Perm mainCalls ∧ s'.shared.value = runCalls order mainAccounts :=
  transfers_finish (exec_reach_get (contended.take 4) (by decide))

end AnyArithmetic

/-! ## Exact arithmetic -/

section Exact

variable [AddCommGroup A] {accounts : κ → BankAccount A} {calls : List (Call κ A)} {s : Transfers κ A}
  {ok : Transfers κ A → Nat × Bool → Transfers κ A → Prop}

/-- What the calls take out of an account. -/
def takenFrom (a : κ) (calls : List (Call κ A)) : A :=
  (calls.map fun call => if call.fromAccount = a then call.amount else 0).sum

/-- What the calls put into an account. -/
def putInto (a : κ) (calls : List (Call κ A)) : A :=
  (calls.map fun call => if call.toAccount = a then call.amount else 0).sum

theorem run_balance (call : Call κ A) (accounts : κ → BankAccount A) (a : κ) :
    (call.run accounts a).balance = (accounts a).balance - (if call.fromAccount = a then call.amount else 0) +
      (if call.toAccount = a then call.amount else 0) := by
  have hdiffer := call.differ
  unfold Call.run
  by_cases hto : call.toAccount = a
  · subst hto
    simp [BankAccount.in, hdiffer, Function.update_of_ne (Ne.symm hdiffer)]
  · by_cases hfrom : call.fromAccount = a
    · subst hfrom
      simp [BankAccount.out, hto, Function.update_of_ne hdiffer]
    · simp [hto, hfrom, Function.update_of_ne (Ne.symm hto), Function.update_of_ne (Ne.symm hfrom)]

theorem runCalls_balance (a : κ) (calls : List (Call κ A)) (accounts : κ → BankAccount A) :
    (runCalls calls accounts a).balance = (accounts a).balance - takenFrom a calls + putInto a calls := by
  induction calls generalizing accounts with
  | nil => simp [runCalls, takenFrom, putInto]
  | cons call calls ih =>
    show (runCalls calls (call.run accounts) a).balance = _
    rw [ih, run_balance]
    simp only [takenFrom, putInto, List.map_cons, List.sum_cons]
    abel

/-- **An account whose mutex is free** has what the calls made so far leave it; in the end these are all
    calls. -/
theorem balance_of_free (h : Reach ok step (start accounts calls) s) :
    ∃ made left : List (Call κ A), (made ++ left).Perm calls ∧
      ((∀ t ∈ s.threads, t.isDone = true) → left = []) ∧ ∀ a, s.shared.locked a = false →
        (s.shared.value a).balance = (accounts a).balance - takenFrom a made + putInto a made := by
  obtain ⟨-, honce⟩ := run_order h
  obtain ⟨made, left, hperm, hmade, hleft⟩ := calls_of_perm honce
  refine ⟨made, left, hperm, fun hdone => ?_, fun a ha => ?_⟩
  · rw [waiting_of_done hdone] at hleft
    exact List.map_eq_nil_iff.mp hleft.symm
  · rw [run_free h ha, hmade, runAll_transfer, runCalls_balance]

theorem balance_of_free_main : ∃ made left : List (Call Bool Int), (made ++ left).Perm mainCalls ∧
    ((∀ t ∈ ((exec step (start mainAccounts mainCalls) contended).get (by decide)).threads, t.isDone = true) →
      left = []) ∧
    ∀ a, ((exec step (start mainAccounts mainCalls) contended).get (by decide)).shared.locked a = false →
      (((exec step (start mainAccounts mainCalls) contended).get (by decide)).shared.value a).balance =
        (mainAccounts a).balance - takenFrom a made + putInto a made :=
  balance_of_free (exec_reach_get contended (by decide))

theorem sum_taken [Fintype κ] (calls : List (Call κ A)) :
    ∑ a, takenFrom a calls = ∑ a, putInto a calls := by
  induction calls with
  | nil => rfl
  | cons call calls ih =>
    simp only [takenFrom, putInto, List.map_cons, List.sum_cons, Finset.sum_add_distrib] at ih ⊢
    rw [ih]
    simp

/-- **No money is lost or made**, as long as nobody is in the middle of a transfer. -/
theorem total_conserved [Fintype κ] (h : Reach ok step (start accounts calls) s)
    (hfree : ∀ a, s.shared.locked a = false) :
    ∑ a, (s.shared.value a).balance = ∑ a, (accounts a).balance := by
  obtain ⟨made, left, -, -, hbal⟩ := balance_of_free h
  rw [Finset.sum_congr rfl fun a _ => hbal a (hfree a), Finset.sum_add_distrib, Finset.sum_sub_distrib,
    sum_taken]
  exact sub_add_cancel _ _

theorem total_conserved_main :
    ∑ a, (((exec step (start mainAccounts mainCalls) contended).get (by decide)).shared.value a).balance =
      ∑ a, (mainAccounts a).balance :=
  total_conserved (exec_reach_get contended (by decide)) (by decide)

end Exact

end CppBackend.Bank
