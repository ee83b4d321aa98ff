import CppBackend.Library.ScopedLock

/-!
# Transfers between bank accounts

Model of `C++MultiThreadingProgram/lockFunction.cpp`, with any number of accounts and a thread for each of any
number of calls of `Transfer` (`main` makes two, between two accounts).  `Transfer` locks the mutexes of both
accounts with `std::lock`, takes the amount out of one and puts it into the other.  An account is named by its
place `κ`; the arithmetic of the balances is a parameter (the code has `double`).

Not called with the same account twice: `std::lock` on one mutex is undefined behaviour.
-/

set_option autoImplicit false

namespace CppBackend.Bank

open Library.ScopedLock Library.Updates

/-- `BankAccount`; its `mtx` is the mutex of its place. -/
structure BankAccount (A : Type) where
  balance : A
  usrID : Nat
  usrName : String
  deriving DecidableEq, Repr

variable {κ A : Type} [Add A] [Sub A]

def BankAccount.out (account : BankAccount A) (amount : A) : BankAccount A :=
  { account with balance := account.balance - amount }

def BankAccount.«in» (account : BankAccount A) (amount : A) : BankAccount A :=
  { account with balance := account.balance + amount }

/-- The arguments of a call of `Transfer`. -/
structure Call (κ A : Type) where
  fromAccount : κ
  toAccount : κ
  differ : fromAccount ≠ toAccount
  amount : A

/-- `Transfer(from, to, amount)` behind its `sleep_for`. -/
def Transfer (call : Call κ A) : Job κ (BankAccount A) where
  first := call.fromAccount
  second := call.toAccount
  differ := call.differ
  updates := [⟨call.fromAccount, fun account => account.out call.amount⟩,
    ⟨call.toAccount, fun account => account.in call.amount⟩]
  within := by simp

abbrev Transfers (κ A : Type) := Run κ (BankAccount A)

/-- A thread for each call, and no mutex locked. -/
def start (accounts : κ → BankAccount A) (calls : List (Call κ A)) : Transfers κ A := init accounts (calls.map Transfer)

/-- The calls of `main`: 100 from the first account to the second, and 200 back. -/
def mainCalls : List (Call Bool Int) := [⟨false, true, by decide, 100⟩, ⟨true, false, by decide, 200⟩]

/-- The accounts of `main`. -/
def mainAccounts : Bool → BankAccount Int
  | false => ⟨0, 1, "张三"⟩
  | true => ⟨0, 2, "李四"⟩

/-- Each call locks one mutex; the first one backs off and comes after the second. -/
def contended : List (Nat × Bool) :=
  [(0, false), (1, false), (0, false), (1, false), (0, false), (0, false)] ++ List.replicate 6 (1, false) ++
    List.replicate 7 (0, false)

/-! ## The calls one after another -/

variable [DecidableEq κ]

/-- A call that nobody interrupts. -/
def Call.run (call : Call κ A) (accounts : κ → BankAccount A) : κ → BankAccount A :=
  let taken := Function.update accounts call.fromAccount ((accounts call.fromAccount).out call.amount)
  Function.update taken call.toAccount ((taken call.toAccount).in call.amount)

def runCalls (calls : List (Call κ A)) (accounts : κ → BankAccount A) : κ → BankAccount A :=
  calls.foldl (fun accounts call => call.run accounts) accounts

theorem runAll_transfer (accounts : κ → BankAccount A) : ∀ (calls : List (Call κ A)),
    runAll ((calls.map Transfer).flatMap Job.updates) accounts = runCalls calls accounts := by
  intro calls
  induction calls generalizing accounts with
  | nil => rfl
  | cons call calls ih =>
    rw [List.map_cons, List.flatMap_cons, runAll_append, ih]
    rfl

end CppBackend.Bank
