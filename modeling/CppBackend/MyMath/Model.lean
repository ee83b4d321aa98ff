import CppBackend.Library.LongLong
import CppBackend.Library.Loop

/-!
# Modular arithmetic

Model of `Static Lib And Dynamic Lib/Static Link/mymath.cpp`.  The static variable `MOD` is the parameter
`mod` of every function, the value that `SetMod` was last called with.  All arithmetic is that of
`long long`.
-/

set_option autoImplicit false

namespace CppBackend.MyMath

open Library Library.LongLong Library.Loop

/-- `Add`. -/
def add (mod x y : Int) : Except Fault Int := do
  let x ← LongLong.add x y
  let x ← if x ≥ mod then rem x mod else pure x
  if x < 0 then LongLong.add x mod else pure x

/-- `Mul`. -/
def mul (mod x y : Int) : Except Fault Int := do
  let a ← rem x mod
  let b ← rem y mod
  let p ← LongLong.mul a b
  rem p mod

/-- `(x * y) % MOD`. -/
def mulRem (mod x y : Int) : Except Fault Int := do
  let p ← LongLong.mul x y
  rem p mod

/-- The variables of `QuickPower`. -/
structure Power where
  res : Int
  x : Int
  y : Int
  deriving DecidableEq, Repr

/-- The body of the loop of `QuickPower`, when `y` is not 0. -/
def Power.next (mod : Int) (p : Power) : Except Fault Power := do
  let res ← if isOdd p.y then mulRem mod p.res p.x else pure p.res
  let x ← mulRem mod p.x p.x
  return ⟨res, x, half p.y⟩

/-- One pass of the loop of `QuickPower`. -/
def quickPowerBody (mod : Int) (p : Power) : Pass Power (Except Fault Int) :=
  if p.y = 0 then .done (.ok p.res)
  else
    match p.next mod with
    | .error e => .done (.error e)
    | .ok p => .again p

/-- `QuickPower`, for at most so many passes of its loop. -/
def quickPower (fuel : Nat) (mod x y : Int) : Option (Except Fault Int) :=
  run (quickPowerBody mod) fuel ⟨1, x, y⟩

/-- `Inv`. -/
def inv (fuel : Nat) (mod x : Int) : Option (Except Fault Int) :=
  match LongLong.add mod (-2) with
  | .error e => some (.error e)
  | .ok y => quickPower fuel mod x y

/-- `Divide`. -/
def divide (fuel : Nat) (mod x y : Int) : Option (Except Fault Int) :=
  (inv fuel mod y).map fun r => r.bind fun z => mul mod x z

/-! ## Expressions -/

/-- What a program computes with the library. -/
inductive Expr where
  | const (c : Int)
  | add (a b : Expr)
  | mul (a b : Expr)
  | quickPower (a : Expr) (y : Int)
  deriving DecidableEq, Repr

/-- Apply a function of the library to two results. -/
def both (f : Int → Int → Except Fault Int) : Option (Except Fault Int) → Option (Except Fault Int) →
    Option (Except Fault Int)
  | some (.ok x), some (.ok y) => some (f x y)
  | some (.ok _), r => r
  | r, _ => r

/-- The value that the program gets; every loop may take so many passes. -/
def Expr.eval (fuel : Nat) (mod : Int) : Expr → Option (Except Fault Int)
  | .const c => some (.ok c)
  | .add a b => both (MyMath.add mod) (a.eval fuel mod) (b.eval fuel mod)
  | .mul a b => both (MyMath.mul mod) (a.eval fuel mod) (b.eval fuel mod)
  | .quickPower a y =>
    match a.eval fuel mod with
    | some (.ok x) => MyMath.quickPower fuel mod x y
    | r => r

end CppBackend.MyMath
