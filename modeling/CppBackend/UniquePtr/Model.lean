import CppBackend.Library.Storage
import CppBackend.Library.Slots
import CppBackend.Library.Transition

/-!
# `unique_ptr`

Model of the class template `unique_ptr<T>` of `mysmartptr/include/smartpointer.hpp` and of
`make_unique`, for a `T` that owns no handle.  A handle is its member `ptr`.  `delete` of an object
that is not allocated is a `Fault`.

A program has finitely many handle variables (slots) and performs one operation after the other
(`step`).  The constructor and `reset` take `nullptr` or a pointer that comes from `new` (`Source`);
the address of a new object is the allocator's choice.  Copying is deleted.
-/

set_option autoImplicit false

namespace CppBackend.UniquePtr

open Library.Storage

variable {T : Type}

/-- `delete` of an object that is not allocated. -/
inductive Fault where
  | object (a : Addr)
  deriving DecidableEq, Repr

/-- The member `ptr`; `none` is `nullptr`. -/
structure Handle where
  ptr : Option Addr
  deriving DecidableEq, Repr

/-! ## The member functions -/

/-- `delete ptr`; deleting a null pointer does nothing. -/
def delete (objects : Heap T) : Option Addr → Except Fault (Heap T)
  | none => .ok objects
  | some a =>
    match objects.free a with
    | some objects => .ok objects
    | none => .error (.object a)

/-- `unique_ptr(T* p = nullptr)`. -/
def construct (p : Option Addr) : Handle := ⟨p⟩

/-- `unique_ptr(unique_ptr&& other)`: the new handle, and `other` afterwards. -/
def moveConstruct (other : Handle) : Handle × Handle := (⟨other.ptr⟩, ⟨none⟩)

/-- `operator=(unique_ptr&& other)` for another handle than `*this`. -/
def moveAssign (objects : Heap T) (this other : Handle) :
    Except Fault (Heap T × Handle × Handle) := do
  let objects ← delete objects this.ptr
  return (objects, ⟨other.ptr⟩, ⟨none⟩)

/-- `~unique_ptr`, with the handle as it leaves it. -/
def destroy (objects : Heap T) (this : Handle) : Except Fault (Heap T × Handle) := do
  let objects ← delete objects this.ptr
  return (objects, ⟨none⟩)

def reset (objects : Heap T) (this : Handle) (otherptr : Option Addr) :
    Except Fault (Heap T × Handle) := do
  let objects ← delete objects this.ptr
  return (objects, ⟨otherptr⟩)

def Handle.get (this : Handle) : Option Addr := this.ptr

/-- `operator bool`. -/
def Handle.toBool (this : Handle) : Bool := this.ptr.isSome

/-! ## Programs -/

/-- The raw pointer that a handle is given: `nullptr`, or `new T(x)` at the address `a`. -/
inductive Source (T : Type) where
  | null
  | new (a : Addr) (x : T)

/-- The operations of a program on its handles, by slot. -/
inductive Op (T : Type) where
  | construct (i : Nat) (p : Source T)
  /-- `make_unique<T>(x)`. -/
  | makeUnique (i : Nat) (a : Addr) (x : T)
  | moveConstruct (i j : Nat)
  | moveAssign (i j : Nat)
  | destroy (i : Nat)
  | reset (i : Nat) (p : Source T)

structure Machine (T : Type) where
  objects : Heap T
  slots : List (Option Handle)

/-- Evaluate the argument; `none` if the address is in use. -/
def Source.eval (objects : Heap T) : Source T → Option (Heap T × Option Addr)
  | .null => some (objects, none)
  | .new a x => if ha : objects.cell a = none then some (objects.alloc a x ha, some a) else none

variable (m : Machine T)

/-- The slot `i` holds a live handle. -/
def Machine.handle (i : Nat) : Option Handle := m.slots[i]?.join

/-- The slot `i` can be constructed in. -/
def Machine.vacant (i : Nat) : Bool := m.slots[i]? == some none

def Machine.construct (i : Nat) (p : Source T) : Option (Machine T) :=
  match m.vacant i, p.eval m.objects with
  | true, some (objects, q) => some ⟨objects, m.slots.set i (some (UniquePtr.construct q))⟩
  | _, _ => none

/-- One operation: `none` if the language does not allow it here. -/
def Machine.apply : Op T → Option (Except Fault (Machine T))
  | .construct i p => (m.construct i p).map .ok
  | .makeUnique i a x => (m.construct i (.new a x)).map .ok
  | .moveConstruct i j =>
    match m.vacant i, m.handle j with
    | true, some other =>
      let r := UniquePtr.moveConstruct other
      some (.ok ⟨m.objects, (m.slots.set j (some r.2)).set i (some r.1)⟩)
    | _, _ => none
  | .moveAssign i j =>
    match m.handle i, m.handle j with
    | some this, some other =>
      if i = j then some (.ok m)
      else some do
        let (objects, this, other) ← UniquePtr.moveAssign m.objects this other
        return ⟨objects, (m.slots.set j (some other)).set i (some this)⟩
    | _, _ => none
  | .destroy i =>
    match m.handle i with
    | some this => some do
      let (objects, _) ← UniquePtr.destroy m.objects this
      return ⟨objects, m.slots.set i none⟩
    | none => none
  | .reset i p =>
    match m.handle i, p.eval m.objects with
    | some this, some (objects, q) => some do
      let (objects, this) ← UniquePtr.reset objects this q
      return ⟨objects, m.slots.set i (some this)⟩
    | _, _ => none

/-- A program state; nothing follows a fault. -/
abbrev State (T : Type) := Except Fault (Machine T)

def step : State T → Op T → Option (State T)
  | .error _, _ => none
  | .ok m, op => m.apply op

/-- `n` handle variables, none of them constructed. -/
def init (T : Type) (n : Nat) : State T := .ok ⟨.empty, List.replicate n none⟩

end CppBackend.UniquePtr
