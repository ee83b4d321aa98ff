import CppBackend.Library.Storage
import CppBackend.Library.Slots
import CppBackend.Library.Transition

/-!
# `shared_ptr`

Model of the class template `shared_ptr<T>` of `mysmartptr/include/smartpointer.hpp`, for a `T`
that owns no handle.  A handle is the pair of its two members; the counters behind
`shared_count` are `size_t` values in a heap of their own, and every member function goes through
the heap cell by cell, in the order of the source.  An access to a counter or object that is not
allocated is a `Fault`.

A program has finitely many handle variables (slots) and performs one operation after the
other (`step`).  `fresh` lists the raw pointers that the program got from `new T` and has not
yet given to a handle; the constructor from a raw pointer takes one of them.  Addresses of new
objects and counters are the allocator's choice.
-/

set_option autoImplicit false

namespace CppBackend.SharedPtr

open Library.Storage

variable {T : Type}

/-- An access to memory that is not allocated. -/
inductive Fault where
  | counter (c : Addr)
  | object (a : Addr)
  deriving DecidableEq, Repr

structure Memory (T : Type) where
  objects : Heap T
  counts : Heap UInt64

/-- `*shared_count`. -/
def Memory.readCount (mem : Memory T) (c : Addr) : Except Fault UInt64 :=
  match mem.counts.cell c with
  | some n => .ok n
  | none => .error (.counter c)

def Memory.writeCount (mem : Memory T) (c : Addr) (n : UInt64) : Except Fault (Memory T) :=
  match mem.counts.write c n with
  | some counts => .ok { mem with counts := counts }
  | none => .error (.counter c)

/-- `delete shared_count`. -/
def Memory.deleteCount (mem : Memory T) (c : Addr) : Except Fault (Memory T) :=
  match mem.counts.free c with
  | some counts => .ok { mem with counts := counts }
  | none => .error (.counter c)

/-- `delete ptr`; deleting a null pointer does nothing. -/
def Memory.deleteObject (mem : Memory T) : Option Addr → Except Fault (Memory T)
  | none => .ok mem
  | some a =>
    match mem.objects.free a with
    | some objects => .ok { mem with objects := objects }
    | none => .error (.object a)

/-! ## The member functions -/

/-- The members `ptr` and `shared_count`; `none` is `nullptr`. -/
structure Handle where
  ptr : Option Addr
  sharedCount : Option Addr
  deriving DecidableEq, Repr

def Handle.null : Handle := ⟨none, none⟩

/-- `release`. -/
def release (mem : Memory T) (this : Handle) : Except Fault (Memory T × Handle) :=
  match this.sharedCount with
  | none => .ok (mem, this)
  | some c => do
    let n ← mem.readCount c
    let mem ← mem.writeCount c (n - 1)
    let left ← mem.readCount c
    if left = 0 then
      let mem ← mem.deleteObject this.ptr
      let mem ← mem.deleteCount c
      return (mem, .null)
    else return (mem, this)

/-- `shared_ptr(T* p)`, with `new size_t(1)` at the address `c` when `p` is not null. -/
def construct (mem : Memory T) (p : Option Addr) (c : Addr) (hc : mem.counts.cell c = none) :
    Memory T × Handle :=
  match p with
  | none => (mem, .null)
  | some a => ({ mem with counts := mem.counts.alloc c 1 hc }, ⟨some a, some c⟩)

/-- Take over the members of `other` and count one more owner. -/
def share (mem : Memory T) (other : Handle) : Except Fault (Memory T × Handle) :=
  match other.sharedCount with
  | none => .ok (mem, other)
  | some c => do
    let n ← mem.readCount c
    let mem ← mem.writeCount c (n + 1)
    return (mem, other)

/-- `shared_ptr(const shared_ptr& other)`. -/
def copyConstruct (mem : Memory T) (other : Handle) : Except Fault (Memory T × Handle) :=
  share mem other

/-- `shared_ptr(shared_ptr&& other)`: the new handle, and `other` afterwards. -/
def moveConstruct (other : Handle) : Handle × Handle := (other, .null)

/-- `operator=(const shared_ptr& other)` for another handle than `*this`. -/
def copyAssign (mem : Memory T) (this other : Handle) : Except Fault (Memory T × Handle) := do
  let (mem, _) ← release mem this
  share mem other

/-- `operator=(shared_ptr&& other)` for another handle than `*this`. -/
def moveAssign (mem : Memory T) (this other : Handle) :
    Except Fault (Memory T × Handle × Handle) := do
  let (mem, _) ← release mem this
  return (mem, moveConstruct other)

/-- `~shared_ptr`. -/
def destroy (mem : Memory T) (this : Handle) : Except Fault (Memory T) := do
  let (mem, _) ← release mem this
  return mem

def reset (mem : Memory T) (this : Handle) : Except Fault (Memory T × Handle) := release mem this

def Handle.get (this : Handle) : Option Addr := this.ptr

/-- `operator bool`. -/
def Handle.toBool (this : Handle) : Bool := this.ptr.isSome

/-- `get_count`. -/
def Handle.getCount (mem : Memory T) (this : Handle) : Except Fault UInt64 :=
  match this.sharedCount with
  | none => .ok 0
  | some c => mem.readCount c

/-! ## Programs -/

/-- The operations of a program on its handles, by slot. -/
inductive Op (T : Type) where
  /-- `new T(x)`, at the address `a`. -/
  | newObject (a : Addr) (x : T)
  | construct (i : Nat) (p : Option Addr) (c : Addr)
  /-- `make_shared<T>(x)`. -/
  | makeShared (i : Nat) (a : Addr) (x : T) (c : Addr)
  | copyConstruct (i j : Nat)
  | moveConstruct (i j : Nat)
  | copyAssign (i j : Nat)
  | moveAssign (i j : Nat)
  | destroy (i : Nat)
  | reset (i : Nat)

structure Machine (T : Type) where
  mem : Memory T
  fresh : List Addr
  slots : List (Option Handle)

variable (m : Machine T)

/-- The slot `i` holds a live handle. -/
def Machine.handle (i : Nat) : Option Handle := m.slots[i]?.join

/-- The slot `i` can be constructed in. -/
def Machine.vacant (i : Nat) : Bool := m.slots[i]? == some none

def Machine.newObject (a : Addr) (x : T) : Option (Machine T) :=
  if ha : m.mem.objects.cell a = none then
    some { m with mem := { m.mem with objects := m.mem.objects.alloc a x ha },
                  fresh := a :: m.fresh }
  else none

/-- The raw pointer is null or one that the program may still give away. -/
def Machine.adoptable : Option Addr → Bool
  | none => true
  | some a => m.fresh.contains a

def Machine.construct (i : Nat) (p : Option Addr) (c : Addr) : Option (Machine T) :=
  if m.vacant i && m.adoptable p then
    if hc : m.mem.counts.cell c = none then
      let r := SharedPtr.construct m.mem p c hc
      some { mem := r.1, fresh := m.fresh.filter fun b => some b != p,
             slots := m.slots.set i (some r.2) }
    else none
  else none

/-- One operation: `none` if the language does not allow it here. -/
def Machine.apply : Op T → Option (Except Fault (Machine T))
  | .newObject a x => (m.newObject a x).map .ok
  | .construct i p c => (m.construct i p c).map .ok
  | .makeShared i a x c => ((m.newObject a x).bind fun m => m.construct i (some a) c).map .ok
  | .copyConstruct i j =>
    match m.vacant i, m.handle j with
    | true, some other => some do
      let (mem, this) ← SharedPtr.copyConstruct m.mem other
      return { m with mem := mem, slots := m.slots.set i (some this) }
    | _, _ => none
  | .moveConstruct i j =>
    match m.vacant i, m.handle j with
    | true, some other =>
      let r := SharedPtr.moveConstruct other
      some (.ok { m with slots := (m.slots.set j (some r.2)).set i (some r.1) })
    | _, _ => none
  | .copyAssign i j =>
    match m.handle i, m.handle j with
    | some this, some other =>
      if i = j then some (.ok m)
      else some do
        let (mem, this) ← SharedPtr.copyAssign m.mem this other
        return { m with mem := mem, slots := m.slots.set i (some this) }
    | _, _ => none
  | .moveAssign i j =>
    match m.handle i, m.handle j with
    | some this, some other =>
      if i = j then some (.ok m)
      else some do
        let (mem, this, other) ← SharedPtr.moveAssign m.mem this other
        return { m with mem := mem, slots := (m.slots.set j (some other)).set i (some this) }
    | _, _ => none
  | .destroy i =>
    match m.handle i with
    | some this => some do
      let mem ← SharedPtr.destroy m.mem this
      return { m with mem := mem, slots := m.slots.set i none }
    | none => none
  | .reset i =>
    match m.handle i with
    | some this => some do
      let (mem, this) ← SharedPtr.reset m.mem this
      return { m with mem := mem, slots := m.slots.set i (some this) }
    | none => none

/-- A program state; nothing follows a fault. -/
abbrev State (T : Type) := Except Fault (Machine T)

def step : State T → Op T → Option (State T)
  | .error _, _ => none
  | .ok m, op => m.apply op

/-- `n` handle variables, none of them constructed. -/
def init (T : Type) (n : Nat) : State T := .ok ⟨⟨.empty, .empty⟩, [], List.replicate n none⟩

end CppBackend.SharedPtr
