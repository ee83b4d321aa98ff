import CppBackend.Library.Outcome
import CppBackend.SharedPtr.Model
import CppBackend.UniquePtr.Model

/-!
# Objects that own smart pointers

Model of `unique_ptr<T>` and `shared_ptr<T>` of `mysmartptr/include/smartpointer.hpp` for a `T` that
has smart pointers among its members.  Every handle has a slot, be it a variable of the program or a
member of an object, and an object is the list of the slots of its members, in the order of their
declaration.  Deleting an object destroys these handles, which may delete further objects; the
recursion takes a bound on its depth.

The lifetime of an object, or a handle, ends when its destructor begins.  An access to a handle, an
object or a counter that is not alive is a `Fault`.

The slots below `vars` are for variables, the others for members.  A program performs one operation
after the other (`step`); addresses are the allocator's choice.
-/

set_option autoImplicit false

namespace CppBackend.ObjectGraph

open Library Library.Storage

abbrev Slot := Nat

inductive Kind where
  | unique
  | shared
  deriving DecidableEq, Repr

inductive Handle where
  | unique (h : UniquePtr.Handle)
  | shared (h : SharedPtr.Handle)
  deriving DecidableEq, Repr

namespace Handle

def ptr : Handle → Option Addr
  | .unique h => h.ptr
  | .shared h => h.ptr

def sharedCount : Handle → Option Addr
  | .unique _ => none
  | .shared h => h.sharedCount

def kind : Handle → Kind
  | .unique _ => .unique
  | .shared _ => .shared

def null : Kind → Handle
  | .unique => .unique ⟨none⟩
  | .shared => .shared .null

end Handle

inductive Fault where
  | handle (i : Slot)
  | memory (f : SharedPtr.Fault)
  deriving DecidableEq, Repr

abbrev Run := Outcome Fault

def lift {α : Type} : Except SharedPtr.Fault α → Run α
  | .ok x => .ok x
  | .error f => .fault (.memory f)

structure Machine where
  heap : SharedPtr.Memory (List Slot)
  slots : List (Option Handle)

namespace Machine

variable (m : Machine)

/-- The handle in the slot `i`, if it is alive. -/
def handle (i : Slot) : Option Handle := m.slots[i]?.join

/-- The members of the object at `a`, if it is alive. -/
def members (a : Addr) : Option (List Slot) := m.heap.objects.cell a

def read (i : Slot) : Run Handle :=
  match m.handle i with
  | some h => .ok h
  | none => .fault (.handle i)

def write (i : Slot) (h : Handle) : Run Machine :=
  match m.handle i with
  | some _ => .ok { m with slots := m.slots.set i (some h) }
  | none => .fault (.handle i)

end Machine

/-! ## Destruction -/

/-- `delete ptr`: the members are destroyed, the last one first. -/
def deleteObject (destroy : Machine → Slot → Run Machine) (m : Machine) : Option Addr → Run Machine
  | none => .ok m
  | some a =>
    match m.members a with
    | none => .fault (.memory (.object a))
    | some members => do
      let heap ← lift (m.heap.deleteObject (some a))
      members.reverse.foldlM destroy { m with heap := heap }

/-- `shared_ptr::release`, with the members of `*this` as it leaves them. -/
def release (destroy : Machine → Slot → Run Machine) (m : Machine) (this : SharedPtr.Handle) :
    Run (Machine × SharedPtr.Handle) :=
  match this.sharedCount with
  | none => .ok (m, this)
  | some c => do
    let n ← lift (m.heap.readCount c)
    let heap ← lift (m.heap.writeCount c (n - 1))
    let left ← lift (heap.readCount c)
    if left = 0 then
      let m ← deleteObject destroy { m with heap := heap } this.ptr
      let heap ← lift (m.heap.deleteCount c)
      return ({ m with heap := heap }, .null)
    else return ({ m with heap := heap }, this)

/-- `~unique_ptr` and `~shared_ptr` of the handle in the slot `i`.  What they store into the handle
    that they destroy is not kept. -/
def destroy : Nat → Machine → Slot → Run Machine
  | 0, _, _ => .unfinished
  | depth + 1, m, i => do
    let this ← m.read i
    let m := { m with slots := m.slots.set i none }
    match this with
    | .unique this => deleteObject (destroy depth) m this.ptr
    | .shared this => do
      let (m, _) ← release (destroy depth) m this
      return m

/-! ## Assignment -/

/-- `ptr = other.ptr; other.ptr = nullptr`, and the same for `shared_count`. -/
def takeOver (m : Machine) (i j : Slot) : Run Machine := do
  let other ← m.read j
  let m ← m.write i other
  m.write j (.null other.kind)

/-- `ptr = other.ptr; shared_count = other.shared_count; if(shared_count) (*shared_count)++`. -/
def share (m : Machine) (i j : Slot) : Run Machine := do
  let other ← m.read j
  let m ← m.write i other
  match other with
  | .unique _ => return m
  | .shared other => do
    let (heap, _) ← lift (SharedPtr.share m.heap other)
    return { m with heap := heap }

/-- The store of `release` into the members of `*this`. -/
def releaseAt (depth : Nat) (m : Machine) (i : Slot) (this : SharedPtr.Handle) : Run Machine := do
  let (m, this) ← release (destroy depth) m this
  m.write i (.shared this)

/-- `operator=(unique_ptr&& other)`; `this` is the handle in the slot `i`. -/
def moveAssignUnique (depth : Nat) (m : Machine) (i j : Slot) (this : UniquePtr.Handle) :
    Run Machine :=
  if i = j then .ok m
  else do
    let m ← deleteObject (destroy depth) m this.ptr
    takeOver m i j

/-- `operator=(shared_ptr&& other)`. -/
def moveAssignShared (depth : Nat) (m : Machine) (i j : Slot) (this : SharedPtr.Handle) :
    Run Machine :=
  if i = j then .ok m
  else do
    let m ← releaseAt depth m i this
    takeOver m i j

/-- `operator=(const shared_ptr& other)`. -/
def copyAssign (depth : Nat) (m : Machine) (i j : Slot) (this : SharedPtr.Handle) : Run Machine :=
  if i = j then .ok m
  else do
    let m ← releaseAt depth m i this
    share m i j

/-- `unique_ptr::reset()`. -/
def resetUnique (depth : Nat) (m : Machine) (i : Slot) (this : UniquePtr.Handle) : Run Machine := do
  let m ← deleteObject (destroy depth) m this.ptr
  m.write i (.null .unique)

/-- `shared_ptr::reset()`. -/
def resetShared (depth : Nat) (m : Machine) (i : Slot) (this : SharedPtr.Handle) : Run Machine :=
  releaseAt depth m i this

/-! ## Programs -/

/-- The operations of a program on its handles, by slot. -/
inductive Op where
  /-- The constructor of a null handle. -/
  | construct (i : Slot) (k : Kind)
  /-- `make_unique<T>()`, the members of the new object being null. -/
  | makeUnique (i : Slot) (a : Addr) (members : List (Slot × Kind))
  /-- `make_shared<T>()`. -/
  | makeShared (i : Slot) (a : Addr) (members : List (Slot × Kind)) (c : Addr)
  | copyConstruct (i j : Slot)
  | moveConstruct (i j : Slot)
  | copyAssign (i j : Slot)
  | moveAssign (i j : Slot)
  | destroy (i : Slot)
  | reset (i : Slot)

variable (vars : Nat) (m : Machine)

/-- The slot `i` can be constructed in. -/
def Machine.vacant (i : Slot) : Bool := m.slots[i]? == some none

/-- Every member gets a slot of its own that is not in use. -/
def Machine.room (members : List (Slot × Kind)) : Prop :=
  (members.map Prod.fst).Nodup ∧ ∀ p ∈ members, vars ≤ p.1 ∧ m.vacant p.1 = true

instance (members : List (Slot × Kind)) : Decidable (m.room vars members) :=
  inferInstanceAs (Decidable (_ ∧ _))

/-- Construct null handles in the slots. -/
def constructAll (slots : List (Option Handle)) (members : List (Slot × Kind)) :
    List (Option Handle) :=
  members.foldl (fun slots p => slots.set p.1 (some (.null p.2))) slots

/-- `new T()`, at the address `a`. -/
def Machine.newObject (a : Addr) (members : List (Slot × Kind)) : Option Machine :=
  if ha : m.heap.objects.cell a = none then
    if m.room vars members then
      some ⟨⟨m.heap.objects.alloc a (members.map Prod.fst) ha, m.heap.counts⟩,
        constructAll m.slots members⟩
    else none
  else none

/-- A handle for a variable. -/
def Machine.construct (i : Slot) (h : Handle) : Option Machine :=
  if i < vars ∧ m.vacant i = true then some { m with slots := m.slots.set i (some h) } else none

def Machine.makeShared (i : Slot) (a c : Addr) : Option Machine :=
  if hc : m.heap.counts.cell c = none then
    let r := SharedPtr.construct m.heap (some a) c hc
    Machine.construct vars ⟨r.1, m.slots⟩ i (.shared r.2)
  else none

/-- The bound on the depth: no handle is destroyed twice. -/
def Machine.depth : Nat := m.slots.length + 1

/-- One operation: `none` if the language does not allow it here. -/
def Machine.apply : Op → Option (Run Machine)
  | .construct i k => (m.construct vars i (.null k)).map .ok
  | .makeUnique i a members =>
    ((m.newObject vars a members).bind fun m => m.construct vars i (.unique ⟨some a⟩)).map .ok
  | .makeShared i a members c =>
    ((m.newObject vars a members).bind fun m => m.makeShared vars i a c).map .ok
  | .copyConstruct i j =>
    match m.handle j with
    | some (.shared other) => (m.construct vars i (.shared other)).map fun m => do
      let (heap, _) ← lift (SharedPtr.copyConstruct m.heap other)
      return { m with heap := heap }
    | _ => none
  | .moveConstruct i j =>
    match m.handle j with
    | some other =>
      (Machine.construct vars { m with slots := m.slots.set j (some (.null other.kind)) } i other).map
        .ok
    | none => none
  | .copyAssign i j =>
    match m.handle i, m.handle j with
    | some (.shared this), some (.shared _) => some (ObjectGraph.copyAssign m.depth m i j this)
    | _, _ => none
  | .moveAssign i j =>
    match m.handle i, m.handle j with
    | some (.unique this), some (.unique _) => some (moveAssignUnique m.depth m i j this)
    | some (.shared this), some (.shared _) => some (moveAssignShared m.depth m i j this)
    | _, _ => none
  | .destroy i =>
    if i < vars ∧ (m.handle i).isSome = true then some (ObjectGraph.destroy m.depth m i) else none
  | .reset i =>
    match m.handle i with
    | some (.unique this) => some (resetUnique m.depth m i this)
    | some (.shared this) => some (resetShared m.depth m i this)
    | none => none

def step : Run Machine → Op → Option (Run Machine)
  | .ok m, op => m.apply vars op
  | _, _ => none

/-- `vars` handle variables and slots for `cells` members, none of them constructed. -/
def init (cells : Nat) : Run Machine :=
  .ok ⟨⟨.empty, .empty⟩, List.replicate (vars + cells) none⟩

end CppBackend.ObjectGraph
