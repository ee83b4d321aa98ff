import CppBackend.Library.Loop
import CppBackend.Library.Transition

/-!
# A subject with weakly held observers

Model of the class `Subject` of `Cpp_Design_Mode/ObserverMode.cpp`.  A `weak_ptr` in the vector
`observers` is the number of the observer that it was made from; numbers are given out in order of creation,
so the number of a destroyed observer does not come back.  `lock` is null when the observer is
destroyed.  The two loops move an iterator, here an index, over the vector that they erase from.

The calls of a history are made one after another, and `update` does not call the subject.  Whoever passes
a `shared_ptr` holds the observer during the call.
-/

set_option autoImplicit false

namespace CppBackend.ObserverMode

open Library.Loop

/-- An observer; `weak_ptr`s to it compare by this number. -/
abbrev Observer := Nat

namespace Subject

/-- `attach`; `none` is a null pointer. -/
def attach (observers : List Observer) : Option Observer → List Observer
  | none => observers
  | some obs => observers ++ [obs]

/-- The vector and the iterator of the loop of `detach`. -/
structure Detaching where
  observers : List Observer
  it : Nat

/-- One pass of the loop of `detach`. -/
def detachStep (lock : Observer → Bool) (obs : Option Observer) (d : Detaching) :
    Pass Detaching (List Observer) :=
  match d.observers[d.it]? with
  | none => .done d.observers
  | some spt =>
    if lock spt ∧ some spt = obs then .done (d.observers.eraseIdx d.it)
    else .again { d with it := d.it + 1 }

def detach (lock : Observer → Bool) (observers : List Observer) (obs : Option Observer) :
    Option (List Observer) :=
  run (detachStep lock obs) (observers.length + 1) ⟨observers, 0⟩

/-- The vector and the iterator of the loop of `notify`, and the observers whose `update` has been called. -/
structure Notifying where
  observers : List Observer
  it : Nat
  updated : List Observer

/-- One pass of the loop of `notify`. -/
def notifyStep (lock : Observer → Bool) (d : Notifying) :
    Pass Notifying (List Observer × List Observer) :=
  match d.observers[d.it]? with
  | none => .done (d.observers, d.updated)
  | some spt =>
    if lock spt then .again ⟨d.observers, d.it + 1, d.updated ++ [spt]⟩
    else .again { d with observers := d.observers.eraseIdx d.it }

/-- The vector behind the call, and the observers that were updated. -/
def notify (lock : Observer → Bool) (observers : List Observer) :
    Option (List Observer × List Observer) :=
  run (notifyStep lock) (observers.length + 1) ⟨observers, 0, []⟩

end Subject

/-! ## Histories -/

/-- The subject, the observers, and every call of `update` so far. -/
structure World where
  observers : List Observer
  alive : List Observer
  /-- The number of the next observer. -/
  next : Nat
  received : List (Observer × String)
  deriving DecidableEq, Repr

inductive Call where
  | create
  /-- The last `shared_ptr` to the observer goes away. -/
  | destroy (obs : Observer)
  | attach (obs : Option Observer)
  | detach (obs : Option Observer)
  | notify (message : String)
  deriving DecidableEq, Repr

def World.init : World := ⟨[], [], 0, []⟩

/-- `weak_ptr::lock`. -/
def World.lock (w : World) (obs : Observer) : Bool := w.alive.contains obs

/-- A pointer that can be passed: null, or to an observer that is alive. -/
def World.valid (w : World) : Option Observer → Bool
  | none => true
  | some obs => w.lock obs

/-- One call of a history. -/
def step (w : World) : Call → Option World
  | .create => some { w with alive := w.alive ++ [w.next], next := w.next + 1 }
  | .destroy obs =>
    if w.lock obs then some { w with alive := w.alive.filter (· ≠ obs) } else none
  | .attach obs =>
    if w.valid obs then some { w with observers := Subject.attach w.observers obs } else none
  | .detach obs =>
    if w.valid obs then
      match Subject.detach w.lock w.observers obs with
      | none => none
      | some observers => some { w with observers := observers }
    else none
  | .notify message =>
    match Subject.notify w.lock w.observers with
    | none => none
    | some (observers, updated) =>
      some { w with observers := observers, received := w.received ++ updated.map (·, message) }

end CppBackend.ObserverMode
