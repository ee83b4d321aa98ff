import CppBackend.Library.Descriptors
import CppBackend.Library.Transition

/-!
# Objects that own a socket

Model of the class `UDPClient` in `Cpp_WebPrograming/UDP_Client.cpp`, for a program that constructs,
initialises, uses, moves and destroys any number of objects.  Its member `client_fd` is a number, -1 is
`none`.  The defaulted move constructor copies the number; there is no move assignment, since two other
members are `const`.  A function that throws leaves its object alive.

`socket` returns any number that is not open.  `closes` has, for every call of `close`, the socket that the
number referred to, if any.
-/

set_option autoImplicit false

namespace CppBackend.UdpClient

open Library.Descriptors

structure Client where
  clientFd : Option Nat
  deriving DecidableEq, Repr

structure Program where
  /-- The objects; nothing where none is alive. -/
  clients : Nat → Option Client
  table : Table
  closes : List (Option Nat)

variable (s : Program)

/-- `close(fd)`. -/
def Program.close (fd : Nat) : Program :=
  { s with table := s.table.close fd, closes := s.closes ++ [s.table.conn fd] }

/-- The object `i` becomes `c`, or comes to its end. -/
def Program.put (i : Nat) (c : Option Client) : Program :=
  { s with clients := Function.update s.clients i c }

/-- `error(msg, close_client)`, called on the object `i`, up to its `throw`. -/
def Program.error (i : Nat) (c : Client) (closeClient : Bool) : Program :=
  match c.clientFd with
  | some fd => if closeClient then (s.close fd).put i (some ⟨none⟩) else s
  | none => s

/-- `~UDPClient`. -/
def Program.destroy (i : Nat) (c : Client) : Program :=
  match c.clientFd with
  | some fd => (s.close fd).put i none
  | none => s.put i none

inductive Action where
  | construct (i : Nat)
  /-- `init`, when `socket` returns the number, or -1. -/
  | init (i : Nat) (fd : Option Nat)
  /-- `send_and_receive`, when all calls in it succeed, or one of them fails. -/
  | sendAndReceive (i : Nat) (ok : Bool)
  /-- The object `j` is constructed by moving from `i`. -/
  | move (i j : Nat)
  | destroy (i : Nat)
  deriving DecidableEq, Repr

/-- One operation of the program. -/
def step (s : Program) : Action → Option Program
  | .construct i =>
    match s.clients i with
    | none => some (s.put i (some ⟨none⟩))
    | some _ => none
  | .init i fd =>
    match s.clients i, fd with
    | some _, none => some ((s.put i (some ⟨none⟩)).error i ⟨none⟩ true)
    | some _, some fd =>
      if s.table.conn fd = none then
        some { s.put i (some ⟨some fd⟩) with table := s.table.accept fd }
      else none
    | none, _ => none
  | .sendAndReceive i ok =>
    match s.clients i with
    | some c =>
      match c.clientFd with
      | none => some (s.error i c false)
      | some _ => if ok then some s else some (s.error i c true)
    | none => none
  | .move i j =>
    match s.clients i, s.clients j with
    | some c, none => some (s.put j (some c))
    | _, _ => none
  | .destroy i =>
    match s.clients i with
    | some c => some (s.destroy i c)
    | none => none

/-- No object yet. -/
def init : Program := ⟨fun _ => none, .empty, []⟩

end CppBackend.UdpClient
