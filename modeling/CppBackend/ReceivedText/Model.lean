import CppBackend.Library.CString

/-!
# A received message as text

Two programs call `recv` with the whole of a 1024-byte buffer and then make a `std::string` of the
buffer: `Connection::handleRead` of `Cpp_WebPrograming/reactor_server.cpp`, whose buffer is not initialised,
and the loop of `main` of `Cpp_WebPrograming/TCP_ServerCommunicate.cpp`, whose buffer is zero before
each call.  The search for the terminator does not know where the buffer ends, so the memory behind
the buffer is part of the model.
-/

set_option autoImplicit false

namespace CppBackend.ReceivedText

open Library.CString Library.Loop

def utf8 (s : String) : List UInt8 := s.toUTF8.data.toList

/-- What a call of `recv` does. -/
inductive Recv where
  | stored (got : List UInt8)
  /-- 0. -/
  | closed
  /-- -1, with the text of the error. -/
  | failed (error : String)
  deriving DecidableEq, Repr

/-- The bytes that the call stored. -/
def Recv.got : Recv → List UInt8
  | .stored got => got
  | .closed => []
  | .failed _ => []

/-- What `recv` may store in 1024 bytes. -/
def Recv.Fits : Recv → Prop
  | .stored got => 1 ≤ got.length ∧ got.length ≤ 1024
  | _ => True

/-- The memory from the address of the buffer on, when the call has stored `got` at its beginning:
`before` was in the buffer, `behind` is what follows it. -/
def memory (got before : List UInt8) (behind : Nat → UInt8) (i : Nat) : UInt8 :=
  ((got ++ before.drop got.length)[i]?).getD (behind i)

namespace ReactorServer

/-- What becomes of the connection. -/
inductive Handled where
  /-- `removeChannel`, `delete this`. -/
  | deleted
  /-- The task that sends `msg` back. -/
  | submitted (msg : List UInt8)
  deriving DecidableEq, Repr

/-- `Connection::handleRead`: the line that it prints, and what becomes of the connection.  The text is
made before the result of `recv` is looked at. -/
def handleRead (fd : Nat) (recv : Recv) (before : List UInt8) (behind : Nat → UInt8) (bound : Nat) :
    Option (List UInt8 × Handled) :=
  match string 0 (memory recv.got before behind) bound with
  | none => none
  | some temp =>
    let line := utf8 ("[Info] Message recieved from connection " ++ toString fd ++ ": ") ++ temp
    match recv with
    | .stored got => some (line, .submitted got)
    | _ => some (line, .deleted)

end ReactorServer

namespace TCPServerCommunicate

/-- `char buffer[1024] = {0}`. -/
def zeros : List UInt8 := List.replicate 1024 0

/-- What the program has printed, and what it has sent. -/
structure Shown where
  cout : List (List UInt8)
  cerr : List (List UInt8)
  sent : List (List UInt8)
  deriving DecidableEq, Repr

/-- One pass of the loop of `main`; both texts are made of the same buffer. -/
def mainLoop (behind : Nat → UInt8) (bound : Nat) (recv : Recv) (s : Shown) :
    Option (Pass Shown Shown) :=
  match recv with
  | .stored got =>
    match string 0 (memory got zeros behind) bound with
    | none => none
    | some text =>
      some (.again { s with
        cout := s.cout ++ [utf8 "Client says: " ++ text]
        sent := s.sent ++ [utf8 "Message received: " ++ text] })
  | .closed => some (.done { s with cout := s.cout ++ [utf8 "Client disconnected."] })
  | .failed error =>
    some (.done { s with cerr := s.cerr ++ [utf8 ("Failed to receive data!: " ++ error)] })

end TCPServerCommunicate

end CppBackend.ReceivedText
