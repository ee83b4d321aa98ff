import CppBackend.Library.CString

/-!
# The handler of the edge-triggered server

Model of `client_communicate` in `Cpp_WebPrograming/epollthread_tpet.cpp`, for one call.  What `recv`
returns is a list of chunks and then 0 or -1; only -1 sets `errno`.  The handler either closes the
descriptor, or submits a task that sends the response.  What it writes to the terminal is left out, and
so is `is_running`, which it looks at only for that.
-/

set_option autoImplicit false

namespace CppBackend.EpollThreadTpet

open Library.CString

/-- What `recv` returns after the last chunk. -/
inductive Last where
  /-- 0. -/
  | closed
  /-- -1, with this `errno`. -/
  | failed (errno : Int)
  deriving DecidableEq, Repr

/-- `EAGAIN` on Linux. -/
def eagain : Int := 11

/-- The value of `msg_len` behind the loop. -/
def Last.msgLen : Last → Int
  | .closed => 0
  | .failed _ => -1

/-- `errno` behind the loop. -/
def Last.errno (before : Int) : Last → Int
  | .closed => before
  | .failed errno => errno

structure Vars where
  buffer : List UInt8
  recvMsg : List UInt8

/-- The body of the loop, when `recv` has stored the chunk in the buffer. -/
def Vars.receive (v : Vars) (chunk : List UInt8) : Vars :=
  let buffer := fill 0 v.buffer chunk
  ⟨buffer, v.recvMsg ++ text 0 buffer⟩

/-- `char buffer[1024]{}; std::string recv_msg = "";` -/
def Vars.init : Vars := ⟨List.replicate 1024 0, []⟩

def emptyInput : List UInt8 := "[EMPTY INPUT]".toUTF8.data.toList

/-- `"Server received message : " + recv_msg`. -/
def response (recvMsg : List UInt8) : List UInt8 := "Server received message : ".toUTF8.data.toList ++ recvMsg

inductive Answer where
  /-- `close_fd(fd)`. -/
  | closed
  | submitted (response : List UInt8)
  deriving DecidableEq, Repr

/-- `client_communicate`, when `errno` is `before` at the call. -/
def clientCommunicate (before : Int) (chunks : List (List UInt8)) (last : Last) : Answer :=
  let v := chunks.foldl Vars.receive .init
  let recvMsg := if v.recvMsg.isEmpty then emptyInput else v.recvMsg
  if (last.msgLen ≤ 0 ∧ last.errno before ≠ eagain) ∨ recvMsg = emptyInput then .closed
  else .submitted (response recvMsg)

/-- What `recv(fd, buffer, sizeof(buffer) - 1, 0)` may return before the end. -/
def Chunks (chunks : List (List UInt8)) : Prop := ∀ chunk ∈ chunks, chunk ≠ [] ∧ chunk.length ≤ 1023

instance (chunks : List (List UInt8)) : Decidable (Chunks chunks) :=
  inferInstanceAs (Decidable (∀ chunk ∈ chunks, _))

end CppBackend.EpollThreadTpet
