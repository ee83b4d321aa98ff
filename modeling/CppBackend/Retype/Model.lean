import CppBackend.Library.CString
import CppBackend.Library.Transition

/-!
# A client and a server on one connection

Model of the two functions `communicate` in `Cpp_WebPrograming/ClientRetype.cpp` and
`Cpp_WebPrograming/ServerRetype.cpp`, connected to each other.  The connection is a stream of bytes in each
direction, without any mark between messages.  `send` writes everything, and `recv` waits for some bytes
and takes all that are there, up to its limit; neither fails.

`printed` has what the client writes behind `"[Info] Received message from server : "`.  Each of the two
programs may go on at any time when it does not wait.
-/

set_option autoImplicit false

namespace CppBackend.Retype

open Library.CString

/-- `"Message received : " + std::string(buffer)`, for the text in the buffer. -/
def response (msg : List UInt8) : List UInt8 := "Message received : ".toUTF8.data.toList ++ msg

inductive ClientPc where
  /-- About to read a line. -/
  | enter
  | recv
  /-- Behind the loop; the socket is closed. -/
  | left
  deriving DecidableEq, Repr

inductive ServerPc where
  | recv
  | send (response : List UInt8)
  /-- Behind the loop; the socket is closed. -/
  | left
  deriving DecidableEq, Repr

structure Pair where
  clientPc : ClientPc
  /-- The lines that the client has not read; behind them, `getline` leaves an empty message. -/
  input : List (List UInt8)
  recvBuffer : List UInt8
  printed : List (List UInt8)
  serverPc : ServerPc
  buffer : List UInt8
  toServer : List UInt8
  toClient : List UInt8
  deriving DecidableEq, Repr

inductive Action where
  /-- The client reads a line, and sends it. -/
  | clientSend
  | clientRecv
  | serverRecv
  | serverSend
  deriving DecidableEq, Repr

/-- One step of `TCPClient::communicate` or `TCPServer::communicate`. -/
def step (s : Pair) : Action → Option Pair
  | .clientSend =>
    match s.clientPc, s.input with
    | .enter, [] => some { s with clientPc := .left }
    | .enter, msg :: input =>
      if msg = [] then some { s with clientPc := .left, input := input }
      else some { s with clientPc := .recv, input := input, toServer := s.toServer ++ msg }
    | _, _ => none
  | .clientRecv =>
    match s.clientPc with
    | .recv =>
      if s.toClient ≠ [] then
        let recvBuffer := fill 0 s.recvBuffer (s.toClient.take (limit 1024))
        some { s with clientPc := .enter, printed := s.printed ++ [text 0 recvBuffer], recvBuffer := blank 0 1024
                      toClient := s.toClient.drop (limit 1024) }
      else if s.serverPc = .left then some { s with clientPc := .left }
      else none
    | _ => none
  | .serverRecv =>
    match s.serverPc with
    | .recv =>
      if s.toServer ≠ [] then
        let buffer := fill 0 s.buffer (s.toServer.take (limit 1024))
        some { s with serverPc := .send (response (text 0 buffer)), buffer := buffer
                      toServer := s.toServer.drop (limit 1024) }
      else if s.clientPc = .left then some { s with serverPc := .left }
      else none
    | _ => none
  | .serverSend =>
    match s.serverPc with
    | .send response => some { s with serverPc := .recv, toClient := s.toClient ++ response }
    | _ => none

/-- Connected, with these lines to be read. -/
def init (msgs : List (List UInt8)) : Pair := ⟨.enter, msgs, blank 0 1024, [], .recv, blank 0 1024, [], []⟩

end CppBackend.Retype
