import CppBackend.Library.CString
import CppBackend.Library.Transition

/-!
# Clients and a server over datagrams

Model of `Cpp_WebPrograming/UDP_Server.cpp` (`init` done, `start_communicate`, `send_msg`, `stop`) and of any
number of processes that run `main` of `Cpp_WebPrograming/UDP_Client.cpp` (`init` done, the loop with
`send_and_receive`), each with a port of its own, which nobody gets when the client has left.

The network has datagrams under way in any order; it may lose them and deliver them twice.  `sendto` puts
one datagram there, `recvfrom` takes one that is addressed to the socket and drops what is behind the limit;
each may fail.  A client waits for a response as long as it takes.

`sent`, `printed` and `received` have what is written behind `"[Info] Sent message to server: "`, behind
`"[Info] Received response from server: "`, and behind `"[Client …] Message: "` with the number of the client.
-/

set_option autoImplicit false

namespace CppBackend.UdpEcho

open Library.CString

/-- `"Server received your message: " + recv_msg`. -/
def response (recvMsg : List UInt8) : List UInt8 :=
  "Server received your message: ".toUTF8.data.toList ++ recvMsg

def quit : List UInt8 := "quit".toUTF8.data.toList

inductive ClientPc where
  /-- About to read a line. -/
  | enter
  /-- In `send_and_receive`, about to call `sendto`. -/
  | send (msg : List UInt8)
  /-- In `send_and_receive`, waiting in `recvfrom`. -/
  | recv
  /-- `main` has returned. -/
  | left
  /-- `error` has closed the socket and thrown. -/
  | failed
  deriving DecidableEq, Repr

structure Client where
  pc : ClientPc
  /-- The lines of the input that have not been read. -/
  input : List (List UInt8)
  sent : List (List UInt8)
  printed : List (List UInt8)
  deriving DecidableEq, Repr

inductive ServerPc where
  /-- About to test `is_running`. -/
  | top
  | recv
  /-- In `send_msg`, for the client with this number. -/
  | send (client : Nat) (msg : List UInt8)
  /-- Behind the loop. -/
  | left
  /-- `error` has thrown. -/
  | failed
  deriving DecidableEq, Repr

structure Server where
  pc : ServerPc
  isRunning : Bool
  buffer : List UInt8
  received : List (Nat × List UInt8)
  deriving DecidableEq, Repr

inductive Datagram where
  /-- To the server, from the client with this number. -/
  | request (client : Nat) (payload : List UInt8)
  /-- To the client with this number. -/
  | reply (client : Nat) (payload : List UInt8)
  deriving DecidableEq, Repr

structure World where
  clients : List Client
  server : Server
  network : List Datagram
  deriving DecidableEq, Repr

inductive Action where
  /-- `std::getline(std::cin, input_msg)` and the test for `"quit"`, by the client `i`. -/
  | enter (i : Nat)
  /-- `sendto` succeeds, or returns -1. -/
  | clientSend (i : Nat) (ok : Bool)
  /-- `recvfrom` takes the datagram at place `k`. -/
  | clientRecv (i k : Nat)
  | clientRecvFails (i : Nat)
  /-- `while (is_running.load())`. -/
  | serverTest
  | serverRecv (k : Nat)
  /-- `recvfrom` returns 0 behind `shutdown`. -/
  | serverRecvShut
  /-- `recvfrom` returns -1; `eintr` says whether `errno == EINTR`. -/
  | serverRecvFails (eintr : Bool)
  | serverSend (ok : Bool)
  /-- `stop()`, in a handler or another thread. -/
  | stop
  | lose (k : Nat)
  | duplicate (k : Nat)
  deriving DecidableEq, Repr

variable (s : World)

/-- The client `i` becomes `c`. -/
def World.put (i : Nat) (c : Client) : World := { s with clients := s.clients.set i c }

/-- The loop of `main`, up to `send_and_receive`. -/
def World.enter (i : Nat) (c : Client) : World :=
  match c.input with
  | [] => s.put i { c with pc := .left }
  | inputMsg :: input =>
    s.put i { c with pc := if inputMsg = quit then .left else .send inputMsg, input := input }

/-- `sendto` in `send_and_receive`. -/
def World.clientSend (i : Nat) (c : Client) (msg : List UInt8) (ok : Bool) : World :=
  if ok then
    { s.put i { c with pc := .recv, sent := c.sent ++ [msg] } with network := s.network ++ [.request i msg] }
  else s.put i { c with pc := .failed }

/-- The end of `send_and_receive`, for a datagram with this payload. -/
def World.clientRecv (i k : Nat) (c : Client) (payload : List UInt8) : World :=
  { s.put i { c with
      pc := .enter
      printed := c.printed ++ [text 0 (fill 0 (blank 0 1024) (payload.take (limit 1024)))] } with
    network := s.network.eraseIdx k }

/-- One pass of the loop of `start_communicate` behind `recvfrom`, up to `send_msg`. -/
def Server.receive (v : Server) (client : Nat) (payload : List UInt8) : Server :=
  if payload = [] then { v with pc := .top }
  else
    let buffer := fill 0 v.buffer (payload.take (limit 1024))
    let recvMsg := text 0 buffer
    { v with
      pc := .send client (response recvMsg)
      buffer := buffer
      received := v.received ++ [(client, recvMsg)] }

/-- `recv_len == -1`. -/
def Server.receiveFails (v : Server) (eintr : Bool) : Server :=
  if eintr && v.isRunning then { v with pc := .top, buffer := blank 0 1024 } else { v with pc := .failed }

/-- `send_msg`, and the `memset` behind it. -/
def World.serverSend (client : Nat) (msg : List UInt8) (ok : Bool) : World :=
  { s with
    server := { s.server with pc := .top, buffer := blank 0 1024 }
    network := if ok then s.network ++ [.reply client msg] else s.network }

/-- One step of a client, of the server or of the network. -/
def step (s : World) : Action → Option World
  | .enter i =>
    match s.clients[i]? with
    | some c => if c.pc = .enter then some (s.enter i c) else none
    | none => none
  | .clientSend i ok =>
    match s.clients[i]? with
    | some c =>
      match c.pc with
      | .send msg => some (s.clientSend i c msg ok)
      | _ => none
    | none => none
  | .clientRecv i k =>
    match s.clients[i]?, s.network[k]? with
    | some c, some (.reply j payload) =>
      if c.pc = .recv ∧ j = i then some (s.clientRecv i k c payload) else none
    | _, _ => none
  | .clientRecvFails i =>
    match s.clients[i]? with
    | some c => if c.pc = .recv then some (s.put i { c with pc := .failed }) else none
    | none => none
  | .serverTest =>
    if s.server.pc = .top then
      some { s with server := { s.server with pc := if s.server.isRunning then .recv else .left } }
    else none
  | .serverRecv k =>
    match s.network[k]? with
    | some (.request i payload) =>
      if s.server.pc = .recv then
        some { s with server := s.server.receive i payload, network := s.network.eraseIdx k }
      else none
    | _ => none
  | .serverRecvShut =>
    if s.server.pc = .recv ∧ s.server.isRunning = false then
      some { s with server := { s.server with pc := .top } }
    else none
  | .serverRecvFails eintr =>
    if s.server.pc = .recv then some { s with server := s.server.receiveFails eintr } else none
  | .serverSend ok =>
    match s.server.pc with
    | .send client msg => some (s.serverSend client msg ok)
    | _ => none
  | .stop => some { s with server := { s.server with isRunning := false } }
  | .lose k => if k < s.network.length then some { s with network := s.network.eraseIdx k } else none
  | .duplicate k =>
    match s.network[k]? with
    | some d => some { s with network := s.network ++ [d] }
    | none => none

/-- A client for each list of lines, and the server, all initialised. -/
def init (inputs : List (List (List UInt8))) : World :=
  ⟨inputs.map fun input => ⟨.enter, input, [], []⟩, ⟨.top, true, blank 0 1024, []⟩, []⟩

end CppBackend.UdpEcho
