import CppBackend.Library.Descriptors
import CppBackend.Library.Transition

/-!
# One thread per client

Model of `Cpp_WebPrograming/TCP_MultiThreadServer.cpp`: `accept_clients_loop` accepts connections and
starts a detached thread for each, which runs `client_communicate` on the descriptor number until a
`recv` returns 0 or fails, or a `send` fails, and then closes the number.

The kernel hands out any number that is not open; a call on a number that is not open fails.  The
log `ops` records every call that a handler makes on its number: the connection that the handler
was started for, and the one that the call was applied to.
-/

set_option autoImplicit false

namespace CppBackend.MultiThread

open Library.Descriptors

/-- `"Message received : " + std::string(buffer)`; the string ends at the first NUL. -/
def response (chunk : List UInt8) : List UInt8 :=
  "Message received : ".toUTF8.data.toList ++ chunk.takeWhile (· ≠ 0)

/-- Program points of `client_communicate`. -/
inductive HandlerPc where
  | recv
  | send (chunk : List UInt8)
  /-- Behind the loop. -/
  | close
  | ended
  deriving DecidableEq, Repr

/-- A thread in `client_communicate(client_fd, …)`, and the connection that was accepted under the
number. -/
structure Handler where
  clientFd : Nat
  conn : Nat
  pc : HandlerPc
  deriving DecidableEq, Repr

/-- Program points of `accept_clients_loop`. -/
inductive Acceptor where
  | accept
  /-- About to start the thread for `client_fd`. -/
  | start (clientFd conn : Nat)
  deriving DecidableEq, Repr

inductive Call where
  | recv
  | send
  | close
  deriving DecidableEq, Repr

/-- A call on a descriptor: by the handler of `conn`, applied to `hit`. -/
structure Op where
  call : Call
  conn : Nat
  hit : Option Nat
  deriving DecidableEq, Repr

structure Shared where
  table : Table
  /-- The chunks received on each connection. -/
  received : Nat → List (List UInt8)
  /-- The responses sent on each connection. -/
  sent : Nat → List (List UInt8)
  /-- How often each connection was closed. -/
  closes : Nat → Nat
  ops : List Op

structure Server where
  shared : Shared
  main : Acceptor
  handlers : List Handler

/-- What the kernel does with a call of `recv` or `send`. -/
inductive Io where
  /-- `recv` returns the bytes; `send` takes (some of) them. -/
  | data (chunk : List UInt8)
  | zero
  | error
  deriving DecidableEq, Repr

/-- `client_communicate`, one step. -/
def communicate (sh : Shared) (h : Handler) (io : Io) : Option (Shared × Handler) :=
  match h.pc, io with
  | .recv, .data chunk =>
    match sh.table.conn h.clientFd with
    | none => none
    | some c =>
      if 0 < chunk.length ∧ chunk.length ≤ 1023 then
        some ({ sh with received := Function.update sh.received c (sh.received c ++ [chunk])
                        ops := sh.ops ++ [⟨.recv, h.conn, some c⟩] }, { h with pc := .send chunk })
      else none
  | .recv, _ =>
    some ({ sh with ops := sh.ops ++ [⟨.recv, h.conn, sh.table.conn h.clientFd⟩] },
      { h with pc := .close })
  | .send _, .error =>
    some ({ sh with ops := sh.ops ++ [⟨.send, h.conn, sh.table.conn h.clientFd⟩] },
      { h with pc := .close })
  | .send chunk, _ =>
    match sh.table.conn h.clientFd with
    | none => none
    | some c =>
      some ({ sh with sent := Function.update sh.sent c (sh.sent c ++ [response chunk])
                      ops := sh.ops ++ [⟨.send, h.conn, some c⟩] }, { h with pc := .recv })
  | .close, _ =>
    some ({ sh with
      table := sh.table.close h.clientFd
      closes := match sh.table.conn h.clientFd with
        | none => sh.closes
        | some c => Function.update sh.closes c (sh.closes c + 1)
      ops := sh.ops ++ [⟨.close, h.conn, sh.table.conn h.clientFd⟩] }, { h with pc := .ended })
  | .ended, _ => none

inductive Action where
  /-- `accept` returns the number, or -1. -/
  | accept (clientFd : Option Nat)
  /-- `std::thread client_thread(…); client_thread.detach();` -/
  | start
  | handler (i : Nat) (io : Io)
  deriving DecidableEq, Repr

/-- One step of the accept loop or of a handler. -/
def step (s : Server) : Action → Option Server
  | .accept clientFd =>
    match s.main, clientFd with
    | .accept, none => some s
    | .accept, some fd =>
      match s.shared.table.conn fd with
      | none =>
        some { s with shared := { s.shared with table := s.shared.table.accept fd }
                      main := .start fd s.shared.table.next }
      | some _ => none
    | .start _ _, _ => none
  | .start =>
    match s.main with
    | .accept => none
    | .start fd c => some { s with main := .accept, handlers := s.handlers ++ [⟨fd, c, .recv⟩] }
  | .handler i io =>
    match s.handlers[i]? with
    | none => none
    | some h => (communicate s.shared h io).map fun r =>
        { s with shared := r.1, handlers := s.handlers.set i r.2 }

def init : Server := ⟨⟨.empty, fun _ => [], fun _ => [], fun _ => 0, []⟩, .accept, []⟩

end CppBackend.MultiThread
