import CppBackend.Library.Loop
import CppBackend.Library.Bytes
import CppBackend.Library.Stream

/-!
# Length-prefixed packets

Model of `send_packet`, `recv_packet` and the loop of `main` of `Cpp_WebPrograming/package_client.cpp`
(`Client`) and `package_sticking.cpp` (`Server`), over the two ends of a byte stream.

The two receivers share the loop on the payload (`bodyStep`) and differ in the size of the
buffer, in the error text, and in the header: the client reads the four bytes of the length in
a loop and refuses lengths above `1024 * 1024`; the server calls `recv` once.  The client sends
the payload in a loop; the server calls `send` once for it.
-/

set_option autoImplicit false

namespace CppBackend.Packet

open Library.Loop Library.Bytes Library.Stream

abbrev Socket := Reader UInt8

/-- `ntohl(data_len)`, for a `data_len` that was 0 before the bytes `got` were read into it. -/
def ntohl (got : List UInt8) : UInt32 :=
  UInt32.ofNat (ofBytes (got ++ List.replicate (4 - got.length) 0))

/-- The bytes of `htonl(n)`. -/
def htonl (n : UInt32) : List UInt8 := toBytes 4 n.toNat

/-! ## Receiving -/

/-- How a call of `recv_packet` ends: its result, `out_data`, the socket, and the lines printed to
`std::cerr`. -/
structure Received where
  ok : Bool
  outData : List UInt8
  sock : Socket
  cerr : List String

/-- The variables of the loop on the payload. -/
structure Body where
  outData : List UInt8
  totalRead : UInt32
  sock : Socket

/-- One pass of `while (total_read < data_len)`, with a buffer of `size` bytes. -/
def bodyStep (size : UInt32) (report : String → List String) (dataLen : UInt32) (b : Body) :
    Pass Body Received :=
  if b.totalRead < dataLen then
    match b.sock.recv (min size (dataLen - b.totalRead)).toNat with
    | (.error e, sock) => .done ⟨false, b.outData, sock, report e⟩
    | (.ok [], sock) => .done ⟨false, b.outData, sock, []⟩
    | (.ok got, sock) =>
      .again ⟨b.outData ++ got, b.totalRead + UInt32.ofNat got.length, sock⟩
  else .done ⟨true, b.outData, b.sock, []⟩

/-- The payload of `dataLen` bytes.  Every pass receives at least one byte, so there are at most
as many as bytes left. -/
def recvBody (size : UInt32) (report : String → List String) (dataLen : UInt32) (sock : Socket) :
    Option Received :=
  run (bodyStep size report dataLen) (sock.rest.length + 1) ⟨[], 0, sock⟩

namespace Client

def headerError (e : String) : List String := ["读取长度前缀失败：" ++ e]

def bodyError (e : String) : List String := ["读取数据失败：" ++ e]

/-- The variables of the loop on the length: the bytes of `data_len` before `len_buf`, and
`len_remaining`. -/
structure Header where
  lenBuf : List UInt8
  lenRemaining : UInt32
  sock : Socket

/-- One pass of `while (len_remaining > 0)`; the loop ends with a failed call or with the
bytes of `data_len`. -/
def headerStep (h : Header) : Pass Header (Except Received (List UInt8 × Socket)) :=
  if 0 < h.lenRemaining then
    match h.sock.recv h.lenRemaining.toNat with
    | (.error e, sock) => .done (.error ⟨false, [], sock, headerError e⟩)
    | (.ok [], sock) => .done (.error ⟨false, [], sock, []⟩)
    | (.ok got, sock) =>
      .again ⟨h.lenBuf ++ got, h.lenRemaining - UInt32.ofNat got.length, sock⟩
  else .done (.ok (h.lenBuf, h.sock))

def recvHeader (sock : Socket) : Option (Except Received (List UInt8 × Socket)) :=
  run headerStep (sock.rest.length + 1) ⟨[], 4, sock⟩

def recvPacket (sock : Socket) : Option Received :=
  match recvHeader sock with
  | none => none
  | some (.error r) => some r
  | some (.ok (lenBuf, sock)) =>
    if ntohl lenBuf > 1024 * 1024 then some ⟨false, [], sock, []⟩
    else recvBody 1024 bodyError (ntohl lenBuf) sock

end Client

namespace Server

/-- A single call of `recv` reads the length. -/
def recvPacket (sock : Socket) : Option Received :=
  match sock.recv 4 with
  | (.error _, sock) => some ⟨false, [], sock, []⟩
  | (.ok [], sock) => some ⟨false, [], sock, []⟩
  | (.ok got, sock) => recvBody 4096 (fun _ => []) (ntohl got) sock

end Server

/-! ## Sending -/

/-- How a call of `send_packet` ends. -/
structure Sent where
  ok : Bool
  sock : Writer UInt8
  cerr : List String

namespace Client

/-- The variables of the loop of `send_packet`: the bytes from `data_ptr` on, and `remaining`. -/
structure Unsent where
  dataPtr : List UInt8
  remaining : UInt32
  sock : Writer UInt8

/-- One pass of `while (remaining > 0)`. -/
def sendStep (u : Unsent) : Pass Unsent Sent :=
  if 0 < u.remaining then
    match u.sock.send (u.dataPtr.take u.remaining.toNat) with
    | (none, sock) => .done ⟨false, sock, ["发送数据失败：" ++ sock.errno]⟩
    | (some 0, sock) => .done ⟨false, sock, ["发送数据失败：" ++ sock.errno]⟩
    | (some k, sock) => .again ⟨u.dataPtr.drop k, u.remaining - UInt32.ofNat k, sock⟩
  else .done ⟨true, u.sock, []⟩

def sendPacket (sock : Writer UInt8) (data : List UInt8) : Option Sent :=
  match sock.send (htonl (UInt32.ofNat data.length)) with
  | (some 4, sock) => run sendStep (data.length + 1) ⟨data, UInt32.ofNat data.length, sock⟩
  | (_, sock) => some ⟨false, sock, ["发送长度前缀失败：" ++ sock.errno]⟩

end Client

namespace Server

/-- One call of `send` for the length and one for the data. -/
def sendPacket (sock : Writer UInt8) (data : List UInt8) : Sent :=
  match sock.send (htonl (UInt32.ofNat data.length)) with
  | (some 4, sock) =>
    match sock.send data with
    | (some k, sock) =>
      if k = data.length then ⟨true, sock, []⟩ else ⟨false, sock, ["发送数据失败"]⟩
    | (none, sock) => ⟨false, sock, ["发送数据失败"]⟩
  | (_, sock) => ⟨false, sock, ["发送长度前缀失败"]⟩

/-- `"服务器已收到：" + recv_data`. -/
def reply (data : List UInt8) : List UInt8 := "服务器已收到：".toUTF8.data.toList ++ data

end Server

/-! ## The two programs -/

/-- A call of `send_packet` from `main`: its argument, the bytes it wrote, and its result. -/
structure Call where
  data : List UInt8
  wrote : List UInt8
  ok : Bool
  deriving DecidableEq, Repr

/-- The two ends of the connection, and the calls of `send_packet` so far. -/
structure Session where
  sock : Writer UInt8
  conn : Socket
  calls : List Call

/-- The session behind a call of `send_packet`. -/
def Session.called (s : Session) (data : List UInt8) (r : Sent) : Session :=
  ⟨r.sock, s.conn, s.calls ++ [⟨data, r.sock.sent.drop s.sock.sent.length, r.ok⟩]⟩

namespace Client

/-- One pass of the loop of `main`: `input i` is the line that the `i`-th `getline` leaves in
`input`; each pass reads one. -/
def mainLoop (input : Nat → List UInt8) (s : Session) : Pass Session Session :=
  if input s.calls.length = "exit".toUTF8.data.toList then .done s
  else
    match sendPacket s.sock (input s.calls.length) with
    | none => .done s
    | some r =>
      if r.ok then
        match recvPacket s.conn with
        | none => .done (s.called (input s.calls.length) r)
        | some q =>
          if q.ok then .again { s.called (input s.calls.length) r with conn := q.sock }
          else .done { s.called (input s.calls.length) r with conn := q.sock }
      else .done (s.called (input s.calls.length) r)

end Client

namespace Server

/-- One pass of the loop of `main`.  The result of `send_packet` is not looked at. -/
def mainLoop (s : Session) : Pass Session Session :=
  match recvPacket s.conn with
  | none => .done s
  | some q =>
    if q.ok then
      .again { s.called (reply q.outData) (sendPacket s.sock (reply q.outData)) with conn := q.sock }
    else .done { s with conn := q.sock }

end Server

end CppBackend.Packet
