import CppBackend.Packet.ClientDecode
import CppBackend.Packet.ServerDecode

/-!
# What the two ends take for a packet

The four functions do not agree on the admissible size of a packet.  The server sends anything, and
the client refuses what is longer than `1024 * 1024` bytes; the client sends any length modulo
`2^32`, and only that much of the data.  So what one end reports as sent arrives exactly if it
has at most `maxPayload` bytes (server to client, `Client.gets_iff`), or fewer than `2^32` (client
to server, `Server.gets_iff`).  The server's reply is longer than the packet it answers:
`longest_refused` is a packet whose reply is sent and not accepted.
-/

set_option autoImplicit false

namespace CppBackend.Packet

open Library.Bytes Library.Stream

/-- The next call of `recv` returns true, with `data`. -/
def Gets (recv : Socket → Option Received) (sock : Socket) (data : List UInt8) : Prop :=
  ∃ r, recv sock = some r ∧ r.ok = true ∧ r.outData = data

variable {sock : Socket} {data rest : List UInt8}

/-- **Server to client.** -/
theorem Client.gets_iff (hrel : sock.Reliable) (hs : sock.rest = packet data ++ rest) :
    Gets Client.recvPacket sock data ↔ data.length ≤ maxPayload := by
  constructor
  · rintro ⟨r, hr, hok, hdata⟩
    obtain ⟨r', hr', hspec, _⟩ := Client.recvPacket_spec sock
    rw [hr, Option.some.injEq] at hr'
    subst hr'
    obtain ⟨hframed, hall⟩ := hspec hok
    have hlen : data.length = (ntohl (sock.rest.take 4)).toNat := by
      rw [← hdata, hall]
      exact List.length_take_of_le hframed.payload
    have hlimit := UInt32.lt_iff_toNat_lt.not.mp hframed.limit
    have hmax : (1024 * 1024 : UInt32).toNat = 1048576 := by decide
    unfold maxPayload
    omega
  · intro hlen
    exact ⟨_, Client.recvPacket_packet hrel hs hlen, rfl, rfl⟩

/-- **Client to server**, when the length is delivered whole. -/
theorem Server.gets_iff (hwhole : sock.Whole) (hs : sock.rest = frame data ++ rest) :
    Gets Server.recvPacket sock data ↔ data.length < 2 ^ 32 := by
  constructor
  · rintro ⟨r, hr, hok, hdata⟩
    rw [(Server.received_data hwhole.reliable hr hok hdata).1]
    exact UInt32.toNat_lt _
  · intro hlen
    have h4 : Server.headerLen sock = 4 := by
      obtain ⟨n, hn, hle⟩ := hwhole sock.pos
      have hlong := congrArg List.length hs
      rw [List.length_append, frame_length] at hlong
      unfold Server.headerLen
      rw [hn]
      simp only
      omega
    exact ⟨_, Server.recvPacket_frame hwhole.reliable hs hlen h4, rfl, rfl⟩

/-- What the server has written when its `send_packet` returns true. -/
theorem Server.written_eq {out : Writer UInt8} {w : List UInt8}
    (hok : (Server.sendPacket out data).ok = true)
    (hw : (Server.sendPacket out data).sock.sent = out.sent ++ w) : w = packet data := by
  obtain ⟨v, hv, _, hall⟩ := (Server.sendPacket_wrote (Or.inr hok)).written
  rw [hw, List.append_cancel_left_eq] at hv
  exact hv.trans (hall.mp hok)

/-- What the client has written when its `send_packet` returns true. -/
theorem Client.written_eq {out : Writer UInt8} {w : List UInt8} {r : Sent}
    (hr : Client.sendPacket out data = some r) (hok : r.ok = true)
    (hw : r.sock.sent = out.sent ++ w) : w = frame data := by
  obtain ⟨r', hr', hframe⟩ := Client.sendPacket_frame out data
  rw [hr, Option.some.injEq] at hr'
  subst hr'
  rw [hframe hok, List.append_cancel_left_eq] at hw
  exact hw.symm

theorem Server.reply_length (data : List UInt8) : (Server.reply data).length = 21 + data.length := by
  unfold Server.reply
  rw [List.length_append]
  rfl

/-- **What one end reports as sent is accepted unchanged by the other** exactly if it has at most
    `maxPayload` bytes (server to client), or fewer than `2^32` bytes (client to server); a reply
    of the server, exactly if the packet it answers has at most `maxPayload - 21` bytes. -/
theorem peers_agree (out : Writer UInt8) (sock : Socket) (hwhole : sock.Whole)
    (data w rest : List UInt8) (hs : sock.rest = w ++ rest) :
    ((Server.sendPacket out data).ok = true →
      (Server.sendPacket out data).sock.sent = out.sent ++ w →
      (Gets Client.recvPacket sock data ↔ data.length ≤ maxPayload)) ∧
    (∀ r, Client.sendPacket out data = some r → r.ok = true → r.sock.sent = out.sent ++ w →
      (Gets Server.recvPacket sock data ↔ data.length < 2 ^ 32)) ∧
    ((Server.sendPacket out (Server.reply data)).ok = true →
      (Server.sendPacket out (Server.reply data)).sock.sent = out.sent ++ w →
      (Gets Client.recvPacket sock (Server.reply data) ↔ data.length + 21 ≤ maxPayload)) := by
  refine ⟨fun hok hw => ?_, fun r hr hok hw => ?_, fun hok hw => ?_⟩
  · rw [Server.written_eq hok hw] at hs
    exact Client.gets_iff hwhole.reliable hs
  · rw [Client.written_eq hr hok hw] at hs
    exact Server.gets_iff hwhole hs
  · rw [Server.written_eq hok hw] at hs
    rw [Client.gets_iff hwhole.reliable hs, Server.reply_length, Nat.add_comm]

/-- A transport that takes, and delivers, everything at once. -/
def atOnce (n : Nat) : Nat → Outcome := fun _ => .data n

theorem peers_agree_short :
    Gets Client.recvPacket ⟨packet [65, 66], 0, atOnce 6⟩ [65, 66] :=
  ((peers_agree ⟨[], 0, atOnce 6, ""⟩ ⟨packet [65, 66], 0, atOnce 6⟩ (fun _ => ⟨6, rfl, by decide⟩)
    [65, 66] (packet [65, 66]) [] rfl).1 (by decide) (by decide)).mpr (by decide)

/-- The server's `send_packet` returns true when the transport takes everything. -/
theorem Server.sendPacket_atOnce {n : Nat} (h4 : 4 ≤ n) (hn : data.length ≤ n) :
    (Server.sendPacket ⟨[], 0, atOnce n, ""⟩ data).ok = true := by
  simp [Server.sendPacket, Writer.send, atOnce, Nat.min_eq_right h4, Nat.min_eq_right hn]

/-- A packet that the server accepts, and whose reply the client does not. -/
def longest : List UInt8 := List.replicate 1048556 65

theorem longest_refused :
    Gets Server.recvPacket ⟨frame longest, 0, atOnce (2 ^ 21)⟩ longest ∧
    (Server.sendPacket ⟨[], 0, atOnce (2 ^ 21), ""⟩ (Server.reply longest)).ok = true ∧
    (Server.sendPacket ⟨[], 0, atOnce (2 ^ 21), ""⟩ (Server.reply longest)).sock.sent =
      packet (Server.reply longest) ∧
    ¬ Gets Client.recvPacket ⟨packet (Server.reply longest), 0, atOnce (2 ^ 21)⟩
      (Server.reply longest) := by
  have hlen : longest.length = 1048556 := List.length_replicate
  have hreply := Server.reply_length longest
  have hok : (Server.sendPacket ⟨[], 0, atOnce (2 ^ 21), ""⟩ (Server.reply longest)).ok = true :=
    Server.sendPacket_atOnce (by omega) (by omega)
  have hframe : (frame longest).length ≤ 2 ^ 21 := by
    rw [frame_eq_packet (by omega), packet_length]
    omega
  refine ⟨?_, hok, ?_, ?_⟩
  · exact (Server.gets_iff (fun _ => ⟨2 ^ 21, rfl, hframe⟩) (List.append_nil _).symm).mpr (by omega)
  · exact Server.written_eq hok (List.nil_append _).symm
  · intro hgets
    have hle := (Client.gets_iff (fun _ => ⟨2 ^ 21, rfl⟩) (List.append_nil _).symm).mp hgets
    rw [hreply, hlen] at hle
    exact absurd hle (by decide)

end CppBackend.Packet
