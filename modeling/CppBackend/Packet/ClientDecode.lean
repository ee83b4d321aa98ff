import CppBackend.Packet.Frame
import CppBackend.Packet.Receive

/-!
# The client decodes what was framed

Whatever pieces `recv` cuts the stream into, the calls of the client's `recv_packet` return the
payloads in order, each consuming exactly its own packet; a packet that is cut short, or absent,
makes its call return false (`client_decodes`).  The limit of `1024 * 1024` bytes is the only
condition on the payloads.
-/

set_option autoImplicit false

namespace CppBackend.Packet

open Library.Loop Library.Bytes Library.Stream

/-- Four bytes are the number themselves. -/
theorem ntohl_toBytes {n : Nat} (h : n < 2 ^ 32) : (ntohl (toBytes 4 n)).toNat = n := by
  have hof : ofBytes (toBytes 4 n) = n := by
    rw [ofBytes_toBytes]
    exact Nat.mod_eq_of_lt h
  unfold ntohl
  rw [toBytes_length, Nat.sub_self, List.replicate_zero, List.append_nil, hof, UInt32.toNat_ofNat']
  exact Nat.mod_eq_of_lt h

theorem take_packet (data rest : List UInt8) :
    (packet data ++ rest).take 4 = toBytes 4 data.length := by
  unfold packet
  rw [List.append_assoc]
  exact List.take_left' (toBytes_length _ _)

theorem drop_packet (data rest : List UInt8) : (packet data ++ rest).drop 4 = data ++ rest := by
  unfold packet
  rw [List.append_assoc]
  exact List.drop_left' (toBytes_length _ _)

/-- The largest payload that the client accepts. -/
def maxPayload : Nat := 1048576

namespace Client

variable {sock : Socket} {data rest : List UInt8}

/-- **One packet.** -/
theorem recvPacket_packet (hrel : sock.Reliable) (hs : sock.rest = packet data ++ rest)
    (hlen : data.length ≤ maxPayload) :
    recvPacket sock = some ⟨true, data, sock.advance (4 + data.length), []⟩ := by
  unfold maxPayload at hlen
  have hhead : (ntohl (sock.rest.take 4)).toNat = data.length := by
    rw [hs, take_packet]
    exact ntohl_toBytes (by omega)
  have hbody : (sock.advance 4).rest = data ++ rest := by
    rw [advance_rest, hs, drop_packet]
  have hframed : Framed sock := by
    refine ⟨?_, ?_, ?_⟩
    · rw [hs, List.length_append, packet_length]
      omega
    · intro hbig
      have := UInt32.lt_iff_toNat_lt.mp hbig
      rw [hhead] at this
      have hlimit : (1024 * 1024 : UInt32).toNat = 1048576 := by decide
      omega
    · rw [hhead, hbody, List.length_append]
      omega
  obtain ⟨r, hr, hok, htrue⟩ := recvPacket_spec sock
  obtain ⟨_, hall⟩ := hok (htrue hrel hframed)
  rw [hr, hall, hhead]
  unfold Received.all
  rw [hbody, List.take_left', advance_advance]
  rfl

/-- **A packet cut short**, or nothing at all. -/
theorem recvPacket_cut (hlen : data.length ≤ maxPayload) (ht : sock.rest <+: packet data)
    (hne : sock.rest ≠ packet data) : ∃ r, recvPacket sock = some r ∧ r.ok = false := by
  unfold maxPayload at hlen
  obtain ⟨r, hr, hok, _⟩ := recvPacket_spec sock
  refine ⟨r, hr, ?_⟩
  by_contra htrue
  obtain ⟨⟨h4, _, hle⟩, _⟩ := hok (Bool.eq_true_of_not_eq_false htrue)
  obtain ⟨t, ht⟩ := ht
  have hhead : sock.rest.take 4 = toBytes 4 data.length := by
    have htake := take_packet data []
    rw [List.append_nil, ← ht, List.take_append_of_le_length h4] at htake
    exact htake
  rw [hhead, ntohl_toBytes (by omega), advance_rest, List.length_drop] at hle
  have hsum := congrArg List.length ht
  rw [List.length_append, packet_length] at hsum
  have hnil : t = [] := List.eq_nil_of_length_eq_zero (by omega)
  rw [hnil, List.append_nil] at ht
  exact hne ht

end Client

/-- The calls of `recv` give the payloads, each consuming the bytes of its own packet and printing
    nothing, and then false. -/
def Decodes (recv : Socket → Option Received) : Socket → List (List UInt8) → Prop
  | sock, [] => ∃ r, recv sock = some r ∧ r.ok = false
  | sock, data :: payloads =>
    recv sock = some ⟨true, data, sock.advance (4 + data.length), []⟩ ∧
      Decodes recv (sock.advance (4 + data.length)) payloads

theorem decodes_packets {last tail : List UInt8} (hlast : last.length ≤ maxPayload)
    (ht : tail <+: packet last) (hne : tail ≠ packet last) :
    ∀ {payloads : List (List UInt8)} {sock : Socket}, sock.Reliable →
      (∀ data ∈ payloads, data.length ≤ maxPayload) →
      sock.rest = payloads.flatMap packet ++ tail → Decodes Client.recvPacket sock payloads
  | [], sock, _, _, hs => by
    rw [List.flatMap_nil, List.nil_append] at hs
    exact Client.recvPacket_cut hlast (hs ▸ ht) (hs ▸ hne)
  | data :: payloads, sock, hrel, hlen, hs => by
    rw [List.flatMap_cons, List.append_assoc] at hs
    refine ⟨Client.recvPacket_packet hrel hs (hlen data List.mem_cons_self), ?_⟩
    refine decodes_packets hlast ht hne (hrel.advance _)
      (fun p hp => hlen p (List.mem_cons_of_mem _ hp)) ?_
    rw [advance_rest, hs]
    exact List.drop_left' (packet_length data)

/-- **The client's decoder is exact under every fragmentation.**  On a stream of packets of at most
    `maxPayload` bytes, followed by a proper part of a further packet (or by nothing), the calls
    of `recv_packet` return true with the payloads in order, each consuming exactly its own packet,
    and the next call returns false.  The `uint32_t` counters never wrap: at the head of each
    loop they are the number of bytes missing, and received. -/
theorem client_decodes (sock : Socket) (hrel : sock.Reliable) (payloads : List (List UInt8))
    (last tail : List UInt8) (hlen : ∀ data ∈ last :: payloads, data.length ≤ maxPayload)
    (ht : tail <+: packet last) (hne : tail ≠ packet last)
    (hs : sock.rest = payloads.flatMap packet ++ tail) :
    Decodes Client.recvPacket sock payloads ∧
    (∀ sock h, Heads Client.headerStep ⟨[], 4, sock⟩ h →
      h.lenRemaining.toNat + h.lenBuf.length = 4) ∧
    ∀ sock dataLen b, Heads (bodyStep 1024 Client.bodyError dataLen) ⟨[], 0, sock⟩ b →
      b.totalRead.toNat = b.outData.length ∧ b.totalRead ≤ dataLen := by
  obtain ⟨hlast, hlen⟩ := List.forall_mem_cons.mp hlen
  refine ⟨decodes_packets hlast ht hne hrel hlen hs, fun _ h hh => (Client.header_heads hh).count, ?_⟩
  intro sock dataLen b hb
  have hi := body_heads (by decide) hb
  have hcount := hi.count
  have hbound := hi.bound
  exact ⟨hcount, UInt32.le_iff_toNat_le.mpr (by omega)⟩

/-- Two packets and half of a length, byte by byte. -/
def byteByByte : Socket := ⟨packet [104, 105] ++ packet [] ++ [0, 0], 0, fun _ => .data 1⟩

theorem client_decodes_bytes : Decodes Client.recvPacket byteByByte [[104, 105], []] :=
  (client_decodes byteByByte (fun _ => ⟨1, rfl⟩) [[104, 105], []] [7] [0, 0] (by decide)
    (by decide) (by decide) (by decide)).1

end CppBackend.Packet
