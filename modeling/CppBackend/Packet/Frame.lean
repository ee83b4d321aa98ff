import CppBackend.Packet.Model

/-!
# Frames

`packet data` is the frame of the format: the length in four bytes, then the payload.
`send_packet` computes both the prefix and the number of payload bytes in a `uint32_t`, so what it
writes, `frame data`, is the packet exactly for payloads below `2^32` bytes
(`frame_eq_packet`); the server's computes only the prefix so.  However `send` takes the bytes, a
call writes a part of that, the whole exactly if it returns true (`Client.sendPacket_wrote`,
`Server.sendPacket_wrote`).
-/

set_option autoImplicit false

namespace CppBackend.Packet

open Library.Loop Library.Bytes Library.Stream

/-- A payload with its length in front. -/
def packet (data : List UInt8) : List UInt8 := toBytes 4 data.length ++ data

/-- The length as `send_packet` computes it. -/
def frameLen (data : List UInt8) : UInt32 := UInt32.ofNat data.length

/-- What `send_packet` writes. -/
def frame (data : List UInt8) : List UInt8 :=
  htonl (frameLen data) ++ data.take (frameLen data).toNat

theorem frameLen_toNat (data : List UInt8) : (frameLen data).toNat = data.length % 2 ^ 32 :=
  UInt32.toNat_ofNat'

theorem frameLen_le (data : List UInt8) : (frameLen data).toNat ≤ data.length := by
  rw [frameLen_toNat]
  exact Nat.mod_le _ _

theorem frame_eq_packet {data : List UInt8} (h : data.length < 2 ^ 32) :
    frame data = packet data := by
  unfold frame packet htonl
  rw [frameLen_toNat, Nat.mod_eq_of_lt h, List.take_length]

theorem packet_length (data : List UInt8) : (packet data).length = 4 + data.length := by
  unfold packet
  rw [List.length_append, toBytes_length]

@[simp] theorem htonl_length (n : UInt32) : (htonl n).length = 4 := toBytes_length _ _

theorem ofBytes_htonl (n : UInt32) : ofBytes (htonl n) = n.toNat := by
  unfold htonl
  rw [ofBytes_toBytes]
  exact Nat.mod_eq_of_lt n.toNat_lt

theorem frame_length (data : List UInt8) : (frame data).length = 4 + (frameLen data).toNat := by
  unfold frame
  rw [List.length_append, htonl_length, List.length_take_of_le (frameLen_le data)]

namespace Client

/-- At the head of the loop: `sent` bytes of the payload have been written, `remaining` are left. -/
structure Unsent.Inv (sock : Writer UInt8) (data : List UInt8) (u : Unsent) (sent : Nat) : Prop where
  count : sent + u.remaining.toNat = (frameLen data).toNat
  dataPtr : u.dataPtr = data.drop sent
  written : u.sock.sent = sock.sent ++ data.take sent

variable {sock : Writer UInt8} {data : List UInt8} {u u' : Unsent} {r : Sent}

theorem send_again (hi : ∃ sent, Unsent.Inv sock data u sent) (h : sendStep u = .again u') :
    (∃ sent, Unsent.Inv sock data u' sent) ∧ u'.remaining.toNat < u.remaining.toNat := by
  obtain ⟨sent, hi⟩ := hi
  have hle := frameLen_le data
  have hcount := hi.count
  unfold sendStep at h
  split at h
  · split at h
    · cases h
    · cases h
    · rename_i k sock' hk hsend
      cases h
      obtain ⟨hlen, hwritten⟩ := send_some hsend
      have hpos : 0 < k := Nat.pos_of_ne_zero fun h0 => hk h0
      have htake : (u.dataPtr.take u.remaining.toNat).length = u.remaining.toNat := by
        refine List.length_take_of_le ?_
        rw [hi.dataPtr, List.length_drop]
        omega
      rw [htake] at hlen
      have hk' : (UInt32.ofNat k).toNat = k := by
        rw [UInt32.toNat_ofNat']
        have := u.remaining.toNat_lt
        exact Nat.mod_eq_of_lt (by omega)
      have hsub : (u.remaining - UInt32.ofNat k).toNat = u.remaining.toNat - k := by
        rw [UInt32.toNat_sub_of_le _ _ (UInt32.le_iff_toNat_le.mpr (by omega)), hk']
      refine ⟨⟨sent + k, ?_, ?_, ?_⟩, ?_⟩
      · show sent + k + (u.remaining - UInt32.ofNat k).toNat = _
        omega
      · show u.dataPtr.drop k = _
        rw [hi.dataPtr, List.drop_drop]
      · show sock'.sent = _
        rw [hwritten, hi.written, List.take_take, Nat.min_eq_left hlen, hi.dataPtr, List.take_add,
          List.append_assoc]
      · show (u.remaining - UInt32.ofNat k).toNat < _
        omega
  · cases h

/-- At an exit of the loop: so much of the payload has been written, all of it exactly if the
    result is true. -/
def PayloadSent (sock : Writer UInt8) (data : List UInt8) (r : Sent) : Prop :=
  ∃ sent, sent ≤ (frameLen data).toNat ∧ r.sock.sent = sock.sent ++ data.take sent ∧
    (r.ok = true ↔ sent = (frameLen data).toNat)

theorem send_done (hi : ∃ sent, Unsent.Inv sock data u sent) (h : sendStep u = .done r) :
    PayloadSent sock data r := by
  obtain ⟨sent, hi⟩ := hi
  have hcount := hi.count
  unfold sendStep at h
  split at h
  · rename_i hpos
    have h0 : 0 < u.remaining.toNat := UInt32.lt_iff_toNat_lt.mp hpos
    split at h
    · rename_i sock' hsend
      cases h
      refine ⟨sent, by omega, ?_, fun hok => (nomatch hok), by omega⟩
      show sock'.sent = _
      rw [send_none hsend, hi.written]
    · rename_i sock' hsend
      cases h
      refine ⟨sent, by omega, ?_, fun hok => (nomatch hok), by omega⟩
      show sock'.sent = _
      rw [(send_some hsend).2, List.take_zero, List.append_nil, hi.written]
    · cases h
  · rename_i hzero
    cases h
    have hz : ¬ 0 < u.remaining.toNat := UInt32.lt_iff_toNat_lt.not.mp hzero
    exact ⟨sent, by omega, hi.written, fun _ => by omega, fun _ => rfl⟩

theorem step_sends {sock : Writer UInt8} :
    (∀ u', sendStep u = .again u' → Sends sock u.sock → Sends sock u'.sock) ∧
      ∀ r, sendStep u = .done r → Sends sock u.sock → Sends sock r.sock := by
  unfold sendStep
  constructor
  · intro u' h hs
    split at h
    · split at h
      · cases h
      · cases h
      · rename_i hsend
        cases h
        exact hs.trans (Sends.send hsend)
    · cases h
  · intro r h hs
    split at h
    · split at h
      · rename_i hsend
        cases h
        exact hs.trans (Sends.send hsend)
      · rename_i hsend
        cases h
        exact hs.trans (Sends.send hsend)
      · cases h
    · cases h
      exact hs

/-- The loop on the payload. -/
theorem sendLoop_spec (sock : Writer UInt8) (data : List UInt8) :
    ∃ r, run sendStep (data.length + 1) ⟨data, frameLen data, sock⟩ = some r ∧
      PayloadSent sock data r ∧ Sends sock r.sock := by
  have hinit : Unsent.Inv sock data ⟨data, frameLen data, sock⟩ 0 :=
    ⟨Nat.zero_add _, rfl, (List.append_nil _).symm⟩
  refine run_spec (I := fun u => (∃ sent, Unsent.Inv sock data u sent) ∧ Sends sock u.sock)
    (μ := fun u => u.remaining.toNat) ?_ ?_ ⟨⟨0, hinit⟩, .refl⟩ (Nat.lt_succ_of_le (frameLen_le data))
  · intro u u' hi h
    obtain ⟨hi', hlt⟩ := send_again hi.1 h
    exact ⟨⟨hi', step_sends.1 u' h hi.2⟩, hlt⟩
  · intro u r hi h
    exact ⟨send_done hi.1 h, step_sends.2 r h hi.2⟩

end Client

/-! ## What a call of `send_packet` writes -/

/-- The call has written a part of the frame, the whole frame exactly if it returned true, and it
    has used the socket by calls of `send` only. -/
structure Wrote (sock : Writer UInt8) (frame : List UInt8) (r : Sent) : Prop where
  written : ∃ w, r.sock.sent = sock.sent ++ w ∧ w <+: frame ∧ (r.ok = true ↔ w = frame)
  sends : Sends sock r.sock

/-- A call of `send` for the length that does not take all of it. -/
theorem Wrote.short {sock sock' : Writer UInt8} {n : UInt32} {taken : Option Nat}
    (h : sock.send (htonl n) = (taken, sock')) (hshort : taken ≠ some 4) (body : List UInt8)
    (cerr : List String) : Wrote sock (htonl n ++ body) ⟨false, sock', cerr⟩ := by
  refine ⟨?_, Sends.send h⟩
  cases taken with
  | none =>
    refine ⟨[], ?_, List.nil_prefix, fun hok => (nomatch hok), fun hnil => ?_⟩
    · rw [List.append_nil]
      exact send_none h
    · have := congrArg List.length hnil
      rw [List.length_append, htonl_length, List.length_nil] at this
      omega
  | some k =>
    obtain ⟨hk, hsent⟩ := send_some h
    rw [htonl_length] at hk
    have hne : k ≠ 4 := fun h4 => hshort (h4 ▸ rfl)
    refine ⟨(htonl n).take k, hsent, ?_, fun hok => (nomatch hok), fun hall => ?_⟩
    · exact (List.take_prefix _ _).trans (List.prefix_append _ _)
    · have := congrArg List.length hall
      rw [List.length_append, List.length_take, htonl_length] at this
      omega

/-- A call of `send` for the length that takes all of it. -/
theorem Wrote.header {sock sock' : Writer UInt8} {n : UInt32}
    (h : sock.send (htonl n) = (some 4, sock')) {body : List UInt8} {r : Sent}
    (hr : Wrote sock' body r) : Wrote sock (htonl n ++ body) r := by
  obtain ⟨w, hw, hle, hok⟩ := hr.written
  have hhead : sock'.sent = sock.sent ++ htonl n := by
    rw [(send_some h).2, List.take_of_length_le (by rw [htonl_length])]
  refine ⟨⟨htonl n ++ w, ?_, ?_, ?_⟩, (Sends.send h).trans hr.sends⟩
  · rw [hw, hhead, List.append_assoc]
  · exact (List.prefix_append_right_inj _).mpr hle
  · rw [hok, List.append_cancel_left_eq]

/-- **The client's `send_packet`** returns, and writes a part of the frame. -/
theorem Client.sendPacket_wrote (sock : Writer UInt8) (data : List UInt8) :
    ∃ r, Client.sendPacket sock data = some r ∧ Wrote sock (frame data) r := by
  unfold Client.sendPacket
  split
  · rename_i sock' hsend
    obtain ⟨r, hr, ⟨sent, hle, hsent, hok⟩, hs⟩ := Client.sendLoop_spec sock' data
    refine ⟨r, hr, Wrote.header hsend ⟨⟨data.take sent, hsent, ?_, ?_⟩, hs⟩⟩
    · exact List.take_prefix_take_left hle
    · rw [hok]
      constructor
      · rintro rfl
        rfl
      · intro htake
        have hlen := congrArg List.length htake
        have hmax := frameLen_le data
        rw [List.length_take, List.length_take] at hlen
        omega
  · rename_i taken sock' hne hsend
    exact ⟨_, rfl, Wrote.short hsend (fun h => hne (h ▸ rfl)) _ _⟩

/-- **The server's `send_packet`** writes a part of the packet.  (Without data, its second call of
    `send` may fail although there was nothing left to write.) -/
theorem Server.sendPacket_wrote {sock : Writer UInt8} {data : List UInt8}
    (hdata : data ≠ [] ∨ (Server.sendPacket sock data).ok = true) :
    Wrote sock (packet data) (Server.sendPacket sock data) := by
  have hpacket : packet data = htonl (frameLen data) ++ data := by
    unfold packet htonl
    rw [frameLen_toNat, show 2 ^ 32 = 256 ^ 4 from rfl, toBytes_mod]
  rw [hpacket]
  unfold Server.sendPacket at hdata ⊢
  split
  · rename_i sock' hsend
    rw [hsend] at hdata
    refine Wrote.header hsend ?_
    split
    · rename_i k sock'' hbody
      obtain ⟨hk, hsent⟩ := send_some hbody
      split
      · rename_i hall
        subst hall
        refine ⟨⟨data, ?_, List.prefix_rfl, fun _ => rfl, fun _ => rfl⟩, Sends.send hbody⟩
        rw [List.take_length] at hsent
        exact hsent
      · rename_i hpart
        refine ⟨⟨data.take k, hsent, List.take_prefix _ _, fun hok => (nomatch hok), ?_⟩,
          Sends.send hbody⟩
        intro htake
        have := congrArg List.length htake
        rw [List.length_take] at this
        omega
    · rename_i sock'' hbody
      simp only [hbody, Bool.false_eq_true, or_false] at hdata
      refine ⟨⟨[], ?_, List.nil_prefix, fun hok => (nomatch hok), ?_⟩, Sends.send hbody⟩
      · rw [List.append_nil]
        exact send_none hbody
      · intro hnil
        exact absurd hnil.symm hdata
  · rename_i taken sock' hne hsend
    exact Wrote.short hsend (fun h => hne (h ▸ rfl)) _ _

/-- When the client's `send_packet` returns true it has written the frame. -/
theorem Client.sendPacket_frame (sock : Writer UInt8) (data : List UInt8) :
    ∃ r, Client.sendPacket sock data = some r ∧
      (r.ok = true → r.sock.sent = sock.sent ++ frame data) := by
  obtain ⟨r, hr, ⟨w, hw, _, hok⟩, _⟩ := Client.sendPacket_wrote sock data
  exact ⟨r, hr, fun h => hok.mp h ▸ hw⟩

end CppBackend.Packet
