import CppBackend.Packet.Model

/-!
# What the receivers do with a stream

The loops read exactly as many bytes as they want, however `recv` cuts the stream, or fail;
their `uint32_t` counters count without wrapping (`Body.Inv`, `Header.Inv`).

* `recvBody_spec` — the loop on the payload, for any socket, buffer and length;
* `Client.recvPacket_spec` — the client's receiver takes the frame that starts at the current byte;
* `Server.recvPacket_spec` — the server's receiver takes as length the bytes that its one call of
  `recv` delivers, padded with zeros.
-/

set_option autoImplicit false

namespace CppBackend.Packet

open Library.Loop Library.Bytes Library.Stream

/-! ## The loop on the payload -/

/-- The first `n` bytes of the stream have been received. -/
def Received.all (sock : Socket) (n : Nat) : Received := ⟨true, sock.rest.take n, sock.advance n, []⟩

/-- At the head of the loop: `out_data` are the bytes received so far, and `total_read` is their
    number. -/
structure Body.Inv (sock : Socket) (dataLen : UInt32) (b : Body) : Prop where
  outData : b.outData = sock.rest.take b.outData.length
  sock : b.sock = sock.advance b.outData.length
  count : b.totalRead.toNat = b.outData.length
  bound : b.outData.length ≤ dataLen.toNat

theorem Body.Inv.init (sock : Socket) (dataLen : UInt32) : Body.Inv sock dataLen ⟨[], 0, sock⟩ :=
  ⟨rfl, (advance_zero sock).symm, rfl, Nat.zero_le _⟩

theorem Body.Inv.reliable {sock : Socket} {dataLen : UInt32} {b : Body}
    (hi : Body.Inv sock dataLen b) (h : sock.Reliable) : b.sock.Reliable := by
  rw [hi.sock]
  exact h.advance _

theorem toNat_min (a b : UInt32) : (min a b).toNat = min a.toNat b.toNat := by
  show (if a ≤ b then a else b).toNat = _
  split
  · rename_i h
    exact (Nat.min_eq_left (UInt32.le_iff_toNat_le.mp h)).symm
  · rename_i h
    have := UInt32.le_iff_toNat_le.not.mp h
    exact (Nat.min_eq_right (by omega)).symm

variable {size dataLen : UInt32} {report : String → List String} {sock : Socket} {b b' : Body}
  {r : Received}

/-- The number of bytes that the loop asks for. -/
theorem Body.Inv.request (hi : Body.Inv sock dataLen b) (hsize : 0 < size)
    (hlt : b.totalRead < dataLen) : 0 < (min size (dataLen - b.totalRead)).toNat ∧
      (min size (dataLen - b.totalRead)).toNat + b.outData.length ≤ dataLen.toNat := by
  have hlt' : b.totalRead.toNat < dataLen.toNat := UInt32.lt_iff_toNat_lt.mp hlt
  have hsub : (dataLen - b.totalRead).toNat = dataLen.toNat - b.totalRead.toNat :=
    UInt32.toNat_sub_of_le _ _ (UInt32.le_iff_toNat_le.mpr (by omega))
  have hsize' : 0 < size.toNat := UInt32.lt_iff_toNat_lt.mp hsize
  have hcount := hi.count
  rw [toNat_min, hsub]
  omega

/-- Receiving `k` more bytes. -/
theorem Body.Inv.receive (hi : Body.Inv sock dataLen b) {k : Nat} (hle : k ≤ b.sock.rest.length)
    (hk : k + b.outData.length ≤ dataLen.toNat) :
    Body.Inv sock dataLen ⟨b.outData ++ b.sock.rest.take k,
      b.totalRead + UInt32.ofNat (b.sock.rest.take k).length, b.sock.advance k⟩ := by
  have hlen : (b.sock.rest.take k).length = k := List.length_take_of_le hle
  have htotal : (b.outData ++ b.sock.rest.take k).length = b.outData.length + k := by
    rw [List.length_append, hlen]
  have hmax := dataLen.toNat_lt
  refine ⟨?_, ?_, ?_, ?_⟩
  · show _ = sock.rest.take (b.outData ++ b.sock.rest.take k).length
    rw [htotal, List.take_add, ← hi.outData, hi.sock, advance_rest]
  · show b.sock.advance k = sock.advance (b.outData ++ b.sock.rest.take k).length
    rw [htotal, hi.sock, advance_advance]
  · show (b.totalRead + UInt32.ofNat (b.sock.rest.take k).length).toNat =
      (b.outData ++ b.sock.rest.take k).length
    rw [htotal, hlen, UInt32.toNat_add, UInt32.toNat_ofNat', hi.count]
    omega
  · show (b.outData ++ b.sock.rest.take k).length ≤ _
    omega

theorem body_again (hsize : 0 < size) (hi : Body.Inv sock dataLen b)
    (h : bodyStep size report dataLen b = .again b') :
    Body.Inv sock dataLen b' ∧ b'.sock.rest.length < b.sock.rest.length := by
  unfold bodyStep at h
  split at h
  · rename_i hlt
    obtain ⟨h0, hreq⟩ := hi.request hsize hlt
    split at h
    · cases h
    · cases h
    · rename_i got sock' hne hrecv
      obtain ⟨k, hk0, hk, hle, rfl, rfl⟩ := recv_got h0 hne hrecv
      cases h
      refine ⟨hi.receive hle (by omega), ?_⟩
      show ((b.sock.advance k).rest).length < _
      rw [advance_rest, List.length_drop]
      omega
  · cases h

theorem body_done (hsize : 0 < size) (hi : Body.Inv sock dataLen b)
    (h : bodyStep size report dataLen b = .done r) :
    (r.ok = true → dataLen.toNat ≤ sock.rest.length ∧ r = .all sock dataLen.toNat) ∧
    (sock.Reliable → dataLen.toNat ≤ sock.rest.length → r.ok = true) := by
  unfold bodyStep at h
  split at h
  · rename_i hlt
    obtain ⟨h0, hreq⟩ := hi.request hsize hlt
    have hlt' : b.totalRead.toNat < dataLen.toNat := UInt32.lt_iff_toNat_lt.mp hlt
    split at h
    · rename_i e sock' hrecv
      cases h
      refine ⟨fun hok => (nomatch hok), fun hrel => ?_⟩
      exact (recv_error (hi.reliable hrel) hrecv).elim
    · rename_i sock' hrecv
      cases h
      refine ⟨fun hok => (nomatch hok), fun _ hle => ?_⟩
      -- the stream has ended before `data_len` bytes
      have hnil := recv_nil h0 hrecv
      rw [hi.sock, advance_rest] at hnil
      have hcount := hi.count
      have := List.drop_eq_nil_iff.mp hnil
      omega
    · cases h
  · rename_i hge
    cases h
    have hge' : ¬ b.totalRead.toNat < dataLen.toNat := UInt32.lt_iff_toNat_lt.not.mp hge
    have heq : b.outData.length = dataLen.toNat := by
      have := hi.bound
      have := hi.count
      omega
    refine ⟨fun _ => ⟨?_, ?_⟩, fun _ _ => rfl⟩
    · have hlen := congrArg List.length hi.outData
      rw [List.length_take] at hlen
      omega
    · show (⟨true, b.outData, b.sock, []⟩ : Received) = _
      unfold Received.all
      rw [← heq, ← hi.outData, ← hi.sock]

/-- **The loop on the payload** ends; it succeeds only with exactly the next `data_len` bytes, and
    does succeed when they are there and no `recv` fails. -/
theorem recvBody_spec (size : UInt32) (report : String → List String) (dataLen : UInt32)
    (hsize : 0 < size) (sock : Socket) :
    ∃ r, recvBody size report dataLen sock = some r ∧
      (r.ok = true → dataLen.toNat ≤ sock.rest.length ∧ r = .all sock dataLen.toNat) ∧
      (sock.Reliable → dataLen.toNat ≤ sock.rest.length → r.ok = true) :=
  run_spec (μ := fun b : Body => b.sock.rest.length) (fun _ _ hi h => body_again hsize hi h)
    (fun _ _ hi h => body_done hsize hi h) (Body.Inv.init sock dataLen) (Nat.lt_succ_self _)

/-- The counters of the loop on the payload, whatever `recv` does. -/
theorem body_heads (hsize : 0 < size) (h : Heads (bodyStep size report dataLen) ⟨[], 0, sock⟩ b) :
    Body.Inv sock dataLen b :=
  Heads.invariant (Body.Inv.init sock dataLen) (fun _ _ hi h => (body_again hsize hi h).1) h

/-! ## The client -/

namespace Client

/-- At the head of the loop on the length: the bytes received so far and those remaining are
    four. -/
structure Header.Inv (sock : Socket) (h : Header) : Prop where
  lenBuf : h.lenBuf = sock.rest.take h.lenBuf.length
  sock : h.sock = sock.advance h.lenBuf.length
  count : h.lenRemaining.toNat + h.lenBuf.length = 4

variable {h h' : Header} {e : Except Received (List UInt8 × Socket)}

theorem Header.Inv.init (sock : Socket) : Header.Inv sock ⟨[], 4, sock⟩ :=
  ⟨rfl, (advance_zero sock).symm, rfl⟩

theorem Header.Inv.receive (hi : Header.Inv sock h) {k : Nat} (hle : k ≤ h.sock.rest.length)
    (hk : k ≤ h.lenRemaining.toNat) :
    Header.Inv sock ⟨h.lenBuf ++ h.sock.rest.take k,
      h.lenRemaining - UInt32.ofNat (h.sock.rest.take k).length, h.sock.advance k⟩ := by
  have hlen : (h.sock.rest.take k).length = k := List.length_take_of_le hle
  have htotal : (h.lenBuf ++ h.sock.rest.take k).length = h.lenBuf.length + k := by
    rw [List.length_append, hlen]
  have hcount := hi.count
  have hk' : (UInt32.ofNat k).toNat = k := by
    rw [UInt32.toNat_ofNat']
    exact Nat.mod_eq_of_lt (by omega)
  refine ⟨?_, ?_, ?_⟩
  · show _ = sock.rest.take (h.lenBuf ++ h.sock.rest.take k).length
    rw [htotal, List.take_add, ← hi.lenBuf, hi.sock, advance_rest]
  · show h.sock.advance k = sock.advance (h.lenBuf ++ h.sock.rest.take k).length
    rw [htotal, hi.sock, advance_advance]
  · show (h.lenRemaining - UInt32.ofNat (h.sock.rest.take k).length).toNat +
      (h.lenBuf ++ h.sock.rest.take k).length = 4
    rw [htotal, hlen, UInt32.toNat_sub_of_le _ _ (UInt32.le_iff_toNat_le.mpr (by omega)), hk']
    omega

theorem header_again (hi : Header.Inv sock h) (hs : headerStep h = .again h') :
    Header.Inv sock h' ∧ h'.sock.rest.length < h.sock.rest.length := by
  unfold headerStep at hs
  split at hs
  · rename_i hpos
    have h0 : 0 < h.lenRemaining.toNat := UInt32.lt_iff_toNat_lt.mp hpos
    split at hs
    · cases hs
    · cases hs
    · rename_i got sock' hne hrecv
      obtain ⟨k, hk0, hk, hle, rfl, rfl⟩ := recv_got h0 hne hrecv
      cases hs
      refine ⟨hi.receive hle hk, ?_⟩
      show ((h.sock.advance k).rest).length < _
      rw [advance_rest, List.length_drop]
      omega
  · cases hs

/-- What the loop on the length hands on: the next four bytes, or a failed call. -/
def HeaderDone (sock : Socket) (e : Except Received (List UInt8 × Socket)) : Prop :=
  (e = .ok (sock.rest.take 4, sock.advance 4) ∧ 4 ≤ sock.rest.length) ∨
    ∃ r, e = .error r ∧ r.ok = false ∧ (sock.Reliable → sock.rest.length < 4)

theorem header_done (hi : Header.Inv sock h) (hs : headerStep h = .done e) :
    HeaderDone sock e := by
  have hcount := hi.count
  unfold headerStep at hs
  split at hs
  · rename_i hpos
    have h0 : 0 < h.lenRemaining.toNat := UInt32.lt_iff_toNat_lt.mp hpos
    split at hs
    · rename_i t sock' hrecv
      cases hs
      refine Or.inr ⟨_, rfl, rfl, fun hrel => ?_⟩
      have hrel' : h.sock.Reliable := by
        rw [hi.sock]
        exact hrel.advance _
      exact (recv_error hrel' hrecv).elim
    · rename_i sock' hrecv
      cases hs
      refine Or.inr ⟨_, rfl, rfl, fun _ => ?_⟩
      have hnil := recv_nil h0 hrecv
      rw [hi.sock, advance_rest] at hnil
      have := List.drop_eq_nil_iff.mp hnil
      omega
    · cases hs
  · rename_i hge
    cases hs
    have hge' : ¬ 0 < h.lenRemaining.toNat := UInt32.lt_iff_toNat_lt.not.mp hge
    have heq : h.lenBuf.length = 4 := by omega
    refine Or.inl ⟨?_, ?_⟩
    · rw [← heq, ← hi.lenBuf, ← hi.sock]
    · have hlen := congrArg List.length hi.lenBuf
      rw [List.length_take] at hlen
      omega

theorem recvHeader_spec (sock : Socket) : ∃ e, recvHeader sock = some e ∧ HeaderDone sock e :=
  run_spec (μ := fun h : Header => h.sock.rest.length) (fun _ _ hi hs => header_again hi hs)
    (fun _ _ hi hs => header_done hi hs) (Header.Inv.init sock) (Nat.lt_succ_self _)

/-- The counter of the loop on the length, whatever `recv` does. -/
theorem header_heads (hs : Heads headerStep ⟨[], 4, sock⟩ h) : Header.Inv sock h :=
  Heads.invariant (Header.Inv.init sock) (fun _ _ hi hs => (header_again hi hs).1) hs

/-- The stream starts with a whole frame that the client accepts. -/
structure Framed (sock : Socket) : Prop where
  header : 4 ≤ sock.rest.length
  limit : ¬ ntohl (sock.rest.take 4) > 1024 * 1024
  payload : (ntohl (sock.rest.take 4)).toNat ≤ (sock.advance 4).rest.length

/-- **The client's receiver** returns; it returns true only with the payload of the frame at the
    current byte, of which it consumes exactly the bytes, and it does so when the frame is whole
    and no `recv` fails. -/
theorem recvPacket_spec (sock : Socket) : ∃ r, recvPacket sock = some r ∧
    (r.ok = true → Framed sock ∧
      r = .all (sock.advance 4) (ntohl (sock.rest.take 4)).toNat) ∧
    (sock.Reliable → Framed sock → r.ok = true) := by
  obtain ⟨e, he, hdone⟩ := recvHeader_spec sock
  unfold recvPacket
  rw [he]
  rcases hdone with ⟨rfl, h4⟩ | ⟨r, rfl, hno, hshort⟩
  · simp only
    split
    · rename_i hbig
      exact ⟨_, rfl, fun hok => (nomatch hok), fun _ hf => absurd hbig hf.limit⟩
    · rename_i hsmall
      obtain ⟨r, hr, hok, hrel⟩ := recvBody_spec 1024 bodyError
        (ntohl (sock.rest.take 4)) (by decide) (sock.advance 4)
      refine ⟨r, hr, fun h => ?_, fun h hf => hrel (h.advance 4) hf.payload⟩
      obtain ⟨hle, hall⟩ := hok h
      exact ⟨⟨h4, hsmall, hle⟩, hall⟩
  · refine ⟨r, rfl, fun hok => ?_, fun h hf => ?_⟩
    · rw [hno] at hok
      cases hok
    · have := hshort h
      have := hf.header
      omega

end Client

/-! ## The server -/

namespace Server

/-- How many bytes the server's call of `recv` for the length may deliver. -/
def headerLen (sock : Socket) : Nat :=
  match sock.outcome sock.pos with
  | .data n => min 4 (max 1 n)
  | .error _ => 0

/-- The length that the server makes of them. -/
def announced (sock : Socket) : Nat := (ntohl (sock.rest.take (headerLen sock))).toNat

theorem headerLen_bounds (h : sock.Reliable) : 0 < headerLen sock ∧ headerLen sock ≤ 4 := by
  obtain ⟨n, hn⟩ := h sock.pos
  unfold headerLen
  rw [hn]
  simp only
  omega

/-- **The server's receiver** returns; when no `recv` fails, it returns true exactly if the stream
    has not ended and the length made of the delivered header bytes is covered by what follows
    them. -/
theorem recvPacket_spec (h : sock.Reliable) : ∃ r, recvPacket sock = some r ∧
    (r.ok = true ↔ sock.rest ≠ [] ∧
      announced sock ≤ (sock.advance (headerLen sock)).rest.length) ∧
    (r.ok = true → r = .all (sock.advance (headerLen sock)) (announced sock)) := by
  obtain ⟨n, hn⟩ := h sock.pos
  have hrecv : sock.recv 4 =
      (.ok (sock.rest.take (headerLen sock)), sock.advance (headerLen sock)) := by
    unfold Reader.recv headerLen
    rw [hn]
  have h0 := (headerLen_bounds h).1
  unfold recvPacket
  rw [hrecv]
  cases hgot : sock.rest.take (headerLen sock) with
  | nil =>
    refine ⟨_, rfl, ⟨fun hok => (nomatch hok), fun hne => ?_⟩, fun hok => (nomatch hok)⟩
    rcases List.take_eq_nil_iff.mp hgot with hz | hnil
    · omega
    · exact absurd hnil hne.1
  | cons x xs =>
    have hne : sock.rest ≠ [] := by
      rintro hnil
      rw [hnil, List.take_nil] at hgot
      cases hgot
    obtain ⟨r, hr, hok, hrel⟩ := recvBody_spec 4096 (fun _ => [])
      (ntohl (x :: xs)) (by decide) (sock.advance (headerLen sock))
    have hann : announced sock = (ntohl (x :: xs)).toNat := by
      unfold announced
      rw [hgot]
    rw [hann]
    exact ⟨r, hr, ⟨fun h => ⟨hne, (hok h).1⟩, fun h' => hrel (h.advance _) h'.2⟩,
      fun h => (hok h).2⟩

end Server

end CppBackend.Packet
