import CppBackend.Packet.Frame
import CppBackend.Packet.Receive

/-!
# The server decodes what was framed, if no length prefix is split

The server's `recv_packet` reads the length with one call of `recv`; when that call delivers
fewer than four bytes, the missing ones count as zeros and are left in the stream.

* `Server.recvPacket_frame` — a frame whose length is delivered whole is received, and nothing
  beyond it;
* `Server.recvPacket_split` — a frame whose length is split comes out right only if it consists
  of zeros and its length ends in as many zero bytes as were left out; then zeros stay behind;
* `Server.shifted_iff` — behind such zeros every length is read shifted, and hence too small: only
  empty payloads still come out right;
* `server_decodes` — so on a complete stream the payloads come out right exactly if every
  length is delivered whole and every payload has fewer than `2^32` bytes; on a stream that ends
  inside a frame there is, besides, the length that the last call makes of the header bytes it
  gets, which must exceed what follows them (`split_length` has runs where neither holds).
-/

set_option autoImplicit false

namespace CppBackend.Packet

open Library.Loop Library.Bytes Library.Stream

/-- The calls of `recv` return true with the payloads in order, and then false. -/
def Delivers (recv : Socket → Option Received) : Socket → List (List UInt8) → Prop
  | sock, [] => ∃ r, recv sock = some r ∧ r.ok = false
  | sock, data :: payloads =>
    ∃ r, recv sock = some r ∧ r.ok = true ∧ r.outData = data ∧ Delivers recv r.sock payloads

namespace Server

variable {sock : Socket} {data rest : List UInt8} {payloads : List (List UInt8)}

/-- At the first byte of each frame `recv` delivers the whole length, and the payload is shorter
    than `2^32` bytes. -/
def WholeHeaders : Socket → List (List UInt8) → Prop
  | _, [] => True
  | sock, data :: payloads =>
    data.length < 2 ^ 32 ∧ headerLen sock = 4 ∧
      WholeHeaders (sock.advance (4 + data.length)) payloads

/-- The stream has ended, or the length made of the header bytes that `recv` delivers exceeds what
    follows them. -/
def Refuses (sock : Socket) : Prop :=
  sock.rest = [] ∨ (sock.advance (headerLen sock)).rest.length < announced sock

/-- So many times, skip the bytes that `recv` delivers for a length. -/
def skip : Nat → Socket → Socket
  | 0, sock => sock
  | n + 1, sock => skip n (sock.advance (headerLen sock))

/-- All lengths are delivered whole and what follows the frames is refused; or one length is split,
    but only zeros are lost with it: its payload consists of zeros, its length ends in the zero
    bytes that were left out, and all later payloads are empty. -/
def Intact : Socket → List (List UInt8) → Prop
  | sock, [] => Refuses sock
  | sock, data :: payloads =>
    data.length < 2 ^ 32 ∧
      (headerLen sock = 4 ∧ Intact (sock.advance (4 + data.length)) payloads ∨
        headerLen sock < 4 ∧ 256 ^ (4 - headerLen sock) ∣ data.length ∧
          data = List.replicate data.length 0 ∧ (∀ q ∈ payloads, q = []) ∧
          Refuses (skip payloads.length (sock.advance (headerLen sock + data.length))))

/-- The server's length is a number of four bytes: those delivered, and zeros. -/
theorem announced_eq (h : headerLen sock ≤ 4) {xs : List UInt8}
    (hxs : sock.rest.take (headerLen sock) = xs) :
    announced sock = ofBytes (xs ++ List.replicate (4 - xs.length) 0) := by
  have hlen : xs.length ≤ 4 := by
    rw [← hxs, List.length_take]
    omega
  have hlt := ofBytes_lt (xs ++ List.replicate (4 - xs.length) 0)
  rw [List.length_append, List.length_replicate, Nat.add_sub_cancel' hlen] at hlt
  unfold announced ntohl
  rw [hxs, UInt32.toNat_ofNat']
  exact Nat.mod_eq_of_lt hlt

/-- What a call that returns true has received, when it returns `data`. -/
theorem received_data (hrel : sock.Reliable) {r : Received} (hr : recvPacket sock = some r)
    (hok : r.ok = true) (hdata : r.outData = data) :
    data.length = announced sock ∧
      (sock.rest.drop (headerLen sock)).take data.length = data ∧
      r.sock = sock.advance (headerLen sock + data.length) := by
  obtain ⟨r', hr', hiff, hall⟩ := recvPacket_spec hrel
  rw [hr, Option.some.injEq] at hr'
  subst hr'
  have hle := (hiff.mp hok).2
  have heq := hall hok
  have hout : r.outData = (sock.advance (headerLen sock)).rest.take (announced sock) := by
    rw [heq]
    rfl
  have hlen : data.length = announced sock := by
    rw [← hdata, hout, List.length_take_of_le hle]
  refine ⟨hlen, ?_, ?_⟩
  · rw [hlen, ← hdata, hout]
    rfl
  · rw [heq, hlen]
    exact advance_advance _ _ _

/-! ## One call -/

/-- The call at the current byte returns false. -/
theorem delivers_nil (hrel : sock.Reliable) : Delivers recvPacket sock [] ↔ Refuses sock := by
  obtain ⟨r, hr, hiff, _⟩ := recvPacket_spec hrel
  have hfalse : Delivers recvPacket sock [] ↔ ¬ r.ok = true := by
    constructor
    · rintro ⟨q, hq, hno⟩ hok
      rw [hr, Option.some.injEq] at hq
      subst hq
      rw [hno] at hok
      cases hok
    · intro hno
      exact ⟨r, hr, Bool.eq_false_of_not_eq_true hno⟩
  unfold Refuses
  rw [hfalse, hiff, not_and_or, not_not, Nat.not_le]

/-- A call that returns `data` leaves the rest to the later calls. -/
theorem delivers_cons {k : Nat} {lines : List String}
    (hrecv : recvPacket sock = some ⟨true, data, sock.advance k, lines⟩) :
    Delivers recvPacket sock (data :: payloads) ↔ Delivers recvPacket (sock.advance k) payloads := by
  constructor
  · rintro ⟨r, hr, _, _, hrest⟩
    rw [hrecv, Option.some.injEq] at hr
    subst hr
    exact hrest
  · intro hrest
    exact ⟨_, hrecv, rfl, rfl, hrest⟩

/-- The call succeeds if the length it makes of the header bytes is that of `data`, and `data`
    follows them. -/
theorem recvPacket_of_announced (hrel : sock.Reliable) (hne : sock.rest ≠ [])
    (hann : announced sock = data.length)
    (hbody : data <+: (sock.advance (headerLen sock)).rest) :
    recvPacket sock = some ⟨true, data, sock.advance (headerLen sock + data.length), []⟩ := by
  obtain ⟨r, hr, hiff, hall⟩ := recvPacket_spec hrel
  have hok : r.ok = true := hiff.mpr ⟨hne, hann ▸ hbody.length_le⟩
  rw [hr, hall hok, hann]
  unfold Received.all
  rw [← List.prefix_iff_eq_take.mp hbody, advance_advance]

/-- **One frame** whose length is delivered whole. -/
theorem recvPacket_frame (hrel : sock.Reliable) (hs : sock.rest = frame data ++ rest)
    (hlen : data.length < 2 ^ 32) (h4 : headerLen sock = 4) :
    recvPacket sock = some ⟨true, data, sock.advance (4 + data.length), []⟩ := by
  rw [frame_eq_packet hlen] at hs
  have hs' : sock.rest = toBytes 4 data.length ++ (data ++ rest) := by
    rw [hs]
    unfold packet
    rw [List.append_assoc]
  have hhead : sock.rest.take (headerLen sock) = toBytes 4 data.length := by
    rw [h4, hs']
    exact List.take_left' (toBytes_length _ _)
  have hann : announced sock = data.length := by
    rw [announced_eq (by omega) hhead, toBytes_length, Nat.sub_self, List.replicate_zero,
      List.append_nil, ofBytes_toBytes]
    exact Nat.mod_eq_of_lt hlen
  have hne : sock.rest ≠ [] := by
    intro hnil
    have := congrArg List.length hs
    rw [hnil, List.length_append, packet_length, List.length_nil] at this
    omega
  have hbody : data <+: (sock.advance (headerLen sock)).rest := by
    rw [advance_rest, h4, hs', List.drop_left' (toBytes_length _ _)]
    exact List.prefix_append _ _
  have hrecv := recvPacket_of_announced hrel hne hann hbody
  rwa [h4] at hrecv

/-! ## A split length -/

/-- Zeroing the last bytes of a number of four bytes, and shifting it, makes it smaller. -/
theorem ofBytes_take_mul_le (xs : List UInt8) {k r : Nat} (hk : k ≤ 4) (hlen : xs.length = r + 4) :
    ofBytes (xs.take k ++ List.replicate (4 - k) 0) * 256 ^ r ≤ ofBytes xs := by
  have hsplit := ofBytes_append (xs.take k) (xs.drop k)
  rw [List.take_append_drop, List.length_drop, hlen] at hsplit
  rw [ofBytes_append, ofBytes_zeros, List.length_replicate, Nat.add_zero, Nat.mul_assoc, ← pow_add,
    show 4 - k + r = r + 4 - k by omega]
  omega

/-- A number of four bytes is unchanged by zeroing its last bytes exactly if it is divisible by
    their weight. -/
theorem zeroed_iff (xs : List UInt8) (k : Nat) (hlen : xs.length = 4) :
    ofBytes (xs.take k ++ List.replicate (4 - k) 0) = ofBytes xs ↔ 256 ^ (4 - k) ∣ ofBytes xs := by
  have hsplit := ofBytes_append (xs.take k) (xs.drop k)
  have hlt := ofBytes_lt (xs.drop k)
  rw [List.take_append_drop] at hsplit
  rw [List.length_drop, hlen] at hsplit hlt
  rw [ofBytes_append, ofBytes_zeros, List.length_replicate, Nat.add_zero, hsplit]
  constructor
  · intro heq
    rw [← heq]
    exact Nat.dvd_mul_left _ _
  · intro hdvd
    have := (Nat.dvd_add_right (Nat.dvd_mul_left _ _)).mp hdvd
    rw [Nat.eq_zero_of_dvd_of_lt this hlt, Nat.add_zero]

/-- A string that reads the same behind a block of zeros consists of zeros. -/
theorem zeros_of_shifted {j : Nat} (hj : 0 < j) {xs : List UInt8}
    (h : (List.replicate j 0 ++ xs).take xs.length = xs) : xs = List.replicate xs.length 0 := by
  have hget : ∀ i, i < xs.length → xs[i]? = some 0 := by
    intro i
    induction i using Nat.strong_induction_on with
    | _ i ih =>
      intro hi
      rw [← h, List.getElem?_take_of_lt hi]
      rcases Nat.lt_or_ge i j with hij | hij
      · rw [List.getElem?_append_left (by rw [List.length_replicate]; exact hij),
          List.getElem?_replicate, if_pos hij]
      · rw [List.getElem?_append_right (by rw [List.length_replicate]; exact hij),
          List.length_replicate]
        exact ih (i - j) (by omega) (by omega)
  apply List.ext_getElem?
  intro i
  rcases Nat.lt_or_ge i xs.length with hi | hi
  · rw [hget i hi, List.getElem?_replicate, if_pos hi]
  · rw [List.getElem?_eq_none hi, List.getElem?_replicate, if_neg (by omega)]

/-- The stream behind the header bytes of a frame whose length is split, when the bytes left out
    are zeros. -/
theorem split_rest (hs : sock.rest = frame data ++ rest) (hsplit : headerLen sock < 4)
    (hlt : data.length < 2 ^ 32) (hdvd : 256 ^ (4 - headerLen sock) ∣ data.length) :
    sock.rest.drop (headerLen sock) =
      List.replicate (4 - headerLen sock) 0 ++ (data ++ rest) := by
  rw [frame_eq_packet hlt] at hs
  have hof : ofBytes (toBytes 4 data.length) = data.length := by
    rw [ofBytes_toBytes]
    exact Nat.mod_eq_of_lt hlt
  have hzeroed := (zeroed_iff (toBytes 4 data.length) _ (toBytes_length _ _)).mpr
    (hof.symm ▸ hdvd)
  have htake : ((toBytes 4 data.length).take (headerLen sock)).length = headerLen sock :=
    List.length_take_of_le (by rw [toBytes_length]; omega)
  have hsame := ofBytes_inj (by
    rw [List.length_append, htake, List.length_replicate, toBytes_length]
    omega) hzeroed
  have hdrop := congrArg (List.drop (headerLen sock)) hsame
  rw [List.drop_left' htake] at hdrop
  rw [hs]
  unfold packet
  rw [List.append_assoc, List.drop_append_of_le_length (by rw [toBytes_length]; omega), ← hdrop]

/-- The length that is made of a split one. -/
theorem split_announced (hs : sock.rest = frame data ++ rest) (hsplit : headerLen sock < 4)
    (hlt : data.length < 2 ^ 32) :
    announced sock = data.length ↔ 256 ^ (4 - headerLen sock) ∣ data.length := by
  rw [frame_eq_packet hlt] at hs
  have hof : ofBytes (toBytes 4 data.length) = data.length := by
    rw [ofBytes_toBytes]
    exact Nat.mod_eq_of_lt hlt
  have hwindow : sock.rest.take (headerLen sock) =
      (toBytes 4 data.length).take (headerLen sock) := by
    rw [hs]
    unfold packet
    rw [List.append_assoc, List.take_append_of_le_length (by rw [toBytes_length]; omega)]
  have hann := announced_eq (by omega) hwindow
  rw [List.length_take_of_le (by rw [toBytes_length]; omega)] at hann
  have hiff := zeroed_iff (toBytes 4 data.length) (headerLen sock) (toBytes_length _ _)
  rw [hof, ← hann] at hiff
  exact hiff

/-- **A split length**: the frame comes out right exactly if its payload consists of zeros and its
    length ends in the zero bytes that were left out; then as many zeros stay behind. -/
theorem recvPacket_split (hrel : sock.Reliable) (hs : sock.rest = frame data ++ rest)
    (hsplit : headerLen sock < 4) : Delivers recvPacket sock (data :: payloads) ↔
    data.length < 2 ^ 32 ∧ 256 ^ (4 - headerLen sock) ∣ data.length ∧
      data = List.replicate data.length 0 ∧
      Delivers recvPacket (sock.advance (headerLen sock + data.length)) payloads := by
  constructor
  · rintro ⟨r, hr, hok, hdata, hrest⟩
    obtain ⟨hlen, htake, hsock⟩ := received_data hrel hr hok hdata
    have hlt : data.length < 2 ^ 32 := hlen ▸ UInt32.toNat_lt _
    have hdvd := (split_announced hs hsplit hlt).mp hlen.symm
    rw [split_rest hs hsplit hlt hdvd, ← List.append_assoc,
      List.take_append_of_le_length (by rw [List.length_append]; omega)] at htake
    exact ⟨hlt, hdvd, zeros_of_shifted (by omega) htake, hsock ▸ hrest⟩
  · rintro ⟨hlt, hdvd, hzeros, hrest⟩
    have hdrop := split_rest hs hsplit hlt hdvd
    have hne : sock.rest ≠ [] := by
      intro hnil
      have := congrArg List.length hs
      rw [hnil, List.length_append, frame_length, List.length_nil] at this
      omega
    have hbody : data <+: (sock.advance (headerLen sock)).rest := by
      rw [advance_rest, hdrop, ← List.append_assoc]
      refine List.IsPrefix.trans ?_ (List.prefix_append _ rest)
      generalize data.length = n at hzeros
      rw [hzeros, List.replicate_append_replicate, Nat.add_comm, ← List.replicate_append_replicate]
      exact List.prefix_append _ _
    have hrecv := recvPacket_of_announced hrel hne ((split_announced hs hsplit hlt).mpr hdvd) hbody
    exact (delivers_cons hrecv).mpr hrest

/-- What stays behind after a split length. -/
theorem split_behind (hs : sock.rest = frame data ++ rest) (hsplit : headerLen sock < 4)
    (hlt : data.length < 2 ^ 32) (hdvd : 256 ^ (4 - headerLen sock) ∣ data.length)
    (hzeros : data = List.replicate data.length 0) :
    (sock.advance (headerLen sock + data.length)).rest =
      List.replicate (4 - headerLen sock) 0 ++ rest := by
  rw [advance_rest, ← List.drop_drop, split_rest hs hsplit hlt hdvd, ← List.append_assoc]
  generalize data.length = n at hzeros
  rw [hzeros, List.replicate_append_replicate, List.drop_append_of_le_length, List.drop_replicate,
    Nat.add_sub_cancel]
  rw [List.length_replicate]
  omega

/-! ## Behind a split length -/

/-- The length read from a stream that starts with zeros, at a frame that is shifted by them. -/
theorem shifted_announced {r : Nat} (hrel : sock.Reliable)
    (hs : sock.rest = List.replicate r 0 ++ (frame data ++ rest)) :
    announced sock * 256 ^ r ≤ (frameLen data).toNat := by
  have hhead := (headerLen_bounds hrel).2
  have hlong : headerLen sock ≤ (List.replicate r 0 ++ htonl (frameLen data)).length := by
    rw [List.length_append, htonl_length]
    omega
  have hwindow : sock.rest.take (headerLen sock) =
      (List.replicate r 0 ++ htonl (frameLen data)).take (headerLen sock) := by
    rw [hs]
    unfold frame
    rw [List.append_assoc, ← List.append_assoc, List.take_append_of_le_length hlong]
  have hann := announced_eq hhead hwindow
  rw [List.length_take_of_le hlong] at hann
  have hmul := ofBytes_take_mul_le (List.replicate r 0 ++ htonl (frameLen data)) hhead
    (by rw [List.length_append, List.length_replicate, htonl_length])
  rwa [← hann, ofBytes_append, ofBytes_zeros, Nat.zero_mul, Nat.zero_add, ofBytes_htonl] at hmul

/-- **Behind zeros**, the later payloads come out right exactly if they are all empty and what
    the last call makes of the rest is refused. -/
theorem shifted_iff {tail : List UInt8} : ∀ {payloads : List (List UInt8)} {sock : Socket} {r : Nat},
    sock.Reliable → 0 < r →
    sock.rest = List.replicate r 0 ++ (payloads.flatMap frame ++ tail) →
    (Delivers recvPacket sock payloads ↔
      (∀ q ∈ payloads, q = []) ∧ Refuses (skip payloads.length sock))
  | [], sock, r, hrel, _, _ => by
    rw [delivers_nil hrel]
    exact ⟨fun h => ⟨fun _ hq => (nomatch hq), h⟩, fun h => h.2⟩
  | data :: payloads, sock, r, hrel, hr, hs => by
    rw [List.flatMap_cons, List.append_assoc] at hs
    have hhead := (headerLen_bounds hrel).2
    have hmul := shifted_announced hrel hs
    have hpow : 256 ≤ 256 ^ r := Nat.le_self_pow (by omega) 256
    have hscale := Nat.mul_le_mul_left (announced sock) hpow
    -- the stream behind an empty payload
    have hnext : data = [] → (sock.advance (headerLen sock)).rest =
        List.replicate (r + 4 - headerLen sock) 0 ++ (payloads.flatMap frame ++ tail) := by
      rintro rfl
      have hframe : frame [] = List.replicate 4 0 := rfl
      rw [advance_rest, hs, hframe, ← List.append_assoc, List.replicate_append_replicate,
        List.drop_append_of_le_length, List.drop_replicate]
      rw [List.length_replicate]
      omega
    rw [List.forall_mem_cons, List.length_cons, skip, and_assoc]
    constructor
    · rintro ⟨q, hq, hok, hdata, hrest⟩
      obtain ⟨hlen, _, hsock⟩ := received_data hrel hq hok hdata
      have hle := frameLen_le data
      have hnil : data = [] := List.eq_nil_of_length_eq_zero (by omega)
      have ih := shifted_iff (hrel.advance (headerLen sock)) (by omega) (hnext hnil)
      rw [hsock, hnil, List.length_nil, Nat.add_zero] at hrest
      exact ⟨hnil, ih.mp hrest⟩
    · rintro ⟨hnil, hrest⟩
      have ih := shifted_iff (hrel.advance (headerLen sock)) (by omega) (hnext hnil)
      subst hnil
      have hzero : (frameLen []).toNat = 0 := rfl
      have hne : sock.rest ≠ [] := by
        intro h0
        have := congrArg List.length hs
        rw [h0, List.length_append, List.length_replicate, List.length_nil] at this
        omega
      have hann : announced sock = ([] : List UInt8).length := by
        rw [List.length_nil]
        omega
      have hrecv := recvPacket_of_announced hrel hne hann List.nil_prefix
      rw [List.length_nil, Nat.add_zero] at hrecv
      exact (delivers_cons hrecv).mpr (ih.mpr hrest)

/-! ## Whole streams -/

/-- **The exact condition**, for frames followed by anything. -/
theorem delivers_iff (tail : List UInt8) : ∀ {payloads : List (List UInt8)} {sock : Socket},
    sock.Reliable → sock.rest = payloads.flatMap frame ++ tail →
    (Delivers recvPacket sock payloads ↔ Intact sock payloads)
  | [], sock, hrel, _ => delivers_nil hrel
  | data :: payloads, sock, hrel, hs => by
    rw [List.flatMap_cons, List.append_assoc] at hs
    unfold Intact
    rcases Nat.lt_or_ge (headerLen sock) 4 with hsplit | hwhole
    · have hno : ¬ headerLen sock = 4 := by omega
      simp only [hno, false_and, false_or, hsplit, true_and]
      rw [recvPacket_split hrel hs hsplit]
      have hshift : ∀ (hlt : data.length < 2 ^ 32)
          (hdvd : 256 ^ (4 - headerLen sock) ∣ data.length)
          (hzeros : data = List.replicate data.length 0),
          (Delivers recvPacket (sock.advance (headerLen sock + data.length)) payloads ↔
            (∀ q ∈ payloads, q = []) ∧
            Refuses (skip payloads.length (sock.advance (headerLen sock + data.length)))) :=
        fun hlt hdvd hzeros => shifted_iff (hrel.advance _) (by omega)
          (split_behind hs hsplit hlt hdvd hzeros)
      constructor
      · rintro ⟨hlt, hdvd, hzeros, hrest⟩
        exact ⟨hlt, hdvd, hzeros, (hshift hlt hdvd hzeros).mp hrest⟩
      · rintro ⟨hlt, hdvd, hzeros, hrest⟩
        exact ⟨hlt, hdvd, hzeros, (hshift hlt hdvd hzeros).mpr hrest⟩
    · have h4 : headerLen sock = 4 := by
        have := (headerLen_bounds hrel).2
        omega
      simp only [h4, true_and, Nat.lt_irrefl, false_and, or_false]
      have hstep : data.length < 2 ^ 32 → (Delivers recvPacket sock (data :: payloads) ↔
          Intact (sock.advance (4 + data.length)) payloads) := by
        intro hlt
        rw [delivers_cons (recvPacket_frame hrel hs hlt h4)]
        refine delivers_iff tail (hrel.advance _) ?_
        rw [advance_rest, hs, frame_eq_packet hlt]
        exact List.drop_left' (packet_length data)
      constructor
      · intro h
        obtain ⟨r, hr, hok, hdata, _⟩ := id h
        have hlt : data.length < 2 ^ 32 :=
          (received_data hrel hr hok hdata).1 ▸ UInt32.toNat_lt _
        exact ⟨hlt, (hstep hlt).mp h⟩
      · rintro ⟨hlt, h⟩
        exact (hstep hlt).mpr h

/-- Zeros are never refused. -/
theorem not_refuses_zeros {r : Nat} (hrel : sock.Reliable) (hr : 0 < r)
    (hs : sock.rest = List.replicate r 0) : ¬ Refuses sock := by
  have hann : announced sock = 0 := by
    rw [announced_eq (headerLen_bounds hrel).2 (by rw [hs, List.take_replicate]), ofBytes_append,
      ofBytes_zeros, ofBytes_zeros, Nat.zero_mul]
  rintro (hnil | hlt)
  · rw [hs] at hnil
    have := congrArg List.length hnil
    rw [List.length_replicate, List.length_nil] at this
    omega
  · rw [hann] at hlt
    exact Nat.not_lt_zero _ hlt

theorem not_refuses_skip : ∀ {n : Nat} {sock : Socket} {r : Nat}, sock.Reliable → 4 * n < r →
    sock.rest = List.replicate r 0 → ¬ Refuses (skip n sock)
  | 0, _, _, hrel, hr, hs => not_refuses_zeros hrel (by omega) hs
  | n + 1, sock, r, hrel, hr, hs => by
    have hhead := (headerLen_bounds hrel).2
    show ¬ Refuses (skip n (sock.advance (headerLen sock)))
    refine not_refuses_skip (r := r - headerLen sock) (hrel.advance _) (by omega) ?_
    rw [advance_rest, hs, List.drop_replicate]

/-- On a complete stream a split length is always noticed. -/
theorem intact_iff_whole : ∀ {payloads : List (List UInt8)} {sock : Socket}, sock.Reliable →
    sock.rest = payloads.flatMap frame → (Intact sock payloads ↔ WholeHeaders sock payloads)
  | [], _, _, hs => ⟨fun _ => trivial, fun _ => Or.inl hs⟩
  | data :: payloads, sock, hrel, hs => by
    rw [List.flatMap_cons] at hs
    unfold Intact WholeHeaders
    refine and_congr_right fun hlt => ?_
    have hnext : (sock.advance (4 + data.length)).rest = payloads.flatMap frame := by
      rw [advance_rest, hs, frame_eq_packet hlt]
      exact List.drop_left' (packet_length data)
    rw [intact_iff_whole (hrel.advance _) hnext]
    refine or_iff_left ?_
    rintro ⟨hsplit, hdvd, hzeros, hempty, href⟩
    have hbehind := split_behind hs hsplit hlt hdvd hzeros
    have hrest : payloads.flatMap frame = List.replicate (4 * payloads.length) 0 := by
      have hall : payloads = List.replicate payloads.length [] := List.eq_replicate_of_mem hempty
      have hframe : frame [] = List.replicate 4 0 := rfl
      generalize payloads.length = n at hall
      rw [hall, List.flatMap_replicate, hframe, List.flatten_replicate_replicate, Nat.mul_comm]
    rw [hrest, List.replicate_append_replicate] at hbehind
    exact not_refuses_skip (hrel.advance _) (by omega) hbehind href

end Server

/-- **The server's decoder under fragmentation.**  On a stream of frames as `send_packet` writes
    them, followed by anything (by nothing, or by a part of a frame), the calls of `recv_packet`
    return true with exactly the payloads in order and then false if and only if the stream is
    `Intact`; without a part of a frame at the end, this says that each length is delivered by
    one `recv` and each payload has fewer than `2^32` bytes. -/
theorem server_decodes (sock : Socket) (hrel : sock.Reliable) (payloads : List (List UInt8)) :
    (∀ tail, sock.rest = payloads.flatMap frame ++ tail →
      (Delivers Server.recvPacket sock payloads ↔ Server.Intact sock payloads)) ∧
    (sock.rest = payloads.flatMap frame →
      (Delivers Server.recvPacket sock payloads ↔ Server.WholeHeaders sock payloads)) ∧
    ∀ out data, ∃ r, Client.sendPacket out data = some r ∧
      (r.ok = true → r.sock.sent = out.sent ++ frame data) := by
  refine ⟨fun tail hs => Server.delivers_iff tail hrel hs, fun hs => ?_, Client.sendPacket_frame⟩
  rw [Server.delivers_iff [] hrel (by rw [hs, List.append_nil]),
    Server.intact_iff_whole hrel hs]

/-- A frame delivered in pieces of at most nine bytes. -/
theorem server_decodes_nine :
    Delivers Server.recvPacket ⟨frame [65, 66], 0, fun _ => .data 9⟩ [[65, 66]] :=
  ((server_decodes ⟨frame [65, 66], 0, fun _ => .data 9⟩ (fun _ => ⟨9, rfl⟩) [[65, 66]]).2.1
    (by decide)).mpr ⟨by decide, by decide, trivial⟩

/-- A frame delivered byte by byte comes out as an empty packet; so does half of a length. -/
theorem split_length :
    ¬ Delivers Server.recvPacket ⟨frame [65], 0, fun _ => .data 1⟩ [[65]] ∧
    ([0, 0] <+: frame [65] ∧
      ¬ Delivers Server.recvPacket ⟨[0, 0], 0, fun _ => .data 4⟩ []) := by
  refine ⟨?_, by decide, ?_⟩
  · rintro ⟨r, hr, _, hdata, _⟩
    have hrun : Server.recvPacket ⟨frame [65], 0, fun _ => .data 1⟩ =
        some ⟨true, [], ⟨[0, 0, 1, 65], 1, fun _ => .data 1⟩, []⟩ := rfl
    rw [hrun, Option.some.injEq] at hr
    subst hr
    cases hdata
  · rintro ⟨r, hr, hno⟩
    have hrun : Server.recvPacket ⟨[0, 0], 0, fun _ => .data 4⟩ =
        some ⟨true, [], ⟨[], 2, fun _ => .data 4⟩, []⟩ := rfl
    rw [hrun, Option.some.injEq] at hr
    subst hr
    cases hno

end CppBackend.Packet
