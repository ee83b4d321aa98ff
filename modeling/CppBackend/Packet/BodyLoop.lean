import CppBackend.Packet.Receive

/-!
# The counters of the loop on the payload

`recv_packet` of `package_sticking.cpp` behind the header: a signed result of `recv`, a `uint32_t`
count and the minimum of the buffer and what is left, for every length, also one made of garbage.

* `Body.Inv.counters` — at the head of a pass, for a buffer of any size;
* `recvBody_taken` — what the loop has taken from the stream when it returns;
* `body_loop` — the loop of the server with its 4096 bytes.
-/

set_option autoImplicit false

namespace CppBackend.Packet

open Library.Loop Library.Stream

variable {size dataLen : UInt32} {report : String → List String} {sock : Socket} {b : Body}
  {r : Received}

/-- The third argument of `recv`. -/
def Body.request (size dataLen : UInt32) (b : Body) : UInt32 := min size (dataLen - b.totalRead)

/-- The operands of a pass: nothing wraps, and the request is at least 1 and fits the buffer. -/
structure Body.Counts (size dataLen : UInt32) (b : Body) : Prop where
  remaining : (dataLen - b.totalRead).toNat = dataLen.toNat - b.totalRead.toNat
  lower : 1 ≤ (b.request size dataLen).toNat
  upper : (b.request size dataLen).toNat ≤ size.toNat
  total : ∀ got sock', b.sock.recv (b.request size dataLen).toNat = (.ok got, sock') →
    (b.totalRead + UInt32.ofNat got.length).toNat = b.totalRead.toNat + got.length

theorem Body.Inv.counters (hi : Body.Inv sock dataLen b) (hsize : 0 < size)
    (hlt : b.totalRead < dataLen) : Body.Counts size dataLen b := by
  obtain ⟨h0, hreq⟩ := hi.request hsize hlt
  have hlt' : b.totalRead.toNat < dataLen.toNat := UInt32.lt_iff_toNat_lt.mp hlt
  refine ⟨UInt32.toNat_sub_of_le _ _ (UInt32.le_iff_toNat_le.mpr (by omega)), h0, ?_, ?_⟩
  · unfold Body.request
    rw [toNat_min]
    exact Nat.min_le_left _ _
  · intro got sock' hrecv
    have hgot : got.length + b.outData.length ≤ dataLen.toNat := by
      rcases List.eq_nil_or_concat got with rfl | ⟨_, _, rfl⟩
      · simpa using hi.bound
      · obtain ⟨k, -, hk, hle, hlen, -⟩ := recv_got h0 (by simp) hrecv
        rw [hlen, List.length_take_of_le hle]
        omega
    have hmax := dataLen.toNat_lt
    have hcount := hi.count
    rw [UInt32.toNat_add, UInt32.toNat_ofNat']
    omega

/-- What `out_data` and the stream are when the loop is left, by any of its exits. -/
structure Received.Taken (sock : Socket) (dataLen : UInt32) (r : Received) : Prop where
  outData : r.outData = sock.rest.take r.outData.length
  sock : r.sock = sock.advance r.outData.length
  bound : r.outData.length ≤ dataLen.toNat
  ok_iff : r.ok = true ↔ r.outData.length = dataLen.toNat

theorem body_exit (hsize : 0 < size) (hi : Body.Inv sock dataLen b)
    (h : bodyStep size report dataLen b = .done r) : Received.Taken sock dataLen r := by
  have hcount := hi.count
  have hbound := hi.bound
  unfold bodyStep at h
  split at h
  · rename_i hlt
    have hlt' : b.totalRead.toNat < dataLen.toNat := UInt32.lt_iff_toNat_lt.mp hlt
    obtain ⟨h0, -⟩ := hi.request hsize hlt
    split at h
    · rename_i e sock' hrecv
      cases h
      -- a call that fails takes nothing
      cases recv_inv h0 hrecv with
      | failed => exact ⟨hi.outData, hi.sock, hbound, by simp; omega⟩
    · rename_i sock' hrecv
      cases h
      have hsame := (recv_ended h0 hrecv).2
      subst hsame
      exact ⟨hi.outData, hi.sock, hbound, by simp; omega⟩
    · cases h
  · rename_i hge
    have hge' : ¬ b.totalRead.toNat < dataLen.toNat := UInt32.lt_iff_toNat_lt.not.mp hge
    cases h
    exact ⟨hi.outData, hi.sock, hbound, by simp; omega⟩

theorem recvBody_taken (size : UInt32) (report : String → List String) (dataLen : UInt32)
    (hsize : 0 < size) (sock : Socket) :
    ∃ r, recvBody size report dataLen sock = some r ∧ Received.Taken sock dataLen r :=
  run_spec (μ := fun b : Body => b.sock.rest.length) (fun _ _ hi h => body_again hsize hi h)
    (fun _ _ hi h => body_exit hsize hi h) (Body.Inv.init sock dataLen) (Nat.lt_succ_self _)

/-- **The body loop of the server**, for every length and every stream: its two counters agree and
    stay below the length, its requests are between 1 and 4096 with no wrap in either
    operation, and when it returns it has taken the bytes of `out_data` and no others, all of the length
    exactly if it returns true. -/
theorem body_loop (dataLen : UInt32) (sock : Socket) :
    (∀ b, Heads (bodyStep 4096 (fun _ => []) dataLen) ⟨[], 0, sock⟩ b →
      Body.Inv sock dataLen b ∧ (b.totalRead < dataLen → Body.Counts 4096 dataLen b)) ∧
    ∃ r, recvBody 4096 (fun _ => []) dataLen sock = some r ∧ Received.Taken sock dataLen r := by
  refine ⟨fun b hb => ?_, recvBody_taken 4096 _ dataLen (by decide) sock⟩
  have hi := body_heads (by decide) hb
  exact ⟨hi, fun hlt => hi.counters (by decide) hlt⟩

/-- A length of garbage before a stream of two bytes, which arrive one by one. -/
theorem body_loop_garbage : ∃ r,
    recvBody 4096 (fun _ => []) 4294967295 ⟨[104, 105], 0, fun _ => .data 1⟩ = some r ∧
      r.ok = false := by
  obtain ⟨r, hr, htaken⟩ := (body_loop 4294967295 ⟨[104, 105], 0, fun _ => .data 1⟩).2
  refine ⟨r, hr, Bool.eq_false_iff.mpr fun hok => ?_⟩
  have hall := htaken.ok_iff.mp hok
  have hlen := congrArg List.length htaken.outData
  rw [List.length_take, hall] at hlen
  simp at hlen

end CppBackend.Packet
