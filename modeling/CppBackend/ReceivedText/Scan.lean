import CppBackend.ReceivedText.Model

/-!
# Where the search for the terminator stops

* `scan_stored_iff`, `scan_buffer_iff` — for a buffer with any contents: the search stays within the stored
  bytes, and within the buffer;
* `handleRead_text`, `mainLoop_text` — where it stays inside, the text is made of the stored bytes;
* `handleRead_reads`, `mainLoop_reads` — where it does not, the two programs read on;
* `scan_inside_iff` — when the search stays inside, and what the two programs make of the message then.
-/

set_option autoImplicit false

namespace CppBackend.ReceivedText

open Library.CString Library.Loop

variable {got before : List UInt8} {behind : Nat → UInt8} {bound : Nat}

/-! ## The buffer -/

theorem memory_stored {k : Nat} (hk : k < got.length) :
    got[k]? = some (memory got before behind k) := by
  unfold memory
  rw [List.getElem?_append_left hk, List.getElem?_eq_getElem hk, Option.getD_some]

theorem memory_buffer {k : Nat} (hk : k < (got ++ before.drop got.length).length) :
    (got ++ before.drop got.length)[k]? = some (memory got before behind k) := by
  unfold memory
  rw [List.getElem?_eq_getElem hk, Option.getD_some]

/-- The search stays within the stored bytes. -/
theorem scan_stored_iff :
    (∀ i, Reads 0 (memory got before behind) i → i < got.length) ↔ 0 ∈ got := by
  rw [reads_below_iff, List.mem_iff_getElem?]
  constructor
  · rintro ⟨k, hk, heq⟩
    exact ⟨k, by rw [memory_stored hk, heq]⟩
  · rintro ⟨k, hk⟩
    obtain ⟨hlt, -⟩ := List.getElem?_eq_some_iff.mp hk
    have hmem : got[k]? = some (memory got before behind k) := memory_stored hlt
    exact ⟨k, hlt, Option.some.inj (hmem.symm.trans hk)⟩

/-- The search stays within the buffer. -/
theorem scan_buffer_iff (hlen : got.length ≤ before.length) :
    (∀ i, Reads 0 (memory got before behind) i → i < before.length) ↔
      0 ∈ got ∨ 0 ∈ before.drop got.length := by
  have htotal : (got ++ before.drop got.length).length = before.length := by
    rw [List.length_append, List.length_drop]
    omega
  rw [reads_below_iff, ← List.mem_append, List.mem_iff_getElem?]
  constructor
  · rintro ⟨k, hk, heq⟩
    exact ⟨k, by rw [memory_buffer (htotal ▸ hk), heq]⟩
  · rintro ⟨k, hk⟩
    obtain ⟨hlt, -⟩ := List.getElem?_eq_some_iff.mp hk
    have hmem : _ = some (memory got before behind k) := memory_buffer hlt
    exact ⟨k, htotal ▸ hlt, Option.some.inj (hmem.symm.trans hk)⟩

/-! ## The two programs -/

open TCPServerCommunicate ReactorServer

theorem zeros_length : zeros.length = 1024 := List.length_replicate

theorem zero_mem_zeros : 0 ∈ zeros.drop got.length ↔ got.length < 1024 := by
  unfold zeros
  rw [List.drop_replicate, List.mem_replicate]
  constructor
  · rintro ⟨h, -⟩
    omega
  · intro h
    exact ⟨by omega, rfl⟩

theorem scan_zeros_iff (hlen : got.length ≤ 1024) :
    (∀ i, Reads 0 (memory got zeros behind) i → i < 1024) ↔ 0 ∈ got ∨ got.length < 1024 := by
  have h : (∀ i, Reads 0 (memory got zeros behind) i → i < zeros.length) ↔
      0 ∈ got ∨ 0 ∈ zeros.drop got.length := by
    apply scan_buffer_iff
    rw [zeros_length]
    exact hlen
  rw [zeros_length, zero_mem_zeros] at h
  exact h

/-! ## What the text is -/

/-- The line with the text of the message, and the task that sends all its bytes back. -/
def received (fd : Nat) (got : List UInt8) : List UInt8 × Handled :=
  (utf8 ("[Info] Message recieved from connection " ++ toString fd ++ ": ") ++ text 0 got, .submitted got)

/-- A zero among the stored bytes: the printed text ends before it, and all bytes are sent back. -/
theorem handleRead_text (fd : Nat) (hzero : 0 ∈ got) (hbound : got.length ≤ bound) :
    handleRead fd (.stored got) before behind bound = some (received fd got) := by
  have hstring : string 0 (memory got before behind) bound = some (text 0 got) :=
    string_eq hzero (fun k hk => memory_stored hk) hbound
  simp only [handleRead, Recv.got, hstring]
  rfl

/-- `handleRead` returns within so many reads of the buffer only if the search stays in them. -/
theorem handleRead_reads {fd : Nat} {recv : Recv} (h : (handleRead fd recv before behind bound).isSome) :
    ∀ i, Reads 0 (memory recv.got before behind) i → i < bound := by
  rw [← string_isSome_iff]
  cases hs : string 0 (memory recv.got before behind) bound with
  | some temp => rfl
  | none =>
    simp only [handleRead, hs] at h
    cases h

/-- The text of the message is shown, and sent in the answer. -/
def answered (s : Shown) (got : List UInt8) : Shown :=
  { s with cout := s.cout ++ [utf8 "Client says: " ++ text 0 got]
           sent := s.sent ++ [utf8 "Message received: " ++ text 0 got] }

/-- The text of a message that leaves room in the buffer, or has a zero in it. -/
theorem mainLoop_text (s : Shown) (hlen : got.length ≤ 1024) (h : 0 ∈ got ∨ got.length < 1024)
    (hbound : 1024 ≤ bound) :
    mainLoop behind bound (.stored got) s = some (.again (answered s got)) := by
  have hstring : string 0 (memory got zeros behind) bound = some (text 0 got) := by
    rcases h with hzero | hless
    · exact string_eq hzero (fun k hk => memory_stored hk) (by omega)
    · have hall : (got ++ zeros.drop got.length).length = 1024 := by
        rw [List.length_append, List.length_drop, zeros_length]
        omega
      obtain ⟨rest, hrest⟩ : ∃ rest, zeros.drop got.length = 0 :: rest := by
        refine ⟨List.replicate (1024 - got.length - 1) 0, ?_⟩
        unfold zeros
        rw [List.drop_replicate, ← List.replicate_succ]
        congr 1
        omega
      rw [string_eq (List.mem_append_right _ (zero_mem_zeros.mpr hless)) (fun k hk => memory_buffer hk)
        (by omega), hrest, text_append_nul]
  simp only [mainLoop, hstring]
  rfl

/-- A pass of the loop ends within so many reads of the buffer only if the search stays in them. -/
theorem mainLoop_reads {s : Shown} (h : (mainLoop behind bound (.stored got) s).isSome) :
    ∀ i, Reads 0 (memory got zeros behind) i → i < bound := by
  rw [← string_isSome_iff]
  cases hs : string 0 (memory got zeros behind) bound with
  | some temp => rfl
  | none =>
    simp only [mainLoop, hs] at h
    cases h

/-! ## Both together -/

/-- **Where the search stays**: in `reactor_server.cpp` it reads only stored bytes of the buffer exactly if
    a zero is among them; in `TCP_ServerCommunicate.cpp` it stays in the buffer exactly if a zero is among
    the stored bytes or they do not fill the buffer.  Just then `handleRead` is done with the text within
    as many reads as bytes were stored, and the loop of `main` within 1024; the text is that of the
    stored bytes. -/
theorem scan_inside_iff (got before : List UInt8) (behind : Nat → UInt8) (hgot : (Recv.stored got).Fits)
    (fd : Nat) (s : Shown) :
    ((∀ i, Reads 0 (memory got before behind) i → i < 1024 ∧ i < got.length) ↔ 0 ∈ got) ∧
    ((∀ i, Reads 0 (memory got zeros behind) i → i < 1024) ↔ 0 ∈ got ∨ got.length < 1024) ∧
    (handleRead fd (.stored got) before behind got.length = some (received fd got) ↔ 0 ∈ got) ∧
    (mainLoop behind 1024 (.stored got) s = some (.again (answered s got)) ↔
      0 ∈ got ∨ got.length < 1024) := by
  obtain ⟨-, hlen⟩ := hgot
  have hstored : (∀ i, Reads 0 (memory got before behind) i → i < got.length) ↔ 0 ∈ got :=
    scan_stored_iff
  refine ⟨?_, scan_zeros_iff hlen, ⟨fun h => ?_, fun hzero => ?_⟩, ⟨fun h => ?_, fun hroom => ?_⟩⟩
  · rw [← hstored]
    refine forall_congr' fun i => imp_congr_right fun _ => ?_
    omega
  · apply hstored.mp
    apply @handleRead_reads _ _ _ fd (.stored got)
    rw [h]
    rfl
  · exact handleRead_text fd hzero (Nat.le_refl _)
  · apply (scan_zeros_iff hlen).mp
    exact mainLoop_reads (s := s) (by rw [h]; rfl)
  · exact mainLoop_text s hlen hroom (Nat.le_refl _)

/-- Three bytes with a terminator. -/
theorem scan_inside_iff_terminated :
    (∀ i, Reads 0 (memory [104, 105, 0] (List.replicate 1024 120) fun _ => 120) i → i < 1024 ∧ i < 3) ∧
      (∀ i, Reads 0 (memory [104, 105, 0] zeros fun _ => 120) i → i < 1024) ∧
      handleRead 7 (.stored [104, 105, 0]) (List.replicate 1024 120) (fun _ => 120) 3 =
        some (received 7 [104, 105, 0]) ∧
      mainLoop (fun _ => 120) 1024 (.stored [104, 105, 0]) ⟨[], [], []⟩ =
        some (.again (answered ⟨[], [], []⟩ [104, 105, 0])) := by
  have h := scan_inside_iff [104, 105, 0] (List.replicate 1024 120) (fun _ => 120)
    ⟨by decide, by decide⟩ 7 ⟨[], [], []⟩
  exact ⟨h.1.mpr (by decide), h.2.1.mpr (Or.inl (by decide)), h.2.2.1.mpr (by decide),
    h.2.2.2.mpr (Or.inl (by decide))⟩

/-- A text of two bytes in front of a used buffer, and 1024 bytes without a zero. -/
theorem scan_overruns :
    ¬ (∀ i, Reads 0 (memory [104, 105] (List.replicate 1024 120) fun _ => 0) i → i < 1024 ∧ i < 2) ∧
    ¬ (∀ i, Reads 0 (memory (List.replicate 1024 97) zeros fun _ => 0) i → i < 1024) := by
  constructor
  · intro h
    have hmem : (0 : UInt8) ∈ [104, 105] := scan_stored_iff.mp fun i hi => (h i hi).2
    revert hmem
    decide
  · intro h
    have hlen : (List.replicate 1024 (97 : UInt8)).length = 1024 := List.length_replicate
    rcases (scan_zeros_iff (Nat.le_of_eq hlen)).mp h with hmem | hlt
    · exact absurd (List.eq_of_mem_replicate hmem) (by decide)
    · omega

end CppBackend.ReceivedText
