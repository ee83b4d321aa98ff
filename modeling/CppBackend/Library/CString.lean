import CppBackend.Library.Loop
import Mathlib.Data.List.Basic

/-!
# Text in a buffer

A buffer holds text up to the first terminator `nul`; what stands behind it does not matter.

* `text` — the text in a buffer;
* `text_fill` — what was stored in a buffer and terminated comes out up to its first `nul`;
* `text_received` — the same for a buffer that is filled up to its `limit`;
* `text_eq_self`, `texts_eq_flatten_iff` — nothing is lost where there is no `nul`, and by a conversion
  piece by piece only there;
* `scanStep` — the search for the terminator, over memory that does not end with the buffer;
  `reads_below_iff` says when it stays in the first so many places, `string_isSome_iff` that it needs as
  many reads, `string_eq` what it makes of a terminated text.
-/

set_option autoImplicit false

namespace Library.CString

variable {α : Type} {nul : α}

/-- The buffer when the bytes have been stored at its beginning and terminated. -/
def fill (nul : α) (buffer bytes : List α) : List α :=
  (bytes ++ buffer.drop bytes.length).set bytes.length nul

@[simp] theorem fill_length {buffer bytes : List α} (h : bytes.length ≤ buffer.length) :
    (fill nul buffer bytes).length = buffer.length := by
  simp only [fill, List.length_set, List.length_append, List.length_drop]
  omega

/-- A buffer that has been cleared. -/
def blank (nul : α) (size : Nat) : List α := List.replicate size nul

/-- How much may be stored so that a terminator fits in behind it: `sizeof(buffer) - 1`. -/
def limit (size : Nat) : Nat := size - 1

theorem blank_length (nul : α) (size : Nat) : (blank nul size).length = size := List.length_replicate

theorem take_limit_lt {size : Nat} (h : 0 < size) (bytes : List α) : (bytes.take (limit size)).length < size := by
  rw [List.length_take, limit]
  omega

theorem fill_limit_length {buffer : List α} {size : Nat} (h : 0 < size) (hb : buffer.length = size) (bytes : List α) :
    (fill nul buffer (bytes.take (limit size))).length = size := by
  subst hb
  exact fill_length (Nat.le_of_lt (take_limit_lt h bytes))

variable [DecidableEq α]

/-- `std::string(buffer)`. -/
def text (nul : α) (buffer : List α) : List α := buffer.takeWhile (· ≠ nul)

/-- The texts of several buffers, put together. -/
def texts (nul : α) (chunks : List (List α)) : List α := chunks.flatMap (text nul)

@[simp] theorem text_nil : text nul ([] : List α) = [] := rfl

@[simp] theorem text_nul (rest : List α) : text nul (nul :: rest) = [] := by
  simp [text]

theorem text_cons {x : α} (hx : x ≠ nul) (rest : List α) : text nul (x :: rest) = x :: text nul rest := by
  simp [text, hx]

theorem text_length_le (bytes : List α) : (text nul bytes).length ≤ bytes.length :=
  List.takeWhile_prefix _ |>.length_le

theorem text_length_lt : ∀ {bytes : List α}, nul ∈ bytes → (text nul bytes).length < bytes.length
  | x :: bytes, h => by
    by_cases hx : x = nul
    · rw [hx, text_nul]
      exact Nat.succ_pos _
    · have hmem : nul ∈ bytes := (List.mem_cons.mp h).resolve_left (Ne.symm hx)
      rw [text_cons hx, List.length_cons, List.length_cons]
      exact Nat.succ_lt_succ (text_length_lt hmem)

theorem text_eq_self : ∀ {bytes : List α}, nul ∉ bytes → text nul bytes = bytes
  | [], _ => rfl
  | x :: bytes, h => by
    rw [List.mem_cons, not_or] at h
    rw [text_cons (Ne.symm h.1), text_eq_self h.2]

/-- A terminator behind the bytes ends the text at the latest. -/
theorem text_append_nul : ∀ (bytes rest : List α), text nul (bytes ++ nul :: rest) = text nul bytes
  | [], rest => text_nul rest
  | x :: bytes, rest => by
    rw [List.cons_append]
    by_cases hx : x = nul
    · rw [hx, text_nul, text_nul]
    · rw [text_cons hx, text_cons hx, text_append_nul bytes rest]

/-- What is left in the buffer from before does not come into the text. -/
theorem text_fill {buffer bytes : List α} (h : bytes.length < buffer.length) :
    text nul (fill nul buffer bytes) = text nul bytes := by
  obtain ⟨x, rest, hdrop⟩ : ∃ x rest, buffer.drop bytes.length = x :: rest :=
    ⟨_, _, List.drop_eq_getElem_cons h⟩
  unfold fill
  rw [hdrop, List.set_append_right _ _ (Nat.le_refl _), Nat.sub_self, List.set_cons_zero]
  exact text_append_nul bytes rest

/-- What has been received comes out up to its first `nul`. -/
theorem text_received {buffer : List α} {size : Nat} (h : 0 < size) (hb : buffer.length = size) (bytes : List α) :
    text nul (fill nul buffer (bytes.take (limit size))) = text nul (bytes.take (limit size)) := by
  subst hb
  exact text_fill (take_limit_lt h bytes)

theorem texts_length_le : ∀ chunks : List (List α), (texts nul chunks).length ≤ chunks.flatten.length
  | [] => Nat.le_refl _
  | chunk :: chunks => by
    have : (text nul chunk).length ≤ chunk.length := text_length_le chunk
    have := texts_length_le chunks
    simp only [texts, List.flatMap_cons, List.flatten_cons, List.length_append] at this ⊢
    omega

theorem texts_length_lt : ∀ {chunks : List (List α)}, nul ∈ chunks.flatten →
    (texts nul chunks).length < chunks.flatten.length
  | chunk :: chunks, h => by
    have hchunk : (text nul chunk).length ≤ chunk.length := text_length_le chunk
    have hchunks : (texts nul chunks).length ≤ chunks.flatten.length := texts_length_le chunks
    rw [List.flatten_cons, List.mem_append] at h
    simp only [texts, List.flatMap_cons, List.flatten_cons, List.length_append] at hchunks ⊢
    rcases h with h | h
    · have := text_length_lt h
      omega
    · have := texts_length_lt h
      simp only [texts] at this
      omega

theorem texts_eq_flatten : ∀ {chunks : List (List α)}, nul ∉ chunks.flatten →
    texts nul chunks = chunks.flatten
  | [], _ => rfl
  | chunk :: chunks, h => by
    rw [List.flatten_cons, List.mem_append, not_or] at h
    simp only [texts, List.flatMap_cons, List.flatten_cons, text_eq_self h.1]
    exact congrArg _ (texts_eq_flatten h.2)

theorem texts_eq_flatten_iff {chunks : List (List α)} :
    texts nul chunks = chunks.flatten ↔ nul ∉ chunks.flatten := by
  refine ⟨fun h hmem => ?_, texts_eq_flatten⟩
  have := texts_length_lt hmem
  rw [h] at this
  exact Nat.lt_irrefl _ this

/-! ## The search for the terminator -/

open Library.Loop

variable {mem : Nat → α}

/-- One pass of the search: read the next place. -/
def scanStep (nul : α) (mem : Nat → α) (i : Nat) : Pass Nat Nat :=
  if mem i = nul then .done i else .again (i + 1)

/-- The search reads this place. -/
def Reads (nul : α) (mem : Nat → α) (i : Nat) : Prop := Heads (scanStep nul mem) 0 i

/-- `std::string(buffer)` for a buffer that need not hold a terminator, with a bound on the places
    that are read. -/
def string (nul : α) (mem : Nat → α) (bound : Nat) : Option (List α) :=
  (run (scanStep nul mem) bound 0).map fun n => (List.range n).map mem

/-- A place is read when there is no terminator before it. -/
theorem reads_iff {i : Nat} : Reads nul mem i ↔ ∀ k < i, mem k ≠ nul := by
  constructor
  · intro h
    apply Heads.invariant (I := fun i => ∀ k < i, mem k ≠ nul) _ _ h
    · intro k hk
      omega
    · intro i i' hi hs k hk
      unfold scanStep at hs
      split at hs
      · cases hs
      · rename_i hne
        cases hs
        rcases Nat.lt_succ_iff_lt_or_eq.mp hk with hk | rfl
        · exact hi k hk
        · exact hne
  · intro h
    induction i with
    | zero => exact Relation.ReflTransGen.refl
    | succ i ih =>
      apply Relation.ReflTransGen.tail (ih fun k hk => h k (by omega))
      unfold scanStep
      rw [if_neg (h i (Nat.lt_succ_self i))]

/-- The search stays within the first places just if one of them holds a terminator. -/
theorem reads_below_iff (m : Nat) :
    (∀ i, Reads nul mem i → i < m) ↔ ∃ k, k < m ∧ mem k = nul := by
  constructor
  · intro h
    by_contra hno
    apply Nat.lt_irrefl m
    apply h m
    rw [reads_iff]
    intro k hk heq
    exact hno ⟨k, hk, heq⟩
  · rintro ⟨k, hk, heq⟩ i hi
    by_contra hge
    exact reads_iff.mp hi k (by omega) heq

/-- So many reads are enough for the search just if there is a terminator among the places read. -/
theorem run_scan_isSome : ∀ (bound i : Nat),
    (run (scanStep nul mem) bound i).isSome ↔ ∃ k, i ≤ k ∧ k < i + bound ∧ mem k = nul
  | 0, i => by
    refine ⟨fun h => (by cases h), ?_⟩
    rintro ⟨k, h0, hk, -⟩
    omega
  | bound + 1, i => by
    by_cases hi : mem i = nul
    · simp only [run, scanStep, hi, if_true, Option.isSome_some, true_iff]
      exact ⟨i, Nat.le_refl i, by omega, hi⟩
    · simp only [run, scanStep, hi, if_false]
      rw [run_scan_isSome bound (i + 1)]
      constructor
      · rintro ⟨k, h0, hk, heq⟩
        exact ⟨k, by omega, by omega, heq⟩
      · rintro ⟨k, h0, hk, heq⟩
        have hne : k ≠ i := by
          rintro rfl
          exact hi heq
        exact ⟨k, by omega, by omega, heq⟩

/-- The conversion returns within so many reads just if the search stays within so many places. -/
theorem string_isSome_iff (bound : Nat) :
    (string nul mem bound).isSome ↔ ∀ i, Reads nul mem i → i < bound := by
  unfold string
  rw [Option.isSome_map, run_scan_isSome, reads_below_iff]
  simp only [Nat.zero_le, Nat.zero_add, true_and]

theorem run_scan : ∀ (n : Nat) {i bound : Nat}, (∀ k, i ≤ k → k < i + n → mem k ≠ nul) →
    mem (i + n) = nul → n < bound → run (scanStep nul mem) bound i = some (i + n)
  | _, _, 0, _, _, hb => absurd hb (Nat.not_lt_zero _)
  | 0, i, bound + 1, _, hnul, _ => by
    have hi : mem i = nul := hnul
    simp [run, scanStep, hi]
  | n + 1, i, bound + 1, hne, hnul, hb => by
    have hi : mem i ≠ nul := hne i (Nat.le_refl _) (by omega)
    have hnul' : mem (i + 1 + n) = nul := by
      rw [Nat.add_right_comm, Nat.add_assoc]
      exact hnul
    simp only [run, scanStep, hi, if_false]
    rw [run_scan n (fun k h0 hk => hne k (by omega) (by omega)) hnul' (by omega), Nat.add_right_comm,
      Nat.add_assoc]

theorem text_split : ∀ {bytes : List α}, nul ∈ bytes → ∃ rest, bytes = text nul bytes ++ nul :: rest
  | x :: bytes, h => by
    by_cases hx : x = nul
    · exact ⟨bytes, by rw [hx, text_nul, List.nil_append]⟩
    · have hmem : nul ∈ bytes := (List.mem_cons.mp h).resolve_left (Ne.symm hx)
      obtain ⟨rest, hrest⟩ := text_split hmem
      refine ⟨rest, ?_⟩
      rw [text_cons hx, List.cons_append]
      exact congrArg _ hrest

theorem nul_notMem_text (bytes : List α) : nul ∉ text nul bytes := by
  intro h
  have hall := List.all_takeWhile (p := (· ≠ nul)) (l := bytes)
  simpa using List.all_eq_true.mp hall nul h

/-- Memory that begins with a terminated text yields that text. -/
theorem string_terminated {pre : List α} {bound : Nat} (hpre : nul ∉ pre)
    (hat : ∀ k < pre.length, pre[k]? = some (mem k)) (hend : mem pre.length = nul)
    (hbound : pre.length < bound) : string nul mem bound = some pre := by
  have hne : ∀ k, 0 ≤ k → k < 0 + pre.length → mem k ≠ nul := by
    intro k _ hk heq
    apply hpre
    rw [← heq]
    exact List.mem_of_getElem? (hat k (by omega))
  have hrun := run_scan pre.length hne (by simpa using hend) hbound
  unfold string
  rw [hrun, Option.map_some, Nat.zero_add, Option.some.injEq]
  apply List.ext_getElem?
  intro k
  by_cases hk : k < pre.length
  · rw [hat k hk]
    simp [hk]
  · rw [List.getElem?_eq_none (by simpa using hk), List.getElem?_eq_none (by omega)]

/-- Memory that begins with bytes among which there is a terminator yields their text. -/
theorem string_eq {bytes : List α} {bound : Nat} (hmem : nul ∈ bytes)
    (hbytes : ∀ k < bytes.length, bytes[k]? = some (mem k)) (hbound : bytes.length ≤ bound) :
    string nul mem bound = some (text nul bytes) := by
  obtain ⟨rest, hsplit⟩ := text_split hmem
  have hlt := text_length_lt hmem
  generalize hpre : text nul bytes = pre at hsplit hlt
  have hnul : nul ∉ pre := hpre ▸ nul_notMem_text bytes
  have hget : ∀ k : Nat, bytes[k]? = (pre ++ nul :: rest)[k]? := fun k => by rw [hsplit]
  apply string_terminated hnul
  · intro k hk
    rw [← hbytes k (by omega), hget, List.getElem?_append_left hk]
  · have hend := hget pre.length
    rw [hbytes _ hlt, List.getElem?_append_right (Nat.le_refl _), Nat.sub_self] at hend
    exact Option.some.inj hend
  · omega

end Library.CString
