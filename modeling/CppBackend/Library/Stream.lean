import Mathlib.Data.List.Basic

/-!
# The two ends of a byte stream

A reader holds the elements that the other end has written and it has not yet received; after
them comes the end of the stream.  A call of `recv` delivers the next elements: at least one, at
most the number requested, as many as the transport happens to have (`Outcome.data`), none at the
end of the stream; or it fails.  What the transport does is given by position, so one value of
`outcome` stands for one way to cut the stream into pieces.  A writer's `send` takes some of the
elements offered, or fails; what it does is given by the number of the call.
-/

set_option autoImplicit false

namespace Library.Stream

variable {α : Type}

/-- What the transport does with a call: move (up to) so many elements, or fail with an error
text. -/
inductive Outcome where
  | data (n : Nat)
  | error (errno : String)

/-- A call of `send` with so many elements has all of them taken. -/
def Outcome.takesAll : Outcome → Nat → Bool
  | .error _, _ => false
  | .data n, len => len ≤ n

/-- No element is taken, whatever is offered. -/
def Outcome.takesNothing : Outcome → Bool
  | .error _ => true
  | .data n => n == 0

/-! ## Reading -/

structure Reader (α : Type) where
  rest : List α
  pos : Nat
  outcome : Nat → Outcome

/-- The reader when `k` more elements have been received. -/
def Reader.advance (s : Reader α) (k : Nat) : Reader α :=
  { s with rest := s.rest.drop k, pos := s.pos + min k s.rest.length }

/-- Receive at most `request` elements; none at the end of the stream. -/
def Reader.recv (s : Reader α) (request : Nat) : Except String (List α) × Reader α :=
  match s.outcome s.pos with
  | .error e => (.error e, s)
  | .data n => (.ok (s.rest.take (min request (max 1 n))), s.advance (min request (max 1 n)))

/-- No call of `recv` fails. -/
def Reader.Reliable (s : Reader α) : Prop := ∀ p, ∃ n, s.outcome p = .data n

/-- Every call of `recv` delivers as much as it asks for, or all that is left. -/
def Reader.Whole (s : Reader α) : Prop := ∀ p, ∃ n, s.outcome p = .data n ∧ s.rest.length ≤ n

variable {s : Reader α}

theorem Reader.Whole.reliable (h : s.Whole) : s.Reliable := fun p =>
  have ⟨n, hn, _⟩ := h p
  ⟨n, hn⟩

@[simp] theorem advance_rest (s : Reader α) (k : Nat) : (s.advance k).rest = s.rest.drop k := rfl

@[simp] theorem advance_outcome (s : Reader α) (k : Nat) : (s.advance k).outcome = s.outcome := rfl

@[simp] theorem advance_zero (s : Reader α) : s.advance 0 = s := by
  simp [Reader.advance]

theorem advance_advance (s : Reader α) (a b : Nat) :
    (s.advance a).advance b = s.advance (a + b) := by
  unfold Reader.advance
  simp only [List.drop_drop, List.length_drop, Reader.mk.injEq, and_true, true_and]
  omega

/-- Nothing is received beyond the end. -/
theorem advance_min (s : Reader α) (k : Nat) : s.advance (min k s.rest.length) = s.advance k := by
  have hdrop : s.rest.drop (min k s.rest.length) = s.rest.drop k := by
    rcases Nat.le_total k s.rest.length with h | h
    · rw [Nat.min_eq_left h]
    · rw [Nat.min_eq_right h, List.drop_length, List.drop_eq_nil_of_le h]
  unfold Reader.advance
  rw [hdrop, Nat.min_assoc, Nat.min_self]

theorem Reader.Reliable.advance (h : s.Reliable) (k : Nat) : (s.advance k).Reliable := h

/-- Everything that a call of `recv` can do. -/
inductive RecvStep (s : Reader α) (request : Nat) : Except String (List α) → Reader α → Prop where
  | failed {e : String} (h : s.outcome s.pos = .error e) : RecvStep s request (.error e) s
  | ended (h : s.rest = []) : RecvStep s request (.ok []) s
  | received {k : Nat} (h0 : 0 < k) (hk : k ≤ request) (hle : k ≤ s.rest.length) :
      RecvStep s request (.ok (s.rest.take k)) (s.advance k)

theorem recv_inv {request : Nat} (h0 : 0 < request) {r : Except String (List α)} {s' : Reader α}
    (h : s.recv request = (r, s')) : RecvStep s request r s' := by
  unfold Reader.recv at h
  split at h
  · rename_i e he
    cases h
    exact .failed he
  · rename_i n hn
    cases h
    by_cases hnil : s.rest = []
    · have hs : s.advance (min request (max 1 n)) = s := by
        cases s
        cases hnil
        simp [Reader.advance]
      rw [hs, hnil, List.take_nil]
      exact .ended hnil
    · have hpos : 0 < s.rest.length := List.length_pos_iff.mpr hnil
      have htake : s.rest.take (min request (max 1 n)) =
          s.rest.take (min (min request (max 1 n)) s.rest.length) := by
        rw [List.take_eq_take_min]
      rw [htake, ← advance_min]
      exact .received (by omega) (by omega) (by omega)

/-- A reliable reader has no failing call. -/
theorem recv_error {request : Nat} {e : String} {s' : Reader α} (hrel : s.Reliable)
    (h : s.recv request = (.error e, s')) : False := by
  obtain ⟨n, hn⟩ := hrel s.pos
  unfold Reader.recv at h
  rw [hn] at h
  cases h

/-- Nothing is delivered only at the end of the stream, which stays where it is. -/
theorem recv_ended {request : Nat} (h0 : 0 < request) {s' : Reader α}
    (h : s.recv request = (.ok [], s')) : s.rest = [] ∧ s' = s := by
  generalize hgot : (Except.ok [] : Except String (List α)) = got at h
  cases recv_inv h0 h with
  | failed he => cases hgot
  | ended hnil => exact ⟨hnil, rfl⟩
  | received hk0 hk hle =>
    have hlen := congrArg List.length (Except.ok.inj hgot)
    rw [List.length_nil, List.length_take_of_le hle] at hlen
    omega

theorem recv_nil {request : Nat} (h0 : 0 < request) {s' : Reader α}
    (h : s.recv request = (.ok [], s')) : s.rest = [] :=
  (recv_ended h0 h).1

/-- What is delivered are the next elements. -/
theorem recv_got {request : Nat} (h0 : 0 < request) {got : List α} (hne : got ≠ [])
    {s' : Reader α} (h : s.recv request = (.ok got, s')) :
    ∃ k, 0 < k ∧ k ≤ request ∧ k ≤ s.rest.length ∧ got = s.rest.take k ∧ s' = s.advance k := by
  cases recv_inv h0 h with
  | ended => exact absurd rfl hne
  | received hk0 hk hle => exact ⟨_, hk0, hk, hle, rfl, rfl⟩

/-! ## Writing -/

structure Writer (α : Type) where
  sent : List α
  calls : Nat
  outcome : Nat → Outcome
  /-- The error text of the last call that failed. -/
  errno : String

/-- Offer elements to the transport; `none` is a failure, otherwise the number taken. -/
def Writer.send (w : Writer α) (xs : List α) : Option Nat × Writer α :=
  match w.outcome w.calls with
  | .error e => (none, { w with calls := w.calls + 1, errno := e })
  | .data n => (some (min n xs.length), { w with sent := w.sent ++ xs.take n, calls := w.calls + 1 })

variable {w w' : Writer α} {xs : List α}

/-- What a call of `send` does when it takes elements. -/
theorem send_some {k : Nat} (h : w.send xs = (some k, w')) :
    k ≤ xs.length ∧ w'.sent = w.sent ++ xs.take k := by
  unfold Writer.send at h
  split at h
  · cases h
  · rename_i n hn
    cases h
    exact ⟨Nat.min_le_right _ _, by rw [← List.take_eq_take_min]⟩

/-- A call of `send` that fails takes nothing. -/
theorem send_none (h : w.send xs = (none, w')) : w'.sent = w.sent := by
  unfold Writer.send at h
  split at h
  · cases h
    rfl
  · cases h

/-- The later writer results from the earlier one by calls of `send`. -/
inductive Sends (w : Writer α) : Writer α → Prop where
  | refl : Sends w w
  | tail {w' : Writer α} (h : Sends w w') (xs : List α) : Sends w (w'.send xs).2

theorem Sends.trans {w'' : Writer α} (h : Sends w w') (h' : Sends w' w'') : Sends w w'' := by
  induction h' with
  | refl => exact h
  | tail _ xs ih => exact ih.tail xs

theorem Sends.send {r : Option Nat} (h : w.send xs = (r, w')) : Sends w w' := by
  have hs := Sends.tail (Sends.refl (w := w)) xs
  rwa [h] at hs

/-- What has been written stays. -/
theorem Sends.sent (h : Sends w w') : w.sent <+: w'.sent := by
  induction h with
  | refl => exact List.prefix_rfl
  | @tail u _ xs ih =>
    refine ih.trans ?_
    obtain ⟨r, hs⟩ : ∃ r, u.send xs = (r, (u.send xs).2) := ⟨_, rfl⟩
    cases r with
    | none => exact send_none hs ▸ List.prefix_rfl
    | some k =>
      rw [(send_some hs).2]
      exact List.prefix_append _ _

@[simp] theorem send_outcome (w : Writer α) (xs : List α) : (w.send xs).2.outcome = w.outcome := by
  unfold Writer.send
  split <;> rfl

@[simp] theorem send_calls (w : Writer α) (xs : List α) : (w.send xs).2.calls = w.calls + 1 := by
  unfold Writer.send
  split <;> rfl

theorem send_takesAll (h : (w.outcome w.calls).takesAll xs.length = true) : (w.send xs).1 = some xs.length := by
  unfold Writer.send
  cases hn : w.outcome w.calls with
  | error e => simp [hn, Outcome.takesAll] at h
  | data n =>
    simp only [hn, Outcome.takesAll, decide_eq_true_eq] at h
    simp [h]

theorem send_takesAll_not (h : (w.outcome w.calls).takesAll xs.length = false) : (w.send xs).1 ≠ some xs.length := by
  unfold Writer.send
  cases hn : w.outcome w.calls with
  | error e => simp
  | data n =>
    simp only [hn, Outcome.takesAll, decide_eq_false_iff_not] at h
    simp only [ne_eq, Option.some.injEq]
    omega

/-- The next call of `send` takes nothing. -/
def Writer.Blocked (w : Writer α) : Prop := ∀ n, w.outcome w.calls = .data n → n = 0

theorem blocked_iff : w.Blocked ↔ (w.outcome w.calls).takesNothing = true := by
  unfold Writer.Blocked Outcome.takesNothing
  split
  · rename_i e he
    simp [he]
  · rename_i n hn
    simp [hn]

theorem send_blocked (h : w.Blocked) (xs : List α) :
    ∃ r w', w.send xs = (r, w') ∧ (r = none ∨ r = some 0) ∧ w'.sent = w.sent := by
  unfold Writer.send
  split
  · exact ⟨_, _, rfl, Or.inl rfl, rfl⟩
  · rename_i n hn
    refine ⟨_, _, rfl, Or.inr ?_, ?_⟩
    · rw [h n hn, Nat.zero_min]
    · show w.sent ++ xs.take n = w.sent
      rw [h n hn, List.take_zero, List.append_nil]

theorem send_unblocked (h : ¬ w.Blocked) (hne : xs ≠ []) :
    ∃ k w', w.send xs = (some k, w') ∧ w.sent.length < w'.sent.length := by
  unfold Writer.Blocked at h
  push Not at h
  obtain ⟨n, hn, h0⟩ := h
  have hpos := List.length_pos_iff.mpr hne
  unfold Writer.send
  rw [hn]
  refine ⟨_, _, rfl, ?_⟩
  show w.sent.length < (w.sent ++ xs.take n).length
  rw [List.length_append, List.length_take]
  omega

end Library.Stream
