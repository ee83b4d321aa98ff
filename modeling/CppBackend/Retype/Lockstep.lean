import CppBackend.Retype.Model

/-!
# Requests and responses in lockstep

As long as every response fits into the client's buffer, one message at a time is under way and both
directions are empty between two rounds (`Phase`).  The response has 19 bytes more than the message, so
this ends with the first message of more than 1004 bytes: the client prints 1023 bytes of the response
(`Broken`) and the rest stays in the stream.  No message remains unanswered, with or without this
(`Live`, `stuck_printed`), and every run comes to its end (`run_length_le`).
-/

set_option autoImplicit false

namespace CppBackend.Retype

open Library.CString Library.Transition

/-- Not empty, without NUL, and not longer than the server's buffer. -/
def Message (msg : List UInt8) : Prop := msg ≠ [] ∧ 0 ∉ msg ∧ msg.length ≤ 1023

instance (msg : List UInt8) : Decidable (Message msg) := inferInstanceAs (Decidable (_ ∧ _ ∧ _))

/-- The response is not longer than the client's buffer. -/
def Fits (msg : List UInt8) : Prop := msg.length ≤ 1004

variable {msgs : List (List UInt8)} {s s' : Pair} {a : Action} {m : List UInt8}

@[simp] theorem response_length (msg : List UInt8) : (response msg).length = 19 + msg.length := by
  rw [response, List.length_append]
  rfl

theorem response_ne_nil (msg : List UInt8) : response msg ≠ [] := by
  rw [← List.length_pos_iff, response_length]
  omega

theorem response_nul (h : 0 ∉ m) : 0 ∉ response m := by
  have hhead : (0 : UInt8) ∉ "Message received : ".toUTF8.data.toList := by decide
  simp only [response, List.mem_append, not_or]
  exact ⟨hhead, h⟩

/-- A buffer shows what has been received, up to the limit. -/
theorem text_take {bytes : List UInt8} (h : 0 ∉ bytes) {buffer : List UInt8} (hb : buffer.length = 1024) :
    text 0 (fill 0 buffer (bytes.take (limit 1024))) = bytes.take (limit 1024) := by
  rw [text_received (by decide) hb, text_eq_self fun hmem => h (List.mem_of_mem_take hmem)]

/-- Everything that a step can do. -/
inductive Step (s : Pair) : Pair → Prop where
  | finish (hc : s.clientPc = .enter) (hi : s.input = []) : Step s { s with clientPc := .left }
  | empty (hc : s.clientPc = .enter) (input : List (List UInt8)) (hi : s.input = [] :: input) :
      Step s { s with clientPc := .left, input := input }
  | ask (hc : s.clientPc = .enter) (m : List UInt8) (input : List (List UInt8)) (hi : s.input = m :: input)
      (hne : m ≠ []) : Step s { s with clientPc := .recv, input := input, toServer := s.toServer ++ m }
  | print (hc : s.clientPc = .recv) (hne : s.toClient ≠ []) : Step s { s with
      clientPc := .enter
      printed := s.printed ++ [text 0 (fill 0 s.recvBuffer (s.toClient.take (limit 1024)))]
      recvBuffer := blank 0 1024
      toClient := s.toClient.drop (limit 1024) }
  | hungUp (hc : s.clientPc = .recv) (hs : s.serverPc = .left) : Step s { s with clientPc := .left }
  | receive (hs : s.serverPc = .recv) (hne : s.toServer ≠ []) : Step s { s with
      serverPc := .send (response (text 0 (fill 0 s.buffer (s.toServer.take (limit 1024)))))
      buffer := fill 0 s.buffer (s.toServer.take (limit 1024))
      toServer := s.toServer.drop (limit 1024) }
  | leave (hs : s.serverPc = .recv) (hts : s.toServer = []) (hc : s.clientPc = .left) :
      Step s { s with serverPc := .left }
  | respond (r : List UInt8) (hs : s.serverPc = .send r) :
      Step s { s with serverPc := .recv, toClient := s.toClient ++ r }

theorem step_cases (h : step s a = some s') : Step s s' := by
  cases a with
  | clientSend =>
    simp only [step] at h
    split at h
    · rename_i hc hi
      cases h
      exact .finish hc hi
    · rename_i m input hc hi
      split at h
      · rename_i hm
        cases h
        exact .empty hc input (hm ▸ hi)
      · rename_i hm
        cases h
        exact .ask hc m input hi hm
    · cases h
  | clientRecv =>
    simp only [step] at h
    split at h
    · rename_i hc
      split at h
      · rename_i hne
        cases h
        exact .print hc hne
      · split at h
        · rename_i hs
          cases h
          exact .hungUp hc hs
        · cases h
    · cases h
  | serverRecv =>
    simp only [step] at h
    split at h
    · rename_i hs
      split at h
      · rename_i hne
        cases h
        exact .receive hs hne
      · rename_i hts
        split at h
        · rename_i hc
          cases h
          exact .leave hs (not_not.mp hts) hc
        · cases h
    · cases h
  | serverSend =>
    simp only [step] at h
    split at h
    · rename_i r hs
      cases h
      exact .respond r hs
    · cases h

/-! ## Rounds -/

/-- Where the messages `rest` are still to be answered. -/
inductive Phase (s : Pair) (rest : List (List UInt8)) : Prop where
  | idle (hc : s.clientPc = .enter) (hs : s.serverPc = .recv) (hi : s.input = rest)
      (hts : s.toServer = []) (htc : s.toClient = [])
  | asked (m : List UInt8) (hc : s.clientPc = .recv) (hs : s.serverPc = .recv) (hr : rest = m :: s.input)
      (hts : s.toServer = m) (htc : s.toClient = [])
  | answering (m : List UInt8) (hc : s.clientPc = .recv) (hs : s.serverPc = .send (response m))
      (hr : rest = m :: s.input) (hts : s.toServer = []) (htc : s.toClient = [])
  | answered (m : List UInt8) (hc : s.clientPc = .recv) (hs : s.serverPc = .recv)
      (hr : rest = m :: s.input) (hts : s.toServer = []) (htc : s.toClient = response m)
  | ended (hc : s.clientPc = .left) (hs : s.serverPc ≠ .recv → s.serverPc = .left) (hr : rest = [])
      (hts : s.toServer = []) (htc : s.toClient = [])

/-- The messages `done` have been answered. -/
structure Rounds (msgs : List (List UInt8)) (s : Pair) (done rest : List (List UInt8)) : Prop where
  split : msgs = done ++ rest
  printed : s.printed = done.map response
  fits : ∀ m ∈ done, Fits m
  phase : Phase s rest

/-- A message does not fit, and something else than its response has been printed. -/
def Broken (msgs : List (List UInt8)) (s : Pair) : Prop :=
  ∃ (i : Nat) (m : List UInt8), msgs[i]? = some m ∧ ¬ Fits m ∧ ∃ t : List UInt8, s.printed[i]? = some t ∧ t ≠ response m

structure Inv (msgs : List (List UInt8)) (s : Pair) : Prop where
  recvBuffer : s.recvBuffer = blank 0 1024
  buffer : s.buffer.length = 1024
  lockstep : (∃ done rest, Rounds msgs s done rest) ∨ Broken msgs s

theorem inv_init (msgs : List (List UInt8)) : Inv msgs (init msgs) :=
  ⟨rfl, blank_length 0 1024, Or.inl ⟨[], msgs, rfl, rfl, by simp, .idle rfl rfl rfl rfl rfl⟩⟩

/-- What has been printed stays. -/
theorem step_printed (h : Step s s') : s.printed <+: s'.printed := by
  cases h with
  | print => exact List.prefix_append _ _
  | _ => exact List.prefix_rfl

theorem Broken.step (hb : Broken msgs s) (h : Step s s') : Broken msgs s' := by
  obtain ⟨i, m, hm, hfit, t, ht, hne⟩ := hb
  obtain ⟨extra, hextra⟩ := step_printed h
  refine ⟨i, m, hm, hfit, t, ?_, hne⟩
  rw [← hextra, List.getElem?_append_left (List.getElem?_eq_some_iff.mp ht).1, ht]

/-- The client prints the response, or the first 1023 bytes of it if it does not fit. -/
theorem inv_print (hm : ∀ m ∈ msgs, Message m) {done rest : List (List UInt8)}
    (hr : Rounds msgs s done rest) (hrest : rest = m :: s.input) (hs : s.serverPc = .recv)
    (hts : s.toServer = []) (htc : s.toClient = response m) (hb : s.recvBuffer = blank 0 1024) :
    (∃ done rest, Rounds msgs { s with
      clientPc := .enter
      printed := s.printed ++ [text 0 (fill 0 s.recvBuffer (s.toClient.take (limit 1024)))]
      recvBuffer := blank 0 1024
      toClient := s.toClient.drop (limit 1024) } done rest) ∨
    Broken msgs { s with
      clientPc := .enter
      printed := s.printed ++ [text 0 (fill 0 s.recvBuffer (s.toClient.take (limit 1024)))]
      recvBuffer := blank 0 1024
      toClient := s.toClient.drop (limit 1024) } := by
  have hsplit := hr.split
  rw [hrest] at hsplit
  have hmem : m ∈ msgs := hsplit ▸ List.mem_append_right _ (List.mem_cons_self ..)
  have hnul : 0 ∉ response m := response_nul (hm m hmem).2.1
  rw [hb, htc, text_take hnul (blank_length 0 1024)]
  by_cases hfit : Fits m
  · have hlen : (response m).length ≤ (limit 1024) := by
      have : m.length ≤ 1004 := hfit
      rw [response_length, limit]
      omega
    rw [List.take_of_length_le hlen, List.drop_of_length_le hlen]
    refine Or.inl ⟨done ++ [m], s.input, by simp [hsplit], by simp [hr.printed], fun m' h => ?_,
      .idle rfl hs rfl hts rfl⟩
    rcases List.mem_append.mp h with h | h
    · exact hr.fits m' h
    · exact List.mem_singleton.mp h ▸ hfit
  · refine Or.inr ⟨done.length, m, by simp [hsplit], hfit, (response m).take (limit 1024), ?_, fun he => ?_⟩
    · have hlen : s.printed.length = done.length := by rw [hr.printed, List.length_map]
      simp [← hlen]
    · have hlen := congrArg List.length he
      have hbig : ¬ m.length ≤ 1004 := hfit
      rw [List.length_take, response_length, limit] at hlen
      omega

/-- The server has the message in its buffer. -/
theorem text_message (hm : Message m) {buffer : List UInt8} (hb : buffer.length = 1024) :
    text 0 (fill 0 buffer (m.take (limit 1024))) = m ∧ m.drop (limit 1024) = [] := by
  obtain ⟨-, hnul, hlen⟩ := hm
  rw [text_take hnul hb]
  exact ⟨List.take_of_length_le hlen, List.drop_of_length_le hlen⟩

theorem rounds_step (hm : ∀ m ∈ msgs, Message m) {done rest : List (List UInt8)}
    (hr : Rounds msgs s done rest) (hrb : s.recvBuffer = blank 0 1024) (hbuf : s.buffer.length = 1024)
    (h : Step s s') : (∃ done rest, Rounds msgs s' done rest) ∨ Broken msgs s' := by
  have hnext : ∀ {m input}, rest = m :: input → Message m := fun he =>
    hm _ (hr.split ▸ he ▸ List.mem_append_right _ (List.mem_cons_self ..))
  cases h with
  | finish hc hinput =>
    cases hr.phase with
    | idle _ hs hi hts htc =>
      exact Or.inl ⟨done, rest, hr.split, hr.printed, hr.fits,
        .ended rfl (fun hne => absurd hs hne) (hi ▸ hinput) hts htc⟩
    | asked _ hc' | answering _ hc' | answered _ hc' | ended hc' => simp [hc] at hc'
  | empty hc input hinput =>
    cases hr.phase with
    | idle _ _ hi => exact absurd rfl (hnext (hi.symm.trans hinput)).1
    | asked _ hc' | answering _ hc' | answered _ hc' | ended hc' => simp [hc] at hc'
  | ask hc m input hinput hne =>
    cases hr.phase with
    | idle _ hs hi hts htc =>
      exact Or.inl ⟨done, rest, hr.split, hr.printed, hr.fits,
        .asked m rfl hs (hi.symm.trans hinput) (by simp [hts]) htc⟩
    | asked _ hc' | answering _ hc' | answered _ hc' | ended hc' => simp [hc] at hc'
  | print hc hne =>
    cases hr.phase with
    | answered m _ hs hrest hts htc => exact inv_print hm hr hrest hs hts htc hrb
    | idle hc' | ended hc' => simp [hc] at hc'
    | asked _ _ _ _ _ htc | answering _ _ _ _ _ htc => exact absurd htc hne
  | hungUp hc hs =>
    cases hr.phase with
    | asked _ _ hs' | answering _ _ hs' | answered _ _ hs' => simp [hs] at hs'
    | idle hc' | ended hc' => simp [hc] at hc'
  | receive hs hne =>
    cases hr.phase with
    | asked m hc _ hrest hts htc =>
      obtain ⟨htext, hdrop⟩ := text_message (hnext hrest) hbuf
      refine Or.inl ⟨done, rest, hr.split, hr.printed, hr.fits, .answering m hc ?_ hrest ?_ htc⟩
      · simp only [hts, htext]
      · simp only [hts, hdrop]
    | answering _ _ hs' => simp [hs] at hs'
    | idle _ _ _ hts | answered _ _ _ _ hts | ended _ _ _ hts => exact absurd hts hne
  | leave hs hts hc =>
    cases hr.phase with
    | ended _ _ hrest _ htc =>
      exact Or.inl ⟨done, rest, hr.split, hr.printed, hr.fits, .ended hc (fun _ => rfl) hrest hts htc⟩
    | idle hc' | asked _ hc' | answering _ hc' | answered _ hc' => simp [hc] at hc'
  | respond r hs =>
    cases hr.phase with
    | answering m hc hs' hrest hts htc =>
      rw [hs, ServerPc.send.injEq] at hs'
      exact Or.inl ⟨done, rest, hr.split, hr.printed, hr.fits,
        .answered m hc rfl hrest hts (by simp [htc, hs'])⟩
    | ended _ hs' => simp [hs] at hs'
    | idle _ hs' | asked _ _ hs' | answered _ _ hs' => simp [hs] at hs'

theorem buffers_step (hrb : s.recvBuffer = blank 0 1024) (hbuf : s.buffer.length = 1024) (h : Step s s') :
    s'.recvBuffer = blank 0 1024 ∧ s'.buffer.length = 1024 := by
  cases h with
  | print => exact ⟨rfl, hbuf⟩
  | receive hs hne =>
    refine ⟨hrb, ?_⟩
    rw [fill_length, hbuf]
    rw [List.length_take, hbuf, limit]
    omega
  | _ => exact ⟨hrb, hbuf⟩

theorem inv_step (hm : ∀ m ∈ msgs, Message m) (hi : Inv msgs s) (h : step s a = some s') :
    Inv msgs s' := by
  have hstep := step_cases h
  obtain ⟨hrb, hbuf⟩ := buffers_step hi.recvBuffer hi.buffer hstep
  refine ⟨hrb, hbuf, ?_⟩
  rcases hi.lockstep with ⟨done, rest, hr⟩ | hbroken
  · exact rounds_step hm hr hi.recvBuffer hi.buffer hstep
  · exact Or.inr (hbroken.step hstep)

theorem reach_inv (hm : ∀ m ∈ msgs, Message m) (hr : Reach anyStep step (init msgs) s) : Inv msgs s :=
  hr.invariant (inv_init msgs) fun _ _ _ hi h _ => inv_step hm hi h

/-! ## Every message is answered -/

/-- Between the messages that have been read and what has been printed. -/
structure Live (msgs : List (List UInt8)) (s : Pair) : Prop where
  /-- The message that the client waits for the response to is neither in the input nor printed. -/
  count : s.printed.length + s.input.length + (if s.clientPc = .recv then 1 else 0) = msgs.length
  messages : ∀ m ∈ s.input, m ≠ []
  left : s.clientPc = .left → s.input = []
  /-- Something is under way to the client or to the server, or in the server. -/
  pending : s.clientPc = .recv → s.toClient ≠ [] ∨ s.toServer ≠ [] ∨ ∃ r, s.serverPc = .send r
  response : ∀ r, s.serverPc = .send r → r ≠ []
  serverLeft : s.serverPc = .left → s.clientPc = .left

theorem live_init (hm : ∀ m ∈ msgs, Message m) : Live msgs (init msgs) :=
  ⟨by simp [init], fun m h => (hm m h).1, by simp [init], by simp [init], by simp [init], by simp [init]⟩

theorem live_step (hl : Live msgs s) (h : Step s s') : Live msgs s' := by
  have hcount := hl.count
  cases h with
  | finish hc hi =>
    simp only [hc, reduceCtorEq, if_false] at hcount
    exact ⟨by simpa using hcount, hl.messages, fun _ => hi, by simp, hl.response, fun _ => rfl⟩
  | empty hc input hi => exact absurd rfl (hl.messages [] (hi ▸ List.mem_cons_self ..))
  | ask hc m input hi hne =>
    simp only [hc, hi, reduceCtorEq, if_false, List.length_cons] at hcount
    refine ⟨?_, fun m' h => hl.messages m' (hi ▸ List.mem_cons_of_mem _ h), by simp,
      fun _ => Or.inr (Or.inl ?_), hl.response, fun hs => ?_⟩
    · simp only [if_true]
      omega
    · simp [hne]
    · have hc' := hl.serverLeft hs
      simp [hc] at hc'
  | print hc hne =>
    simp only [hc, if_true] at hcount
    refine ⟨?_, hl.messages, by simp, by simp, hl.response, fun hs => ?_⟩
    · simp only [List.length_append, List.length_singleton, reduceCtorEq, if_false]
      omega
    · have hc' := hl.serverLeft hs
      simp [hc] at hc'
  | hungUp hc hs =>
    have hc' := hl.serverLeft hs
    simp [hc] at hc'
  | receive hs hne =>
    refine ⟨hcount, hl.messages, hl.left, fun _ => Or.inr (Or.inr ⟨_, rfl⟩), fun r hr => ?_, by simp⟩
    rw [← ServerPc.send.inj hr]
    exact response_ne_nil _
  | leave hs hts hc =>
    exact ⟨hcount, hl.messages, hl.left, fun hc' => by simp [hc] at hc', by simp, fun _ => hc⟩
  | respond r hs =>
    refine ⟨hcount, hl.messages, hl.left, fun _ => Or.inl ?_, by simp, by simp⟩
    simp [hl.response r hs]

theorem reach_live (hm : ∀ m ∈ msgs, Message m) (hr : Reach anyStep step (init msgs) s) : Live msgs s :=
  hr.invariant (live_init hm) fun _ _ _ hl h _ => live_step hl (step_cases h)

/-- Neither program waits in vain. -/
theorem stuck_printed (hl : Live msgs s) (h : ∀ a, step s a = none) :
    s.printed.length = msgs.length := by
  have hcount := hl.count
  cases hc : s.clientPc with
  | enter =>
    have hsend := h .clientSend
    simp only [step, hc] at hsend
    split at hsend
    · cases hsend
    · split at hsend <;> cases hsend
    · rename_i hnil hcons
      cases hi : s.input with
      | nil => exact absurd hi (hnil rfl)
      | cons m input => exact absurd hi (hcons m input rfl)
  | recv =>
    exfalso
    have hrecv := h .serverRecv
    have hsend := h .serverSend
    cases hs : s.serverPc with
    | send r => simp [step, hs] at hsend
    | left =>
      have hc' := hl.serverLeft hs
      simp [hc] at hc'
    | recv =>
      rcases hl.pending hc with htc | hts | ⟨r, hr⟩
      · have hprint := h .clientRecv
        simp [step, hc, htc] at hprint
      · simp [step, hs, hts] at hrecv
      · simp [hs] at hr
  | left =>
    simp only [hc, hl.left hc, List.length_nil, reduceCtorEq, if_false] at hcount
    exact hcount

/-! ## Every run ends -/

def ClientPc.weight : ClientPc → Nat
  | .left => 0
  | .enter => 1
  | .recv => 2

def ServerPc.weight : ServerPc → Nat
  | .left => 0
  | .recv => 1
  | .send _ => 2

/-- How many steps may follow at most. -/
def Pair.weight (s : Pair) : Nat :=
  2 * s.input.length + 2 * s.input.flatten.length + 2 * s.toServer.length + s.clientPc.weight +
    s.serverPc.weight

theorem step_weight (h : Step s s') : s'.weight < s.weight := by
  cases h with
  | finish hc => simp [Pair.weight, hc, ClientPc.weight]
  | empty hc input hi =>
    simp only [Pair.weight, hc, hi, ClientPc.weight, List.length_cons, List.flatten_cons, List.length_append]
    omega
  | ask hc m input hi =>
    simp only [Pair.weight, hc, hi, ClientPc.weight, List.length_cons, List.flatten_cons, List.length_append]
    omega
  | print hc => simp [Pair.weight, hc, ClientPc.weight]
  | hungUp hc => simp [Pair.weight, hc, ClientPc.weight]
  | receive hs hne =>
    have hpos := List.length_pos_iff.mpr hne
    simp only [Pair.weight, hs, ServerPc.weight, List.length_drop, limit]
    omega
  | leave hs => simp [Pair.weight, hs, ServerPc.weight]
  | respond r hs => simp [Pair.weight, hs, ServerPc.weight]

theorem run_length_le : ∀ (as : List Action) {s t : Pair}, exec step s as = some t →
    as.length ≤ s.weight
  | [], _, _, _ => Nat.zero_le _
  | a :: as, s, t, h => by
    obtain ⟨s', hs, hrest⟩ := exec_cons h
    have hlt := step_weight (step_cases hs)
    have hle := run_length_le as hrest
    rw [List.length_cons]
    omega

/-- **Lockstep.**  What the client prints after each message is the response to this message, in every run
and at every time, exactly if none of the messages answered so far has more than 1004 bytes; and when
neither program can go on, all messages have been answered. -/
theorem lockstep_iff (hm : ∀ m ∈ msgs, Message m) (hr : Reach anyStep step (init msgs) s) :
    (s.printed = (msgs.take s.printed.length).map response ↔
      ∀ m ∈ msgs.take s.printed.length, m.length ≤ 1004) ∧
    ((∀ a, step s a = none) → s.printed.length = msgs.length) := by
  refine ⟨?_, stuck_printed (reach_live hm hr)⟩
  rcases (reach_inv hm hr).lockstep with ⟨done, rest, h⟩ | ⟨i, m, hi, hfit, t, ht, hne⟩
  · have htake : msgs.take s.printed.length = done := by
      rw [h.split, h.printed, List.length_map, List.take_left]
    rw [htake]
    exact ⟨fun _ => h.fits, fun _ => h.printed⟩
  · have hlt := (List.getElem?_eq_some_iff.mp ht).1
    have htake : (msgs.take s.printed.length)[i]? = some m := by
      rw [List.getElem?_take_of_lt hlt, hi]
    constructor
    · intro hprinted
      rw [hprinted, List.getElem?_map, htake] at ht
      exact absurd (Option.some.inj ht).symm hne
    · intro hall
      exact absurd (hall m (List.mem_of_getElem? htake)) hfit

/-- One round. -/
def round : List Action := [.clientSend, .serverRecv, .serverSend, .clientRecv]

theorem exec_round (hm : Message m) : ∃ s, exec step (init [m]) round = some s ∧
    s.printed = [(response m).take (limit 1024)] ∧ s.toClient = (response m).drop (limit 1024) := by
  obtain ⟨htext, hdrop⟩ := text_message hm (blank_length 0 1024)
  have hprint := text_take (response_nul hm.2.1) (blank_length 0 1024)
  simp [exec, round, step, init, hm.1, htext, hdrop, response_ne_nil, hprint]

theorem lockstep_iff_hi : ∃ s, Reach anyStep step (init [[104, 105]]) s ∧
    s.printed = [response [104, 105]] := by
  obtain ⟨s, hs, hprinted, -⟩ := exec_round (m := [104, 105]) (by decide)
  have hlen : s.printed.length = 1 := by rw [hprinted]; rfl
  have hmsgs : ∀ m ∈ ([[104, 105]] : List (List UInt8)), Message m := by decide
  have hiff := (lockstep_iff hmsgs (exec_reach _ hs)).1
  rw [hlen] at hiff
  exact ⟨s, exec_reach _ hs, hiff.mpr (by decide)⟩

/-- 1005 times `a`. -/
def long : List UInt8 := List.replicate 1005 97

/-- The response to it is cut off, and its last byte is still to be received. -/
theorem long_cut : Message long ∧ ∃ s, Reach anyStep step (init [long]) s ∧ s.printed.length = 1 ∧
    s.printed ≠ [response long] ∧ s.toClient.length = 1 := by
  have hlen : long.length = 1005 := List.length_replicate
  have hm : Message long := by
    refine ⟨?_, ?_, by omega⟩
    · rw [← List.length_pos_iff]
      omega
    · rw [long, List.mem_replicate]
      decide
  obtain ⟨s, hs, hprinted, hclient⟩ := exec_round hm
  refine ⟨hm, s, exec_reach _ hs, by rw [hprinted]; rfl, fun he => ?_, ?_⟩
  · rw [hprinted, List.cons.injEq] at he
    have hcut := congrArg List.length he.1
    rw [List.length_take, response_length, hlen, limit] at hcut
    omega
  · rw [hclient, List.length_drop, response_length, hlen, limit]

end CppBackend.Retype
