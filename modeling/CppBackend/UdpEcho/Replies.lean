import CppBackend.UdpEcho.Model

/-!
# A client prints responses to its own messages

The network may lose, reorder and duplicate, every call may fail, and the server may stop.  Whatever is
under way to a client, or about to be sent to it, answers a message that this client has sent (`Honest`),
and a client prints no more than it has sent; so its k-th response answers one of its first k messages
(`replies_own`).
-/

set_option autoImplicit false

namespace CppBackend.UdpEcho

open Library.CString Library.Transition

/-! ## What a step can do -/

/-- Everything that a step can do. -/
inductive Step (s : World) : Action → World → Prop where
  | endOfInput {i : Nat} {c : Client} (hc : s.clients[i]? = some c) (hpc : c.pc = .enter)
      (hin : c.input = []) : Step s (.enter i) (s.put i { c with pc := .left })
  | quits {i : Nat} {c : Client} {input : List (List UInt8)} (hc : s.clients[i]? = some c)
      (hpc : c.pc = .enter) (hin : c.input = quit :: input) :
      Step s (.enter i) (s.put i { c with pc := .left, input := input })
  | reads {i : Nat} {c : Client} {msg : List UInt8} {input : List (List UInt8)}
      (hc : s.clients[i]? = some c) (hpc : c.pc = .enter) (hin : c.input = msg :: input)
      (hq : msg ≠ quit) : Step s (.enter i) (s.put i { c with pc := .send msg, input := input })
  | sends {i : Nat} {c : Client} {msg : List UInt8} (hc : s.clients[i]? = some c)
      (hpc : c.pc = .send msg) : Step s (.clientSend i true) (s.clientSend i c msg true)
  | sendFails {i : Nat} {c : Client} {msg : List UInt8} (hc : s.clients[i]? = some c)
      (hpc : c.pc = .send msg) : Step s (.clientSend i false) (s.clientSend i c msg false)
  | prints {i k : Nat} {c : Client} {payload : List UInt8} (hc : s.clients[i]? = some c)
      (hk : s.network[k]? = some (.reply i payload)) (hpc : c.pc = .recv) :
      Step s (.clientRecv i k) (s.clientRecv i k c payload)
  | recvFails {i : Nat} {c : Client} (hc : s.clients[i]? = some c) (hpc : c.pc = .recv) :
      Step s (.clientRecvFails i) (s.put i { c with pc := .failed })
  | tests (hpc : s.server.pc = .top) : Step s .serverTest
      { s with server := { s.server with pc := if s.server.isRunning then .recv else .left } }
  | takes {i k : Nat} {payload : List UInt8} (hk : s.network[k]? = some (.request i payload))
      (hpc : s.server.pc = .recv) : Step s (.serverRecv k)
      { s with server := s.server.receive i payload, network := s.network.eraseIdx k }
  | shut (hpc : s.server.pc = .recv) (hr : s.server.isRunning = false) : Step s .serverRecvShut
      { s with server := { s.server with pc := .top } }
  | serverFails {eintr : Bool} (hpc : s.server.pc = .recv) : Step s (.serverRecvFails eintr)
      { s with server := s.server.receiveFails eintr }
  | responds {i : Nat} {msg : List UInt8} {ok : Bool} (hpc : s.server.pc = .send i msg) :
      Step s (.serverSend ok) (s.serverSend i msg ok)
  | stops : Step s .stop { s with server := { s.server with isRunning := false } }
  | loses {k : Nat} : Step s (.lose k) { s with network := s.network.eraseIdx k }
  | duplicates {k : Nat} {d : Datagram} (hk : s.network[k]? = some d) :
      Step s (.duplicate k) { s with network := s.network ++ [d] }

variable {s s' : World} {a : Action}

theorem step_cases (h : step s a = some s') : Step s a s' := by
  cases a with
  | enter i =>
    simp only [step] at h
    split at h
    · rename_i c hc
      split at h <;> cases h
      rename_i hpc
      unfold World.enter
      split
      · rename_i hin
        exact .endOfInput hc hpc hin
      · rename_i msg input hin
        by_cases hq : msg = quit
        · rw [if_pos hq]
          exact .quits hc hpc (hq ▸ hin)
        · rw [if_neg hq]
          exact .reads hc hpc hin hq
    · cases h
  | clientSend i ok =>
    simp only [step] at h
    split at h
    · rename_i c hc
      split at h <;> cases h
      rename_i msg hpc
      cases ok with
      | true => exact .sends hc hpc
      | false => exact .sendFails hc hpc
    · cases h
  | clientRecv i k =>
    simp only [step] at h
    split at h
    · rename_i c j payload hc hk
      split at h <;> cases h
      rename_i hcond
      exact .prints hc (hcond.2 ▸ hk) hcond.1
    · cases h
  | clientRecvFails i =>
    simp only [step] at h
    split at h
    · rename_i c hc
      split at h <;> cases h
      exact .recvFails hc (by assumption)
    · cases h
  | serverTest =>
    simp only [step] at h
    split at h <;> cases h
    exact .tests (by assumption)
  | serverRecv k =>
    simp only [step] at h
    split at h
    · split at h <;> cases h
      exact .takes (by assumption) (by assumption)
    · cases h
  | serverRecvShut =>
    simp only [step] at h
    split at h <;> cases h
    rename_i hcond
    exact .shut hcond.1 hcond.2
  | serverRecvFails eintr =>
    simp only [step] at h
    split at h <;> cases h
    exact .serverFails (by assumption)
  | serverSend ok =>
    simp only [step] at h
    split at h <;> cases h
    exact .responds (by assumption)
  | stop => cases h; exact .stops
  | lose k =>
    simp only [step] at h
    split at h <;> cases h
    exact .loses
  | duplicate k =>
    simp only [step] at h
    split at h <;> cases h
    exact .duplicates (by assumption)

@[simp] theorem put_server (i : Nat) (c : Client) : (s.put i c).server = s.server := rfl

@[simp] theorem put_network (i : Nat) (c : Client) : (s.put i c).network = s.network := rfl

theorem put_self {i : Nat} {c : Client} (c' : Client) (hc : s.clients[i]? = some c) :
    (s.put i c').clients[i]? = some c' := by
  rw [World.put, List.getElem?_set_self (List.getElem?_eq_some_iff.mp hc).1]

/-- A client in the new list was there, or is the one that has been put. -/
theorem put_cases {i j : Nat} {c' d : Client} (h : (s.put i c').clients[j]? = some d) :
    (j = i ∧ d = c') ∨ (j ≠ i ∧ s.clients[j]? = some d) := by
  by_cases hij : i = j
  · subst hij
    rw [World.put, List.getElem?_set] at h
    simp only [if_true] at h
    split at h <;> cases h
    exact Or.inl ⟨rfl, rfl⟩
  · rw [World.put, List.getElem?_set_ne hij] at h
    exact Or.inr ⟨Ne.symm hij, h⟩

/-! ## What is sent and what comes back -/

/-- What the server makes of a datagram. -/
def received (m : List UInt8) : List UInt8 := text 0 (m.take (limit 1024))

/-- What the client prints of the response to a message. -/
def shown (m : List UInt8) : List UInt8 := (response (received m)).take (limit 1024)

theorem nul_notMem_response (m : List UInt8) : 0 ∉ response (received m) := by
  have hhead : (0 : UInt8) ∉ "Server received your message: ".toUTF8.data.toList := by decide
  simp only [response, List.mem_append, not_or]
  exact ⟨hhead, nul_notMem_text _⟩

/-- A response has no terminator in it, and is shown as far as the client's buffer goes. -/
theorem text_shown (m : List UInt8) :
    text 0 (fill 0 (blank 0 1024) ((response (received m)).take (limit 1024))) = shown m := by
  rw [text_received (by decide) (blank_length 0 1024), text_eq_self fun h =>
    nul_notMem_response m (List.mem_of_mem_take h)]
  rfl

/-- The lines before `"quit"`. -/
def asked (input : List (List UInt8)) : List (List UInt8) := input.takeWhile (· ≠ quit)

theorem asked_quit (input : List (List UInt8)) : asked (quit :: input) = [] := by
  simp [asked]

theorem asked_cons {m : List UInt8} (hq : m ≠ quit) (input : List (List UInt8)) :
    asked (m :: input) = m :: asked input := by
  simp [asked, hq]

/-- How far a client is with its lines. -/
def Script (lines : List (List UInt8)) (c : Client) : Prop :=
  match c.pc with
  | .enter | .recv => asked lines = c.sent ++ asked c.input
  | .send m => asked lines = c.sent ++ m :: asked c.input
  | .left => asked lines = c.sent
  | .failed => c.sent <+: asked lines

theorem Script.begins {lines : List (List UInt8)} {c : Client} (h : Script lines c) :
    c.sent <+: asked lines := by
  unfold Script at h
  split at h
  · exact ⟨_, h.symm⟩
  · exact ⟨_, h.symm⟩
  · exact ⟨_, h.symm⟩
  · exact h ▸ List.prefix_refl _
  · exact h

/-- The client `i` has sent the message. -/
def Sent (s : World) (i : Nat) (m : List UInt8) : Prop := ∃ c, s.clients[i]? = some c ∧ m ∈ c.sent

/-- The response `p` answers a message of the client `i`. -/
def Answers (s : World) (i : Nat) (p : List UInt8) : Prop :=
  ∃ m, Sent s i m ∧ m ≠ [] ∧ p = response (received m)

/-- What a client has printed, and how much. -/
structure Answered (c : Client) : Prop where
  printed : ∀ (k : Nat) (p : List UInt8), c.printed[k]? = some p →
    ∃ j ≤ k, ∃ m, c.sent[j]? = some m ∧ m ≠ [] ∧ p = shown m
  waits : c.pc = .recv → c.sent.length = c.printed.length + 1
  bound : c.printed.length ≤ c.sent.length
  ahead : c.sent.length ≤ c.printed.length + 1
  rest : c.pc ≠ .recv → c.pc ≠ .failed → c.sent.length = c.printed.length

/-- Nothing is under way that no client has asked for. -/
structure Honest (inputs : List (List (List UInt8))) (s : World) : Prop where
  requests : ∀ i m, .request i m ∈ s.network → Sent s i m
  replies : ∀ i p, .reply i p ∈ s.network → Answers s i p
  serving : ∀ i p, s.server.pc = .send i p → Answers s i p
  received : ∀ x ∈ s.server.received, ∃ m, Sent s x.1 m ∧ m ≠ [] ∧ x.2 = received m
  buffer : s.server.buffer.length = 1024
  clients : ∀ (i : Nat) (c : Client), s.clients[i]? = some c →
    Answered c ∧ ∃ lines, inputs[i]? = some lines ∧ Script lines c

/-- No client goes away, and none forgets what it has sent. -/
def Grows (s s' : World) : Prop :=
  ∀ (i : Nat) (c : Client), s.clients[i]? = some c → ∃ c', s'.clients[i]? = some c' ∧ c.sent <+: c'.sent

theorem grows_put {i : Nat} {c c' : Client} (hc : s.clients[i]? = some c) (h : c.sent <+: c'.sent) :
    Grows s (s.put i c') := by
  intro j d hd
  by_cases hij : i = j
  · subst hij
    rw [hc, Option.some.injEq] at hd
    exact ⟨c', put_self c' hc, hd ▸ h⟩
  · exact ⟨d, by rw [World.put, List.getElem?_set_ne hij, hd], List.prefix_refl _⟩

theorem prefix_get {β : Type} {l l' : List β} (h : l <+: l') {j : Nat} {x : β} (hx : l[j]? = some x) :
    l'[j]? = some x := by
  obtain ⟨post, rfl⟩ := h
  rw [List.getElem?_append_left (List.getElem?_eq_some_iff.mp hx).1, hx]

theorem Sent.grows {i : Nat} {m : List UInt8} (hg : Grows s s') (h : Sent s i m) : Sent s' i m := by
  obtain ⟨c, hc, hm⟩ := h
  obtain ⟨c', hc', hpre⟩ := hg i c hc
  exact ⟨c', hc', hpre.subset hm⟩

theorem Answers.grows {i : Nat} {p : List UInt8} (hg : Grows s s') (h : Answers s i p) :
    Answers s' i p := by
  obtain ⟨m, hm, hne, hp⟩ := h
  exact ⟨m, hm.grows hg, hne, hp⟩

variable {inputs : List (List (List UInt8))}

/-- A step of a client keeps honesty, if it keeps its own account and puts an honest datagram at most. -/
theorem Honest.put {i : Nat} {c : Client} (c' : Client) {network : List Datagram} (h : Honest inputs s)
    (hc : s.clients[i]? = some c) (hpre : c.sent <+: c'.sent)
    (hown : Answered c → Answered c') (hscript : ∀ lines, Script lines c → Script lines c')
    (hnet : ∀ d ∈ network, d ∈ s.network ∨ ∃ m ∈ c'.sent, d = .request i m) :
    Honest inputs { s.put i c' with network := network } := by
  have hg : Grows s { s.put i c' with network := network } := grows_put hc hpre
  have hself : (s.put i c').clients[i]? = some c' := put_self c' hc
  refine ⟨?_, ?_, ?_, ?_, h.buffer, ?_⟩
  · intro k m hmem
    rcases hnet _ hmem with hold | ⟨m', hm', he⟩
    · exact (h.requests k m hold).grows hg
    · cases he
      exact ⟨c', hself, hm'⟩
  · intro k p hmem
    rcases hnet _ hmem with hold | ⟨m', hm', he⟩
    · exact (h.replies k p hold).grows hg
    · cases he
  · intro k p hpc
    exact (h.serving k p hpc).grows hg
  · intro x hx
    obtain ⟨m, hm, hne, he⟩ := h.received x hx
    exact ⟨m, hm.grows hg, hne, he⟩
  · intro k d hd
    rcases put_cases hd with ⟨rfl, rfl⟩ | ⟨_, hold⟩
    · obtain ⟨hans, lines, hl, hs⟩ := h.clients k c hc
      exact ⟨hown hans, lines, hl, hscript lines hs⟩
    · exact h.clients k d hold

/-- A step of the server or of the network keeps honesty, if what it adds is honest. -/
theorem Honest.serve (h : Honest inputs s) {server : Server} {network : List Datagram}
    (hnet : ∀ d ∈ network, d ∈ s.network ∨ ∃ i p, d = .reply i p ∧ Answers s i p)
    (hpc : ∀ i p, server.pc = .send i p → Answers s i p)
    (hrec : ∀ x ∈ server.received, x ∈ s.server.received ∨
      ∃ m, Sent s x.1 m ∧ m ≠ [] ∧ x.2 = UdpEcho.received m)
    (hbuf : server.buffer.length = 1024) :
    Honest inputs { s with server := server, network := network } := by
  refine ⟨?_, ?_, hpc, ?_, hbuf, h.clients⟩
  · intro i m hmem
    rcases hnet _ hmem with hold | ⟨j, p, he, _⟩
    · exact h.requests i m hold
    · cases he
  · intro i p hmem
    rcases hnet _ hmem with hold | ⟨j, q, he, ha⟩
    · exact h.replies i p hold
    · cases he
      exact ha
  · intro x hx
    rcases hrec x hx with hold | hnew
    · exact h.received x hold
    · exact hnew

theorem Answered.keep {c c' : Client} (h : Answered c) (hpc : c.pc = .recv → c'.pc = .recv ∨ c'.pc = .failed)
    (hpc' : c'.pc = .recv → c.pc = .recv) (hfail : c.pc = .failed → c'.pc = .failed)
    (hs : c'.sent = c.sent) (hp : c'.printed = c.printed) : Answered c' := by
  refine ⟨?_, ?_, ?_, ?_, ?_⟩
  · rw [hs, hp]
    exact h.printed
  · intro hr
    rw [hs, hp]
    exact h.waits (hpc' hr)
  · rw [hs, hp]
    exact h.bound
  · rw [hs, hp]
    exact h.ahead
  · intro hr hf
    rw [hs, hp]
    refine h.rest (fun hcr => ?_) fun hcf => hf (hfail hcf)
    rcases hpc hcr with h1 | h1
    · exact hr h1
    · exact hf h1

/-- A client sends a message, and waits for the response. -/
theorem Answered.send {c : Client} {msg : List UInt8} (h : Answered c) (hpc : c.pc = .send msg) :
    Answered { c with pc := .recv, sent := c.sent ++ [msg] } := by
  have hlen := h.rest (fun hr => by rw [hpc] at hr; cases hr) fun hf => by rw [hpc] at hf; cases hf
  refine ⟨fun k p hp => ?_, fun _ => ?_, ?_, ?_, fun hr => absurd rfl hr⟩
  · obtain ⟨j, hj, m, hm, hne, he⟩ := h.printed k p hp
    exact ⟨j, hj, m, prefix_get (List.prefix_append _ _) hm, hne, he⟩
  · rw [List.length_append, hlen]
    rfl
  · rw [List.length_append, hlen]
    exact Nat.le_succ _
  · rw [List.length_append, hlen]
    exact Nat.le_refl _

/-- A client prints the response to a message that it has sent. -/
theorem Answered.print {c : Client} {m : List UInt8} (h : Answered c) (hpc : c.pc = .recv) (hm : m ∈ c.sent)
    (hne : m ≠ []) : Answered { c with pc := .enter, printed := c.printed ++ [shown m] } := by
  have hwait := h.waits hpc
  obtain ⟨j, hj⟩ := List.mem_iff_getElem?.mp hm
  refine ⟨fun k p hp => ?_, fun hr => (by cases hr), ?_, ?_, fun _ _ => ?_⟩
  · by_cases hk : k < c.printed.length
    · rw [List.getElem?_append_left hk] at hp
      exact h.printed k p hp
    · have hle : c.printed.length ≤ k := Nat.le_of_not_lt hk
      have hlt : j < c.sent.length := (List.getElem?_eq_some_iff.mp hj).1
      rw [List.getElem?_append_right hle] at hp
      have hp' : p = shown m := by simpa using List.mem_of_getElem? hp
      exact ⟨j, by omega, m, hj, hne, hp'⟩
  · show (c.printed ++ [_]).length ≤ c.sent.length
    rw [List.length_append, hwait]
    exact Nat.le_refl _
  · show c.sent.length ≤ (c.printed ++ [_]).length + 1
    rw [List.length_append, hwait]
    exact Nat.le_succ _
  · show c.sent.length = (c.printed ++ [_]).length
    rw [List.length_append, hwait]
    rfl

/-- A client reads a line, or leaves. -/
theorem Honest.enter (h : Honest inputs s) {i : Nat} {c : Client} {pc : ClientPc} {input : List (List UInt8)}
    (hc : s.clients[i]? = some c) (hpc : c.pc = .enter) (hpc' : pc ≠ .recv)
    (hscript : ∀ lines, Script lines c → Script lines { c with pc := pc, input := input }) :
    Honest inputs (s.put i { c with pc := pc, input := input }) := by
  refine h.put _ hc (List.prefix_refl _) (fun ha => ?_) hscript fun d hd => Or.inl hd
  exact ha.keep (fun hr => by rw [hpc] at hr; cases hr) (fun hr => absurd hr hpc')
    (fun hf => by rw [hpc] at hf; cases hf) rfl rfl

/-- A call of a client fails. -/
theorem Honest.fail (h : Honest inputs s) {i : Nat} {c : Client} (hc : s.clients[i]? = some c) :
    Honest inputs (s.put i { c with pc := .failed }) := by
  refine h.put _ hc (List.prefix_refl _) (fun ha => ?_) (fun lines hl => hl.begins) fun d hd => Or.inl hd
  exact ha.keep (fun _ => Or.inr rfl) (fun hr => by cases hr) (fun _ => rfl) rfl rfl

theorem honest_sends (h : Honest inputs s) {i : Nat} {c : Client} {msg : List UInt8} (hc : s.clients[i]? = some c)
    (hpc : c.pc = .send msg) : Honest inputs (s.clientSend i c msg true) := by
  refine h.put { c with pc := .recv, sent := c.sent ++ [msg] } hc (List.prefix_append _ _)
    (fun ha => ha.send hpc) (fun lines hl => ?_) (fun d hd => ?_)
  · simp only [Script, hpc] at hl ⊢
    rw [hl, List.append_assoc]
    rfl
  · rcases List.mem_append.mp hd with hold | hnew
    · exact Or.inl hold
    · exact Or.inr ⟨msg, by simp, by simpa using hnew⟩

theorem honest_prints (h : Honest inputs s) {i k : Nat} {c : Client} {payload : List UInt8}
    (hc : s.clients[i]? = some c) (hk : s.network[k]? = some (.reply i payload)) (hpc : c.pc = .recv) :
    Honest inputs (s.clientRecv i k c payload) := by
  refine h.put _ hc (List.prefix_refl _) (fun ha => ?_) (fun lines hl => ?_)
    (fun d hd => Or.inl (List.mem_of_mem_eraseIdx hd))
  · obtain ⟨m, ⟨d, hd, hmem⟩, hne, rfl⟩ := h.replies i payload (List.mem_of_getElem? hk)
    rw [hc, Option.some.injEq] at hd
    subst hd
    rw [text_shown]
    exact ha.print hpc hmem hne
  · simp only [Script, hpc] at hl ⊢
    exact hl

theorem honest_takes (h : Honest inputs s) {i k : Nat} {payload : List UInt8}
    (hk : s.network[k]? = some (.request i payload)) :
    Honest inputs { s with server := s.server.receive i payload, network := s.network.eraseIdx k } := by
  have hsent := h.requests i payload (List.mem_of_getElem? hk)
  by_cases hne : payload = []
  · rw [Server.receive, if_pos hne]
    exact h.serve (fun d hd => Or.inl (List.mem_of_mem_eraseIdx hd)) (fun l p hp => by cases hp)
      (fun x hx => Or.inl hx) h.buffer
  · have htext : text 0 (fill 0 s.server.buffer (payload.take (limit 1024))) = received payload :=
      text_received (by decide) h.buffer payload
    rw [Server.receive, if_neg hne]
    refine h.serve (fun d hd => Or.inl (List.mem_of_mem_eraseIdx hd)) (fun l p hp => ?_) (fun x hx => ?_)
      (fill_limit_length (by decide) h.buffer payload)
    · simp only [ServerPc.send.injEq] at hp
      rw [htext] at hp
      obtain ⟨rfl, rfl⟩ := hp
      exact ⟨payload, hsent, hne, rfl⟩
    · rcases List.mem_append.mp hx with hold | hnew
      · exact Or.inl hold
      · rw [List.mem_singleton, htext] at hnew
        subst hnew
        exact Or.inr ⟨payload, hsent, hne, rfl⟩

theorem honest_serverFails (h : Honest inputs s) (eintr : Bool) :
    Honest inputs { s with server := s.server.receiveFails eintr } := by
  unfold Server.receiveFails
  split
  · exact h.serve (fun d hd => Or.inl hd) (fun i p hp => by cases hp) (fun x hx => Or.inl hx) (blank_length 0 1024)
  · exact h.serve (fun d hd => Or.inl hd) (fun i p hp => by cases hp) (fun x hx => Or.inl hx) h.buffer

theorem honest_responds (h : Honest inputs s) {i : Nat} {msg : List UInt8} (hpc : s.server.pc = .send i msg)
    (ok : Bool) : Honest inputs (s.serverSend i msg ok) := by
  have ha := h.serving i msg hpc
  refine h.serve (fun d hd => ?_) (fun l p hp => by cases hp) (fun x hx => Or.inl hx) (blank_length 0 1024)
  cases ok with
  | false => exact Or.inl hd
  | true =>
    rcases List.mem_append.mp hd with hold | hnew
    · exact Or.inl hold
    · exact Or.inr ⟨i, msg, by simpa using hnew, ha⟩

/-- **A step keeps honesty**, whatever the network does. -/
theorem honest_step (h : Honest inputs s) (hs : step s a = some s') : Honest inputs s' := by
  cases step_cases hs with
  | @endOfInput i c hc hpc hin =>
    refine h.enter hc hpc (by simp) fun lines hl => ?_
    simp only [Script, hpc, hin] at hl ⊢
    exact hl.trans (List.append_nil _)
  | @quits i c input hc hpc hin =>
    refine h.enter hc hpc (by simp) fun lines hl => ?_
    simp only [Script, hpc, hin, asked_quit] at hl ⊢
    exact hl.trans (List.append_nil _)
  | @reads i c msg input hc hpc hin hq =>
    refine h.enter hc hpc (by simp) fun lines hl => ?_
    simp only [Script, hpc, hin, asked_cons hq] at hl ⊢
    exact hl
  | sends hc hpc => exact honest_sends h hc hpc
  | sendFails hc hpc => exact h.fail hc
  | prints hc hk hpc => exact honest_prints h hc hk hpc
  | recvFails hc hpc => exact h.fail hc
  | tests hpc =>
    refine h.serve (fun d hd => Or.inl hd) (fun i p hp => ?_) (fun x hx => Or.inl hx) h.buffer
    simp only at hp
    split at hp <;> cases hp
  | takes hk hpc => exact honest_takes h hk
  | shut hpc hr =>
    exact h.serve (fun d hd => Or.inl hd) (fun i p hp => by cases hp) (fun x hx => Or.inl hx) h.buffer
  | serverFails hpc => exact honest_serverFails h _
  | responds hpc => exact honest_responds h hpc _
  | stops => exact h.serve (fun d hd => Or.inl hd) h.serving (fun x hx => Or.inl hx) h.buffer
  | loses =>
    exact h.serve (fun d hd => Or.inl (List.mem_of_mem_eraseIdx hd)) h.serving (fun x hx => Or.inl hx) h.buffer
  | duplicates hk =>
    refine h.serve (fun x hx => Or.inl ?_) h.serving (fun x hx => Or.inl hx) h.buffer
    rcases List.mem_append.mp hx with hold | hnew
    · exact hold
    · rw [List.mem_singleton] at hnew
      exact hnew ▸ List.mem_of_getElem? hk

theorem init_client {i : Nat} {c : Client} (hc : (init inputs).clients[i]? = some c) :
    ∃ lines, inputs[i]? = some lines ∧ c = ⟨.enter, lines, [], []⟩ := by
  simp only [init, List.getElem?_map, Option.map_eq_some_iff] at hc
  obtain ⟨lines, hl, he⟩ := hc
  exact ⟨lines, hl, he.symm⟩

theorem honest_init (inputs : List (List (List UInt8))) : Honest inputs (init inputs) := by
  refine ⟨fun _ _ h => (by cases h), fun _ _ h => (by cases h), fun _ _ h => (by cases h),
    fun _ h => (by cases h), blank_length 0 1024, fun i c hc => ?_⟩
  obtain ⟨lines, hl, rfl⟩ := init_client hc
  refine ⟨⟨fun k p hp => (by simp at hp), fun h => (by cases h), Nat.le_refl _,
    Nat.zero_le _, fun _ _ => rfl⟩, lines, hl, ?_⟩
  exact List.nil_append _

theorem run_honest {ok : World → Action → World → Prop} (h : Reach ok step (init inputs) s) :
    Honest inputs s :=
  h.invariant (honest_init inputs) fun _ _ _ hi hs _ => honest_step hi hs

/-- **A client prints responses to its own messages**, for any clients, any input and any behaviour of the
    network.  The k-th response that a client prints answers one of its first k messages, by the text of
    this message as far as the buffers of the server and of the client go; the messages are the lines of
    its input before `"quit"`, in order; and what the server prints of a client is the text of a message
    of this client. -/
theorem replies_own (inputs : List (List (List UInt8))) (s : World) (h : Reach anyStep step (init inputs) s)
    (i : Nat) (c : Client) (hc : s.clients[i]? = some c) :
    (∀ (k : Nat) (p : List UInt8), c.printed[k]? = some p →
      ∃ j ≤ k, ∃ m, c.sent[j]? = some m ∧ m ≠ [] ∧ p = (response (received m)).take (limit 1024)) ∧
    (∃ lines, inputs[i]? = some lines ∧ c.sent <+: asked lines) ∧
    ∀ t, (i, t) ∈ s.server.received → ∃ m ∈ c.sent, m ≠ [] ∧ t = received m := by
  have hh := run_honest h
  obtain ⟨hans, lines, hl, hs⟩ := hh.clients i c hc
  refine ⟨hans.printed, ⟨lines, hl, hs.begins⟩, fun t ht => ?_⟩
  obtain ⟨m, ⟨d, hd, hm⟩, hne, he⟩ := hh.received (i, t) ht
  rw [hc, Option.some.injEq] at hd
  exact ⟨m, hd ▸ hm, hne, he⟩

/-- The request is delivered twice, so that the second message gets the response to the first. -/
def duplicated : List Action :=
  [.enter 0, .clientSend 0 true, .duplicate 0, .serverTest, .serverRecv 0, .serverSend true,
    .clientRecv 0 1, .serverTest, .serverRecv 0, .serverSend true, .enter 0, .clientSend 0 true,
    .clientRecv 0 0]

/-- A client that sends `A` and `B`. -/
def two : List (List (List UInt8)) := [[[65], [66]]]

theorem replies_own_two : ∃ c, ((exec step (init two) duplicated).get (by decide)).clients[0]? = some c ∧
    c.printed[1]? = some (response [65]) ∧ ∃ j ≤ 1, ∃ m, c.sent[j]? = some m ∧ m ≠ [] ∧
      response [65] = (response (received m)).take (limit 1024) := by
  have hc : ((exec step (init two) duplicated).get (by decide)).clients[0]? =
      some ⟨.enter, [], [[65], [66]], [response [65], response [65]]⟩ := by decide +kernel
  have h := (replies_own two _ (exec_reach_get duplicated (by decide)) 0 _ hc).1 1 (response [65]) rfl
  exact ⟨_, hc, rfl, h⟩

end CppBackend.UdpEcho
