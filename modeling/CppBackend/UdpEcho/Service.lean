import CppBackend.UdpEcho.Replies
import CppBackend.Library.Budget
import Mathlib.Data.List.TakeWhile

/-!
# What clients get over a network that behaves

If nothing is delivered twice, at most one datagram is under way for a client, so its k-th response
answers its k-th message (`InStep`).  If nothing is lost either and no call fails, every run ends, and a
client gets all its lines answered unless one of them is empty: the server does not answer an empty
datagram, and this client waits for ever, without harm to the others (`served`).
-/

set_option autoImplicit false

namespace CppBackend.UdpEcho

open Library.CString Library.Transition Library.Tally Library.Budget

/-- The client that a datagram comes from or goes to. -/
def Datagram.client : Datagram → Nat
  | .request i _ | .reply i _ => i

/-- On behalf of the client `i`. -/
def concerns (i : Nat) (d : Datagram) : Bool := d.client == i

/-- The server is about to answer the client `i`. -/
def serving (i : Nat) : ServerPc → Bool
  | .send j _ => j == i
  | _ => false

/-- How much is under way on behalf of a client. -/
def underWay (i : Nat) (s : World) : Int := tally (ind (concerns i)) s.network + ind (serving i) s.server.pc

def Action.duplicates : Action → Bool
  | .duplicate _ => true
  | _ => false

/-- Nothing is delivered twice. -/
def noDuplicate : World → Action → World → Prop := fun _ a _ => a.duplicates = false

instance (s : World) (a : Action) (s' : World) : Decidable (noDuplicate s a s') :=
  inferInstanceAs (Decidable (_ = false))

/-- The message whose response the client waits for. -/
def current (c : Client) : Option (List UInt8) := c.sent[c.printed.length]?

/-- One thing at a time for the client `i`. -/
structure ClientInStep (s : World) (i : Nat) (c : Client) : Prop where
  quiet : c.pc ≠ .recv → c.pc ≠ .failed → underWay i s = 0
  one : underWay i s ≤ 1
  requests : c.pc = .recv → ∀ p, .request i p ∈ s.network → current c = some p
  replies : c.pc = .recv → ∀ p, .reply i p ∈ s.network ∨ s.server.pc = .send i p →
    ∃ m, current c = some m ∧ m ≠ [] ∧ p = response (received m)
  printed : c.printed = (c.sent.take c.printed.length).map shown
  answered : ∀ m ∈ c.sent.take c.printed.length, m ≠ []

def InStep (s : World) : Prop := ∀ (i : Nat) (c : Client), s.clients[i]? = some c → ClientInStep s i c

variable {inputs : List (List (List UInt8))} {s s' : World} {a : Action} {i : Nat} {c : Client}

theorem underWay_nonneg (i : Nat) (s : World) : 0 ≤ underWay i s :=
  Int.add_nonneg (tally_nonneg (ind_nonneg _)) (ind_nonneg _ _)

/-- What concerns a client without anything under way is not in the network. -/
theorem not_mem_of_quiet (h : underWay i s = 0) {d : Datagram} (hd : d.client = i) : d ∉ s.network := by
  intro hmem
  have hle := le_tally (ind_nonneg (concerns i)) hmem
  have hs := ind_nonneg (serving i) s.server.pc
  rw [ind_of_true (by simp [concerns, hd])] at hle
  unfold underWay at h
  omega

theorem not_serving_of_quiet (h : underWay i s = 0) (p : List UInt8) : s.server.pc ≠ .send i p := by
  intro hpc
  have h0 : 0 ≤ tally (ind (concerns i)) s.network := tally_nonneg (ind_nonneg _)
  have hs : ind (serving i) s.server.pc = 1 := ind_of_true (by simp [serving, hpc])
  unfold underWay at h
  omega

/-- A client that does not move is in step, if what is under way for it has only changed its place. -/
theorem ClientInStep.keep (h : ClientInStep s i c) (hle : underWay i s' ≤ underWay i s)
    (hreq : ∀ p, .request i p ∈ s'.network → .request i p ∈ s.network)
    (hrep : ∀ p, .reply i p ∈ s'.network ∨ s'.server.pc = .send i p →
      (.reply i p ∈ s.network ∨ s.server.pc = .send i p) ∨
        ∃ m, .request i m ∈ s.network ∧ m ≠ [] ∧ p = response (received m)) : ClientInStep s' i c where
  quiet hr hf := by
    have := h.quiet hr hf
    have := underWay_nonneg i s'
    omega
  one := le_trans hle h.one
  requests hr p hp := h.requests hr p (hreq p hp)
  replies hr p hp := by
    rcases hrep p hp with hold | ⟨m, hm, hne, he⟩
    · exact h.replies hr p hold
    · exact ⟨m, h.requests hr m hm, hne, he⟩
  printed := h.printed
  answered := h.answered

/-- A client at the end of a call, or between two, in step. -/
theorem ClientInStep.move (h : ClientInStep s i c) {c' : Client} (hs : c'.sent = c.sent)
    (hp : c'.printed = c.printed) (hr : c'.pc ≠ .recv) (hf : c'.pc = .failed ∨ underWay i s = 0) :
    ClientInStep (s.put i c') i c' where
  quiet _ hnf := hf.resolve_left hnf
  one := h.one
  requests hpc := absurd hpc hr
  replies hpc := absurd hpc hr
  printed := by rw [hs, hp]; exact h.printed
  answered := by rw [hs, hp]; exact h.answered

theorem instep_put (h : InStep s) {j : Nat} {c' : Client} (hown : ClientInStep (s.put j c') j c') :
    InStep (s.put j c') := by
  intro i c hc
  rcases put_cases hc with ⟨rfl, rfl⟩ | ⟨_, hold⟩
  · exact hown
  · exact (h i c hold).keep (le_refl _) (fun _ hp => hp) fun _ hp => Or.inl hp

theorem underWay_append (d : Datagram) : underWay i { s with network := s.network ++ [d] } =
    underWay i s + ind (concerns i) d := by
  simp only [underWay, tally_append, tally_cons, tally_nil]
  omega

theorem underWay_erase {k : Nat} {d : Datagram} (hk : s.network[k]? = some d) :
    underWay i { s with network := s.network.eraseIdx k } = underWay i s - ind (concerns i) d := by
  simp only [underWay, tally_eraseIdx hk]
  omega

theorem ind_concerns_ne {d : Datagram} (h : d.client ≠ i) : ind (concerns i) d = 0 :=
  ind_of_false (by simpa [concerns] using h)

theorem ind_concerns_self (d : Datagram) : ind (concerns d.client) d = 1 :=
  ind_of_true (by simp [concerns])

/-- A client that sends has nothing under way before, and this message behind. -/
theorem instep_sends (hi : InStep s) (ha : Answered c) {msg : List UInt8} (hc : s.clients[i]? = some c)
    (hpc : c.pc = .send msg) : InStep (s.clientSend i c msg true) := by
  have hin := hi i c hc
  have hq : underWay i s = 0 := hin.quiet (fun h => by rw [hpc] at h; cases h) fun h => by rw [hpc] at h; cases h
  have hlen : c.sent.length = c.printed.length :=
    ha.rest (fun h => by rw [hpc] at h; cases h) fun h => by rw [hpc] at h; cases h
  intro j d hd
  rcases put_cases hd with ⟨rfl, rfl⟩ | ⟨hji, hold⟩
  · have hone : underWay j (s.clientSend j c msg true) = 1 := by
      have h1 := underWay_append (i := j) (s := s) (.request j msg)
      have h2 := ind_concerns_self (.request j msg)
      show underWay j { s with network := s.network ++ [.request j msg] } = 1
      rw [h1, hq, zero_add]
      exact h2
    have htake : (c.sent ++ [msg]).take c.printed.length = c.sent.take c.printed.length :=
      List.take_append_of_le_length (le_of_eq hlen.symm)
    refine ⟨fun hr => absurd rfl hr, le_of_eq hone, fun _ p hp => ?_, fun _ p hp => ?_, ?_, ?_⟩
    · rcases List.mem_append.mp hp with hold | hnew
      · exact absurd hold (not_mem_of_quiet hq rfl)
      · rw [List.mem_singleton, Datagram.request.injEq] at hnew
        rw [hnew.2, current, ← hlen]
        simp
    · rcases hp with hmem | hpc'
      · rcases List.mem_append.mp hmem with hold | hnew
        · exact absurd hold (not_mem_of_quiet hq rfl)
        · simp at hnew
      · exact absurd hpc' (not_serving_of_quiet hq p)
    · rw [htake]
      exact hin.printed
    · rw [htake]
      exact hin.answered
  · refine (hi j d hold).keep ?_ (fun p hp => ?_) fun p hp => ?_
    · have h1 := underWay_append (i := j) (s := s) (.request i msg)
      have h2 : ind (concerns j) (.request i msg) = 0 := ind_concerns_ne (Ne.symm hji)
      show underWay j { s with network := s.network ++ [.request i msg] } ≤ _
      omega
    · rcases List.mem_append.mp hp with hold | hnew
      · exact hold
      · rw [List.mem_singleton, Datagram.request.injEq] at hnew
        exact absurd hnew.1 hji
    · rcases hp with hmem | hpc'
      · rcases List.mem_append.mp hmem with hold | hnew
        · exact Or.inl (Or.inl hold)
        · simp at hnew
      · exact Or.inl (Or.inr hpc')

/-- The response that a client takes is the one under way for it. -/
theorem instep_prints (hi : InStep s) (ha : Answered c) {k : Nat} {payload : List UInt8}
    (hc : s.clients[i]? = some c) (hk : s.network[k]? = some (.reply i payload)) (hpc : c.pc = .recv) :
    InStep (s.clientRecv i k c payload) := by
  have hin := hi i c hc
  have herase : ∀ j, underWay j (s.clientRecv i k c payload) =
      underWay j s - ind (concerns j) (.reply i payload) := fun j => underWay_erase hk
  obtain ⟨m, hcur, hne, rfl⟩ := hin.replies hpc payload (Or.inl (List.mem_of_getElem? hk))
  have hwait := ha.waits hpc
  intro j d hd
  rcases put_cases hd with ⟨rfl, rfl⟩ | ⟨hji, hold⟩
  · have hzero : underWay j (s.clientRecv j k c (response (received m))) = 0 := by
      have h1 := herase j
      have h2 := ind_concerns_self (.reply j (response (received m)))
      have h3 := hin.one
      have h4 := underWay_nonneg j (s.clientRecv j k c (response (received m)))
      have h5 : ind (concerns j) (.reply j (response (received m))) = 1 := h2
      omega
    have hsplit : c.sent.take (c.printed.length + 1) = c.sent.take c.printed.length ++ [m] := by
      rw [List.take_add_one, show c.sent[c.printed.length]? = some m from hcur]
      rfl
    refine ⟨fun _ _ => hzero, by omega, fun hr => (by cases hr), fun hr => (by cases hr), ?_, ?_⟩
    · show c.printed ++ [_] = (c.sent.take (c.printed ++ [_]).length).map shown
      rw [List.length_append, List.length_singleton, hsplit, List.map_append, ← hin.printed, text_shown]
      rfl
    · intro x hx
      rw [show (c.printed ++ [text 0 (fill 0 (blank 0 1024) ((response (received m)).take (limit 1024)))]).length =
        c.printed.length + 1 from List.length_append, hsplit] at hx
      rcases List.mem_append.mp hx with hold | hnew
      · exact hin.answered x hold
      · rw [List.mem_singleton] at hnew
        exact hnew ▸ hne
  · refine (hi j d hold).keep ?_ (fun p hp => List.mem_of_mem_eraseIdx hp) fun p hp => ?_
    · have h1 := herase j
      have h2 := ind_nonneg (concerns j) (.reply i (response (received m)))
      omega
    · rcases hp with hmem | hpc'
      · exact Or.inl (Or.inl (List.mem_of_mem_eraseIdx hmem))
      · exact Or.inl (Or.inr hpc')

/-- The server takes a datagram, and drops an empty one. -/
theorem instep_takes (hh : Honest inputs s) (hi : InStep s) {k : Nat} {payload : List UInt8}
    (hk : s.network[k]? = some (.request i payload)) :
    InStep { s with server := s.server.receive i payload, network := s.network.eraseIdx k } := by
  have hmem := List.mem_of_getElem? hk
  have hpc' : payload ≠ [] → (s.server.receive i payload).pc = .send i (response (received payload)) := by
    intro hne
    rw [Server.receive, if_neg hne]
    exact congrArg (fun t => ServerPc.send i (response t)) (text_received (by decide) hh.buffer payload)
  have hcase : (s.server.receive i payload).pc = .top ∨
      (payload ≠ [] ∧ (s.server.receive i payload).pc = .send i (response (received payload))) := by
    by_cases hne : payload = []
    · exact Or.inl (by rw [Server.receive, if_pos hne])
    · exact Or.inr ⟨hne, hpc' hne⟩
  intro j d hd
  refine (hi j d hd).keep ?_ (fun p hp => List.mem_of_mem_eraseIdx hp) fun p hp => ?_
  · have h1 : tally (ind (concerns j)) (s.network.eraseIdx k) =
        tally (ind (concerns j)) s.network - ind (concerns j) (.request i payload) := tally_eraseIdx hk
    have h2 : ind (serving j) (s.server.receive i payload).pc ≤ ind (concerns j) (.request i payload) := by
      rcases hcase with ht | ⟨_, hs⟩
      · rw [ht]
        exact ind_nonneg _ _
      · rw [hs]
        exact le_refl _
    have h3 := ind_nonneg (serving j) s.server.pc
    unfold underWay
    show tally (ind (concerns j)) (s.network.eraseIdx k) +
      ind (serving j) (s.server.receive i payload).pc ≤ _
    omega
  · rcases hp with hmem' | hs
    · exact Or.inl (Or.inl (List.mem_of_mem_eraseIdx hmem'))
    · rcases hcase with ht | ⟨hne, hsend⟩
      · rw [show ({ s with server := s.server.receive i payload, network := s.network.eraseIdx k } :
          World).server.pc = .top from ht] at hs
        cases hs
      · rw [show ({ s with server := s.server.receive i payload, network := s.network.eraseIdx k } :
          World).server.pc = _ from hsend, ServerPc.send.injEq] at hs
        obtain ⟨rfl, rfl⟩ := hs
        exact Or.inr ⟨payload, hmem, hne, rfl⟩

/-- The server's response becomes a datagram, or is lost. -/
theorem instep_responds (hi : InStep s) {msg : List UInt8} (ok : Bool) (hpc : s.server.pc = .send i msg) :
    InStep (s.serverSend i msg ok) := by
  intro j d hd
  refine (hi j d hd).keep ?_ (fun p hp => ?_) fun p hp => ?_
  · have h1 : ind (serving j) s.server.pc = ind (concerns j) (.reply i msg) := by
      rw [hpc]
      rfl
    have h2 := ind_nonneg (concerns j) (.reply i msg)
    unfold underWay World.serverSend
    cases ok with
    | true =>
      simp only [if_true, tally_append, tally_cons, tally_nil]
      rw [h1, show ind (serving j) ServerPc.top = 0 from rfl]
      omega
    | false =>
      simp only [Bool.false_eq_true, if_false]
      rw [h1, show ind (serving j) ServerPc.top = 0 from rfl]
      omega
  · cases ok with
    | true =>
      rcases List.mem_append.mp hp with hold | hnew
      · exact hold
      · simp at hnew
    | false => exact hp
  · rcases hp with hmem | hs
    · cases ok with
      | true =>
        rcases List.mem_append.mp hmem with hold | hnew
        · exact Or.inl (Or.inl hold)
        · rw [List.mem_singleton, Datagram.reply.injEq] at hnew
          obtain ⟨rfl, rfl⟩ := hnew
          exact Or.inl (Or.inr hpc)
      | false => exact Or.inl (Or.inl hmem)
    · cases hs

/-- The server goes on without a message in hand. -/
theorem instep_server (hi : InStep s) {server : Server} (hn : ∀ j p, server.pc = .send j p → s.server.pc = .send j p)
    (hle : ∀ j, ind (serving j) server.pc ≤ ind (serving j) s.server.pc) :
    InStep { s with server := server } := by
  intro j d hd
  refine (hi j d hd).keep ?_ (fun p hp => hp) fun p hp => Or.inl (hp.imp_right (hn j p))
  have := hle j
  unfold underWay
  show tally (ind (concerns j)) s.network + ind (serving j) server.pc ≤ _
  omega

theorem instep_idle (hi : InStep s) {server : Server} (hpc : ∀ j p, server.pc ≠ .send j p) :
    InStep { s with server := server } := by
  refine instep_server hi (fun j p h => absurd h (hpc j p)) fun j => ?_
  have h0 : ind (serving j) server.pc = 0 := by
    refine ind_of_false ?_
    unfold serving
    split
    · rename_i k p h
      exact absurd h (hpc k p)
    · rfl
  rw [h0]
  exact ind_nonneg _ _

/-- **A step that duplicates nothing keeps the clients in step.** -/
theorem instep_step (hh : Honest inputs s) (hi : InStep s) (hs : step s a = some s')
    (ha : noDuplicate s a s') : InStep s' := by
  cases step_cases hs with
  | @endOfInput i c hc hpc hin =>
    have hq := (hi i c hc).quiet (fun h => by rw [hpc] at h; cases h) fun h => by rw [hpc] at h; cases h
    exact instep_put hi ((hi i c hc).move rfl rfl (fun h => by cases h) (Or.inr hq))
  | @quits i c input hc hpc hin =>
    have hq := (hi i c hc).quiet (fun h => by rw [hpc] at h; cases h) fun h => by rw [hpc] at h; cases h
    exact instep_put hi ((hi i c hc).move rfl rfl (fun h => by cases h) (Or.inr hq))
  | @reads i c msg input hc hpc hin hne =>
    have hq := (hi i c hc).quiet (fun h => by rw [hpc] at h; cases h) fun h => by rw [hpc] at h; cases h
    exact instep_put hi ((hi i c hc).move rfl rfl (fun h => by cases h) (Or.inr hq))
  | @sends i c msg hc hpc => exact instep_sends hi (hh.clients i c hc).1 hc hpc
  | @sendFails i c msg hc hpc =>
    exact instep_put hi ((hi i c hc).move rfl rfl (fun h => by cases h) (Or.inl rfl))
  | @prints i k c payload hc hk hpc => exact instep_prints hi (hh.clients i c hc).1 hc hk hpc
  | @recvFails i c hc hpc =>
    exact instep_put hi ((hi i c hc).move rfl rfl (fun h => by cases h) (Or.inl rfl))
  | tests hpc =>
    refine instep_idle hi fun j p h => ?_
    simp only at h
    split at h <;> cases h
  | takes hk hpc => exact instep_takes hh hi hk
  | shut hpc hr => exact instep_idle hi fun j p h => by cases h
  | serverFails hpc =>
    refine instep_idle hi fun j p h => ?_
    unfold Server.receiveFails at h
    split at h <;> cases h
  | responds hpc => exact instep_responds hi _ hpc
  | stops => exact instep_server hi (fun _ _ h => h) fun _ => le_refl _
  | @loses k =>
    intro j d hd
    refine (hi j d hd).keep ?_ (fun p hp => List.mem_of_mem_eraseIdx hp)
      fun p hp => Or.inl (hp.imp_left List.mem_of_mem_eraseIdx)
    cases hk : s.network[k]? with
    | none =>
      rw [List.eraseIdx_of_length_le (List.getElem?_eq_none_iff.mp hk)]
    | some x =>
      have h1 := underWay_erase (i := j) hk
      have h2 := ind_nonneg (concerns j) x
      omega
  | duplicates hk => cases ha

theorem instep_init (inputs : List (List (List UInt8))) : InStep (init inputs) := by
  intro i c hc
  obtain ⟨lines, _, rfl⟩ := init_client hc
  have hq : underWay i (init inputs) = 0 := rfl
  exact ⟨fun _ _ => hq, by rw [hq]; decide, fun hr => (by cases hr), fun hr => (by cases hr), rfl,
    fun m hm => (by cases hm)⟩

theorem run_instep (h : Reach noDuplicate step (init inputs) s) : InStep s :=
  h.invariant_of (K := Honest inputs) (fun _ hr => run_honest hr) (instep_init inputs)
    fun _ _ _ hh hi hs ha => instep_step hh hi hs ha

/-- **Without duplicates every response answers the message before it**, for any clients and input,
    whatever is lost or comes in another order, whichever calls fail and whenever the server stops: the
    k-th response that a client prints is the response to its k-th message, and the client is at most one
    message ahead. -/
theorem responses_in_step (inputs : List (List (List UInt8))) (s : World)
    (h : Reach noDuplicate step (init inputs) s) (i : Nat) (c : Client) (hc : s.clients[i]? = some c) :
    c.printed = (c.sent.take c.printed.length).map (fun m => (response (received m)).take (limit 1024)) ∧
    c.sent.length ≤ c.printed.length + 1 ∧ c.printed.length ≤ c.sent.length := by
  have ha := ((run_honest h).clients i c hc).1
  exact ⟨(run_instep h i c hc).printed, ha.ahead, ha.bound⟩

/-- The second request is lost. -/
def lost : List Action :=
  [.enter 0, .clientSend 0 true, .serverTest, .serverRecv 0, .serverSend true, .clientRecv 0 0, .enter 0,
    .clientSend 0 true, .lose 0]

theorem responses_in_step_lost :
    ((exec (guarded noDuplicate step) (init two) lost).get (by decide +kernel)).clients[0]? =
      some ⟨.recv, [], [[65], [66]], [response [65]]⟩ ∧
    [response [65]] = ([[65], [66]].take 1).map (fun m => (response (received m)).take (limit 1024)) := by
  have hc : ((exec (guarded noDuplicate step) (init two) lost).get (by decide +kernel)).clients[0]? =
      some ⟨.recv, [], [[65], [66]], [response [65]]⟩ := by decide +kernel
  exact ⟨hc, (responses_in_step two _ (exec_guarded_get lost (by decide +kernel)) 0 _ hc).1⟩

/-! ## A network that loses nothing -/

/-- The call succeeds, and the network does what it should. -/
def Action.works : Action → Bool
  | .enter _ | .clientRecv _ _ | .serverTest | .serverRecv _ => true
  | .clientSend _ ok | .serverSend ok => ok
  | _ => false

def works : World → Action → World → Prop := fun _ a _ => a.works = true

instance (s : World) (a : Action) (s' : World) : Decidable (works s a s') :=
  inferInstanceAs (Decidable (_ = true))

theorem noDuplicate_of_works (h : works s a s') : noDuplicate s a s' := by
  cases a with
  | duplicate k => cases h
  | _ => rfl

/-- The server is in its loop, and whoever waits for a response gets one, or has sent nothing. -/
structure Attended (s : World) : Prop where
  running : s.server.isRunning = true
  looping : s.server.pc ≠ .left ∧ s.server.pc ≠ .failed
  unfailed : ∀ (i : Nat) (c : Client), s.clients[i]? = some c → c.pc ≠ .failed
  awaited : ∀ (i : Nat) (c : Client), s.clients[i]? = some c → c.pc = .recv →
    ∀ m, current c = some m → m ≠ [] → underWay i s = 1

theorem Attended.put (h : Attended s) (c' : Client) (hf : c'.pc ≠ .failed) (hr : c'.pc ≠ .recv) :
    Attended (s.put i c') := by
  refine ⟨h.running, h.looping, fun j d hd => ?_, fun j d hd hpc m hm hne => ?_⟩
  · rcases put_cases hd with ⟨rfl, rfl⟩ | ⟨_, hold⟩
    · exact hf
    · exact h.unfailed j d hold
  · rcases put_cases hd with ⟨rfl, rfl⟩ | ⟨_, hold⟩
    · exact absurd hpc hr
    · exact h.awaited j d hold hpc m hm hne

/-- The server or the network goes on, and what is under way for the clients stays so. -/
theorem Attended.serve (h : Attended s) {server : Server} {network : List Datagram}
    (hr : server.isRunning = true) (hl : server.pc ≠ .left ∧ server.pc ≠ .failed)
    (hu : ∀ (j : Nat) (d : Client), s.clients[j]? = some d → d.pc = .recv → ∀ m, current d = some m → m ≠ [] →
      underWay j { s with server := server, network := network } = underWay j s) :
    Attended { s with server := server, network := network } := by
  refine ⟨hr, hl, h.unfailed, fun j d hd hpc m hm hne => ?_⟩
  rw [hu j d hd hpc m hm hne]
  exact h.awaited j d hd hpc m hm hne

theorem attended_sends (hi : InStep s) (h : Attended s) {msg : List UInt8}
    (hc : s.clients[i]? = some c) (hpc : c.pc = .send msg) : Attended (s.clientSend i c msg true) := by
  have hgrow : ∀ j, underWay j (s.clientSend i c msg true) = underWay j s + ind (concerns j) (.request i msg) :=
    fun j => underWay_append (.request i msg)
  have hself : ind (concerns i) (.request i msg) = 1 := ind_concerns_self (.request i msg)
  refine ⟨h.running, h.looping, fun j d hd => ?_, fun j d hd hr m hm hne => ?_⟩
  · rcases put_cases hd with ⟨rfl, rfl⟩ | ⟨_, hold⟩
    · exact fun hf => by cases hf
    · exact h.unfailed j d hold
  · have hj := hgrow j
    rcases put_cases hd with ⟨rfl, rfl⟩ | ⟨hji, hold⟩
    · have hq := (hi j c hc).quiet (fun hr => by rw [hpc] at hr; cases hr) fun hf => by rw [hpc] at hf; cases hf
      omega
    · have h0 : ind (concerns j) (.request i msg) = 0 := ind_concerns_ne (Ne.symm hji)
      have := h.awaited j d hold hr m hm hne
      omega

theorem attended_prints (h : Attended s) {k : Nat} {payload : List UInt8}
    (hk : s.network[k]? = some (.reply i payload)) : Attended (s.clientRecv i k c payload) := by
  refine ⟨h.running, h.looping, fun j d hd => ?_, fun j d hd hr m hm hne => ?_⟩
  · rcases put_cases hd with ⟨rfl, rfl⟩ | ⟨_, hold⟩
    · exact fun hf => by cases hf
    · exact h.unfailed j d hold
  · rcases put_cases hd with ⟨rfl, rfl⟩ | ⟨hji, hold⟩
    · cases hr
    · have h1 : underWay j (s.clientRecv i k c payload) =
          underWay j s - ind (concerns j) (.reply i payload) := underWay_erase hk
      have h0 : ind (concerns j) (.reply i payload) = 0 := ind_concerns_ne (Ne.symm hji)
      have := h.awaited j d hold hr m hm hne
      omega

theorem attended_takes (hi : InStep s) (h : Attended s) {k : Nat}
    {payload : List UInt8} (hk : s.network[k]? = some (.request i payload)) (hpc : s.server.pc = .recv) :
    Attended { s with server := s.server.receive i payload, network := s.network.eraseIdx k } := by
  have hrun : (s.server.receive i payload).isRunning = true := by
    unfold Server.receive
    split <;> exact h.running
  have hpc' : (payload = [] ∧ (s.server.receive i payload).pc = .top) ∨
      (payload ≠ [] ∧ ∃ r, (s.server.receive i payload).pc = .send i r) := by
    by_cases hne : payload = []
    · exact Or.inl ⟨hne, by rw [Server.receive, if_pos hne]⟩
    · exact Or.inr ⟨hne, _, by rw [Server.receive, if_neg hne]⟩
  refine h.serve hrun ?_ fun j d hd hr m hm hne => ?_
  · rcases hpc' with ⟨_, ht⟩ | ⟨_, r, hs⟩
    · rw [ht]
      exact ⟨fun h => (by cases h), fun h => (by cases h)⟩
    · rw [hs]
      exact ⟨fun h => (by cases h), fun h => (by cases h)⟩
  · have h1 : tally (ind (concerns j)) (s.network.eraseIdx k) =
        tally (ind (concerns j)) s.network - ind (concerns j) (.request i payload) := tally_eraseIdx hk
    have h2 : ind (serving j) s.server.pc = 0 := by
      rw [hpc]
      rfl
    show tally (ind (concerns j)) (s.network.eraseIdx k) + ind (serving j) (s.server.receive i payload).pc = _
    unfold underWay
    rcases hpc' with ⟨hnil, ht⟩ | ⟨_, r, hs⟩
    · have h0 : ind (concerns j) (.request i payload) = 0 := by
        refine ind_concerns_ne fun hij => ?_
        have hcur := (hi j d hd).requests hr payload (hij ▸ List.mem_of_getElem? hk)
        rw [hm, Option.some.injEq] at hcur
        exact hne (hcur.trans hnil)
      have h3 : ind (serving j) (s.server.receive i payload).pc = 0 := by
        rw [ht]
        rfl
      omega
    · have h3 : ind (serving j) (s.server.receive i payload).pc = ind (concerns j) (.request i payload) := by
        rw [hs]
        rfl
      omega

theorem attended_step (hi : InStep s) (h : Attended s) (hs : step s a = some s')
    (ha : works s a s') : Attended s' := by
  cases step_cases hs with
  | endOfInput hc hpc hin => exact h.put _ (fun h => by cases h) fun h => by cases h
  | quits hc hpc hin => exact h.put _ (fun h => by cases h) fun h => by cases h
  | reads hc hpc hin hne => exact h.put _ (fun h => by cases h) fun h => by cases h
  | sends hc hpc => exact attended_sends hi h hc hpc
  | prints hc hk hpc => exact attended_prints h hk
  | tests hpc =>
    rw [h.running]
    refine h.serve h.running ⟨fun h => (by cases h), fun h => (by cases h)⟩ fun j d hd hr m hm hne => ?_
    unfold underWay
    rw [hpc]
    rfl
  | takes hk hpc => exact attended_takes hi h hk hpc
  | @responds i msg ok hpc =>
    have hok : ok = true := ha
    subst hok
    refine h.serve h.running ⟨fun h => (by cases h), fun h => (by cases h)⟩ fun j d hd hr m hm hne => ?_
    have h1 : ind (serving j) s.server.pc = ind (concerns j) (.reply i msg) := by
      rw [hpc]
      rfl
    have h2 : ind (serving j) ServerPc.top = 0 := rfl
    simp only [underWay, if_true, tally_append, tally_cons, tally_nil]
    omega
  | sendFails | recvFails | shut | serverFails | stops | loses | duplicates => cases ha

theorem attended_init (inputs : List (List (List UInt8))) : Attended (init inputs) := by
  refine ⟨rfl, ⟨fun h => (by cases h), fun h => (by cases h)⟩, fun i c hc => ?_, fun i c hc hr => ?_⟩
  · obtain ⟨lines, _, rfl⟩ := init_client hc
    exact fun h => by cases h
  · obtain ⟨lines, _, rfl⟩ := init_client hc
    cases hr

theorem run_attended (h : Reach works step (init inputs) s) : Attended s := by
  refine h.invariant_of (K := InStep) (fun s hr => ?_) (attended_init inputs)
    fun _ _ _ hk hi hs ha => attended_step hk hi hs ha
  exact run_instep (hr.mono fun _ _ _ => noDuplicate_of_works)

/-! ## Every run ends -/

def Client.weight (c : Client) : Int :=
  match c.pc with
  | .enter => 6 * c.input.length + 1
  | .send _ => 6 * c.input.length + 6
  | .recv => 6 * c.input.length
  | .left | .failed => 0

def ServerPc.weight : ServerPc → Int
  | .top => 1
  | .send _ _ => 4
  | _ => 0

def Datagram.weight : Datagram → Int
  | .request _ _ => 5
  | .reply _ _ => 2

def potential (s : World) : Int :=
  tally Client.weight s.clients + s.server.pc.weight + tally Datagram.weight s.network

/-- A disturbance is paid for apart. -/
def refund (a : Action) : Int := if !a.works then 6 else 0

theorem Client.weight_nonneg (c : Client) : 0 ≤ c.weight := by
  unfold Client.weight
  split <;> omega

theorem Datagram.weight_nonneg (d : Datagram) : 0 ≤ d.weight := by
  unfold Datagram.weight
  split <;> omega

theorem Datagram.weight_le (d : Datagram) : d.weight ≤ 5 := by
  unfold Datagram.weight
  split <;> omega

theorem ServerPc.weight_nonneg (pc : ServerPc) : 0 ≤ pc.weight := by
  unfold ServerPc.weight
  split <;> omega

/-- A step of a client, with what it does to the network. -/
theorem potential_client {c' : Client} {network : List Datagram} {r : Int} (hc : s.clients[i]? = some c)
    (h : c'.weight + tally Datagram.weight network + 1 ≤ c.weight + tally Datagram.weight s.network + r) :
    potential { s.put i c' with network := network } + 1 ≤ potential s + r := by
  unfold potential World.put
  rw [tally_set hc]
  show _ + s.server.pc.weight + tally Datagram.weight network + 1 ≤ _
  omega

/-- A step of the server or of the network. -/
theorem potential_server {server : Server} {network : List Datagram} {r : Int}
    (h : server.pc.weight + tally Datagram.weight network + 1 ≤
      s.server.pc.weight + tally Datagram.weight s.network + r) :
    potential { s with server := server, network := network } + 1 ≤ potential s + r := by
  unfold potential
  show tally Client.weight s.clients + server.pc.weight + tally Datagram.weight network + 1 ≤ _
  omega

theorem weight_receive (v : Server) (j : Nat) (payload : List UInt8) : (v.receive j payload).pc.weight ≤ 4 := by
  unfold Server.receive
  split <;> simp only [ServerPc.weight] <;> omega

theorem weight_receiveFails (v : Server) (eintr : Bool) : (v.receiveFails eintr).pc.weight ≤ 1 := by
  unfold Server.receiveFails
  split <;> simp only [ServerPc.weight] <;> omega

theorem tally_weight_eraseIdx_le (network : List Datagram) (k : Nat) :
    tally Datagram.weight (network.eraseIdx k) ≤ tally Datagram.weight network := by
  cases hk : network[k]? with
  | none => rw [List.eraseIdx_of_length_le (List.getElem?_eq_none_iff.mp hk)]
  | some d =>
    rw [tally_eraseIdx hk]
    have hpos := d.weight_nonneg
    omega

theorem responds_potential {msg : List UInt8} {ok : Bool} (hpc : s.server.pc = .send i msg) :
    potential (s.serverSend i msg ok) + 1 ≤ potential s + refund (.serverSend ok) := by
  refine potential_server ?_
  rw [hpc]
  cases ok with
  | true =>
    show 1 + tally Datagram.weight (s.network ++ [.reply i msg]) + 1 ≤ 4 + _ + 0
    simp only [tally_append, tally_cons, tally_nil, Datagram.weight]
    omega
  | false =>
    show 1 + tally Datagram.weight s.network + 1 ≤ 4 + _ + 6
    omega

theorem step_potential (hs : step s a = some s') : potential s' + 1 ≤ potential s + refund a := by
  cases step_cases hs with
  | endOfInput hc hpc hin | quits hc hpc hin =>
    refine potential_client hc ?_
    simp only [Client.weight, hpc]
    show _ ≤ _ + 0
    omega
  | reads hc hpc hin hne =>
    refine potential_client hc ?_
    simp only [Client.weight, hpc, hin, List.length_cons]
    show _ ≤ _ + 0
    push_cast
    omega
  | @sends i c msg hc hpc =>
    refine potential_client hc ?_
    simp only [Client.weight, hpc, tally_append, tally_cons, tally_nil, Datagram.weight]
    show _ ≤ _ + 0
    omega
  | sendFails hc hpc | recvFails hc hpc =>
    refine potential_client hc ?_
    simp only [Client.weight, hpc]
    show _ ≤ _ + 6
    omega
  | @prints i k c payload hc hk hpc =>
    have herase : tally Datagram.weight (s.network.eraseIdx k) = tally Datagram.weight s.network - 2 :=
      tally_eraseIdx hk
    refine potential_client hc ?_
    rw [herase]
    simp only [Client.weight, hpc]
    show _ ≤ _ + 0
    omega
  | tests hpc =>
    refine potential_server ?_
    rw [hpc]
    show (if s.server.isRunning = true then ServerPc.recv else ServerPc.left).weight + _ + 1 ≤ 1 + _ + 0
    have hw : (if s.server.isRunning = true then ServerPc.recv else ServerPc.left).weight = 0 := by
      split <;> rfl
    omega
  | @takes i k payload hk hpc =>
    have herase : tally Datagram.weight (s.network.eraseIdx k) = tally Datagram.weight s.network - 5 :=
      tally_eraseIdx hk
    have hw := weight_receive s.server i payload
    refine potential_server ?_
    rw [herase, hpc]
    show _ ≤ 0 + _ + 0
    omega
  | shut hpc hr =>
    refine potential_server ?_
    rw [hpc]
    show 1 + _ + 1 ≤ 0 + _ + 6
    omega
  | @serverFails eintr hpc =>
    have hw := weight_receiveFails s.server eintr
    refine potential_server ?_
    rw [hpc]
    show _ ≤ 0 + _ + 6
    omega
  | responds hpc => exact responds_potential hpc
  | stops =>
    refine potential_server ?_
    show s.server.pc.weight + _ + 1 ≤ _ + 6
    omega
  | @loses k =>
    have hle := tally_weight_eraseIdx_le s.network k
    refine potential_server ?_
    show _ ≤ _ + 6
    omega
  | @duplicates k d hk =>
    have hle := d.weight_le
    refine potential_server ?_
    rw [tally_append, tally_cons, tally_nil]
    show _ ≤ _ + 6
    omega

/-- The lines of all the clients. -/
def totalLines (inputs : List (List (List UInt8))) : Nat := (inputs.map List.length).sum

theorem potential_init (inputs : List (List (List UInt8))) :
    potential (init inputs) = 6 * totalLines inputs + inputs.length + 1 := by
  have hsum : tally Client.weight (init inputs).clients = 6 * totalLines inputs + inputs.length := by
    unfold init totalLines
    rw [tally_map]
    induction inputs with
    | nil => rfl
    | cons lines inputs ih =>
      rw [tally_cons, ih, List.map_cons, List.sum_cons, List.length_cons]
      simp only [Client.weight]
      push_cast
      ring
  unfold potential
  rw [hsum]
  show _ + 1 + 0 = _
  omega

theorem potential_nonneg (s : World) : 0 ≤ potential s := by
  have h1 := tally_nonneg Client.weight_nonneg (l := s.clients)
  have h2 := tally_nonneg Datagram.weight_nonneg (l := s.network)
  have h3 := s.server.pc.weight_nonneg
  unfold potential
  omega

/-- **Every run ends**, if only so often something fails, gets lost or comes twice. -/
theorem run_length_le (as : List Action) (h : exec step (init inputs) as = some s) :
    as.length ≤ 6 * totalLines inputs + inputs.length + 1 + 6 * as.countP fun a => !a.works := by
  have hle := exec_length_le potential_nonneg (fun _ _ _ hs => step_potential hs) as h
  rw [potential_init] at hle
  push_cast at hle
  omega

/-! ## Where a run ends -/

/-- Nothing is left to do. -/
def Idle (s : World) : Prop := ∀ a, a.works = true → step s a = none

theorem Idle.server (h : Idle s) (hat : Attended s) : s.server.pc = .recv := by
  cases hpc : s.server.pc with
  | top =>
    have := h .serverTest rfl
    simp only [step, hpc, if_true] at this
    cases this
  | recv => rfl
  | send i msg =>
    have := h (.serverSend true) rfl
    simp only [step, hpc] at this
    cases this
  | left => exact absurd hpc hat.looping.1
  | failed => exact absurd hpc hat.looping.2

theorem Idle.network (h : Idle s) (hh : Honest inputs s) (hi : InStep s) (hat : Attended s) :
    s.network = [] := by
  by_contra hne
  obtain ⟨d, rest, hd⟩ := List.exists_cons_of_ne_nil hne
  have hk : s.network[0]? = some d := by rw [hd]; rfl
  have hmem : d ∈ s.network := List.mem_of_getElem? hk
  cases d with
  | request i payload =>
    have := h (.serverRecv 0) rfl
    simp only [step, hk, h.server hat, if_true] at this
    cases this
  | reply i payload =>
    obtain ⟨m, ⟨c, hc, _⟩, _⟩ := hh.replies i payload hmem
    have hpc : c.pc = .recv := by
      by_contra hr
      exact not_mem_of_quiet ((hi i c hc).quiet hr (hat.unfailed i c hc)) rfl hmem
    have := h (.clientRecv i 0) rfl
    simp only [step, hc, hk, hpc, and_self, if_true] at this
    cases this

theorem underWay_idle (hn : s.network = []) (hpc : s.server.pc = .recv) : underWay i s = 0 := by
  unfold underWay
  rw [hn, hpc]
  rfl

/-- A client ends behind its loop, or waits for the response to an empty message. -/
theorem Idle.client (h : Idle s) (hh : Honest inputs s) (hi : InStep s) (hat : Attended s)
    (hc : s.clients[i]? = some c) : c.pc = .left ∨ (c.pc = .recv ∧ current c = some []) := by
  have hu : underWay i s = 0 := underWay_idle (h.network hh hi hat) (h.server hat)
  cases hpc : c.pc with
  | enter =>
    have := h (.enter i) rfl
    simp only [step, hc, hpc, if_true] at this
    cases this
  | send msg =>
    have := h (.clientSend i true) rfl
    simp only [step, hc, hpc] at this
    cases this
  | recv =>
    have hwait := (hh.clients i c hc).1.waits hpc
    obtain ⟨m, hm⟩ : ∃ m, current c = some m :=
      ⟨_, List.getElem?_eq_getElem (by omega : c.printed.length < c.sent.length)⟩
    by_cases hne : m = []
    · exact Or.inr ⟨rfl, hne ▸ hm⟩
    · have hone := hat.awaited i c hc hpc m hm hne
      omega
  | left => exact Or.inl rfl
  | failed => exact absurd hpc (hat.unfailed i c hc)

theorem takeWhile_split {l post : List (List UInt8)} (h : ∀ m ∈ l, m ≠ []) :
    (l ++ [] :: post).takeWhile (fun m => decide (m ≠ [])) = l := by
  rw [List.takeWhile_append_of_pos fun m hm => decide_eq_true (h m hm)]
  simp

/-- **What a client gets over a network that behaves**, for any clients and input.  A run is no longer than a
    bound that depends on the input and on the number of disturbances alone.  Without disturbances,
    where nothing is left to do every client has got the response to each of its lines before `"quit"`
    and before the first empty one, in order; and it has come to its end exactly if none of its lines
    before `"quit"` is empty, otherwise it waits for a response that does not come. -/
theorem served (inputs : List (List (List UInt8))) :
    (∀ as s, exec step (init inputs) as = some s →
      as.length ≤ 6 * totalLines inputs + inputs.length + 1 + 6 * as.countP fun a => !a.works) ∧
    ∀ s, Reach works step (init inputs) s → Idle s → ∀ (i : Nat) (c : Client) (lines : List (List UInt8)),
      s.clients[i]? = some c → inputs[i]? = some lines →
      c.printed = ((asked lines).takeWhile (fun m => decide (m ≠ []))).map
        (fun m => (response (received m)).take (limit 1024)) ∧
      (c.pc = .left ↔ [] ∉ asked lines) ∧ (c.pc = .left ∨ c.pc = .recv) := by
  refine ⟨fun as s => run_length_le as, fun s h hidle i c lines hc hl => ?_⟩
  have hh := run_honest h
  have hi := run_instep (h.mono fun _ _ _ => noDuplicate_of_works)
  have hat := run_attended h
  obtain ⟨hans, lines', hl', hscript⟩ := hh.clients i c hc
  have hll : lines' = lines := Option.some.inj (hl'.symm.trans hl)
  rw [hll] at hscript
  have hin := hi i c hc
  rcases hidle.client hh hi hat hc with hpc | ⟨hpc, hcur⟩
  · have hlen : c.sent.length = c.printed.length :=
      hans.rest (fun h => by rw [hpc] at h; cases h) fun h => by rw [hpc] at h; cases h
    have htake : c.sent.take c.printed.length = c.sent := List.take_of_length_le (le_of_eq hlen)
    have hall : ∀ m ∈ c.sent, m ≠ [] := by
      have := hin.answered
      rwa [htake] at this
    have hasked : asked lines = c.sent := by
      simp only [Script, hpc] at hscript
      exact hscript
    refine ⟨?_, ⟨fun _ hmem => hall [] (hasked ▸ hmem) rfl, fun _ => hpc⟩, Or.inl hpc⟩
    rw [hasked, List.takeWhile_eq_self_iff.mpr fun m hm => decide_eq_true (hall m hm)]
    have := hin.printed
    rwa [htake] at this
  · have hasked : asked lines = c.sent ++ asked c.input := by
      simp only [Script, hpc] at hscript
      exact hscript
    have hsplit : c.sent = c.sent.take c.printed.length ++ [[]] := by
      have hwait := hans.waits hpc
      have hstep : c.sent.take (c.printed.length + 1) = c.sent.take c.printed.length ++ [[]] := by
        rw [List.take_add_one, show c.sent[c.printed.length]? = some [] from hcur]
        rfl
      rw [← hstep, List.take_of_length_le (le_of_eq hwait)]
    have hcat : asked lines = c.sent.take c.printed.length ++ [] :: asked c.input := by
      rw [hasked]
      conv_lhs => rw [hsplit]
      simp
    refine ⟨?_, ⟨fun h => (by rw [hpc] at h; cases h), fun hno => absurd ?_ hno⟩, Or.inr hpc⟩
    · rw [hcat, takeWhile_split hin.answered]
      exact hin.printed
    · rw [hcat]
      simp

theorem idle_of (hn : s.network = []) (hpc : s.server.pc = .recv)
    (hc : ∀ c ∈ s.clients, c.pc = .left ∨ c.pc = .recv) : Idle s := by
  intro a ha
  have hno : ∀ (i : Nat) (c : Client), s.clients[i]? = some c → c.pc ≠ .enter ∧ ∀ m, c.pc ≠ .send m := by
    intro i c hi
    rcases hc c (List.mem_of_getElem? hi) with h | h <;> rw [h]
    · exact ⟨fun h => (by cases h), fun m h => (by cases h)⟩
    · exact ⟨fun h => (by cases h), fun m h => (by cases h)⟩
  cases hs : step s a with
  | none => rfl
  | some s' =>
    cases step_cases hs with
    | endOfInput hi h => exact absurd h (hno _ _ hi).1
    | quits hi h => exact absurd h (hno _ _ hi).1
    | reads hi h => exact absurd h (hno _ _ hi).1
    | sends hi h => exact absurd h ((hno _ _ hi).2 _)
    | prints hi hk h => simp [hn] at hk
    | tests h => rw [hpc] at h; cases h
    | takes hk => simp [hn] at hk
    | responds h => rw [hpc] at h; cases h
    | sendFails | recvFails | shut | serverFails | stops | loses | duplicates => cases ha

/-- One client sends `A`, the other an empty line. -/
def oneEmpty : List (List (List UInt8)) := [[[65]], [[]]]

def oneAnswered : List Action :=
  [.enter 0, .clientSend 0 true, .serverTest, .serverRecv 0, .serverSend true, .clientRecv 0 0, .enter 0,
    .enter 1, .clientSend 1 true, .serverTest, .serverRecv 0, .serverTest]

theorem served_one_empty : ∃ s, exec (guarded works step) (init oneEmpty) oneAnswered = some s ∧
    s.clients = [⟨.left, [], [[65]], [response [65]]⟩, ⟨.recv, [], [[]], []⟩] ∧
    (ClientPc.left = .left ↔ [] ∉ asked [[65]]) ∧ (ClientPc.recv = .left ↔ [] ∉ asked [[]]) := by
  have hrun : exec (guarded works step) (init oneEmpty) oneAnswered = some
      ⟨[⟨.left, [], [[65]], [response [65]]⟩, ⟨.recv, [], [[]], []⟩],
        ⟨.recv, true, blank 0 1024, [(0, [65])]⟩, []⟩ := by
    decide +kernel
  have hidle := idle_of (s := ⟨[⟨.left, [], [[65]], [response [65]]⟩, ⟨.recv, [], [[]], []⟩],
    ⟨.recv, true, blank 0 1024, [(0, [65])]⟩, []⟩) rfl rfl (by decide)
  have h := (served oneEmpty).2 _ (exec_guarded_reach oneAnswered hrun) hidle
  exact ⟨_, hrun, rfl, (h 0 _ [[65]] rfl rfl).2.1, (h 1 _ [[]] rfl rfl).2.1⟩

end CppBackend.UdpEcho
