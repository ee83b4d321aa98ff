import CppBackend.Packet.Frame
import CppBackend.Packet.Receive

/-!
# The outgoing streams over a whole session

Each pass of the loop of `main` makes at most one call of `send_packet`, and a call writes a part of
one frame.  The client leaves its loop after a call that returned false, so only its last frame can
be torn (`client_stream`).  The server does not look at the result: the replies that follow a
torn one are appended to it.  Its stream stays clean exactly if the transport, once it has not taken all
that a `send` offered, takes nothing more (`server_stream`); `torn_reply` is a run where it does.
-/

set_option autoImplicit false

namespace CppBackend.Packet

open Library.Loop Library.Bytes Library.Stream

/-- The states of a session: at the head of the loop, and behind it. -/
def Reached (body : Session → Pass Session Session) (start s : Session) : Prop :=
  Heads body start s ∨ ∃ head, Heads body start head ∧ body head = .done s

/-- The calls of `send_packet` so far account for the bytes written. -/
structure Account (sock : Writer UInt8) (s : Session) : Prop where
  sends : Sends sock s.sock
  written : s.sock.sent = sock.sent ++ s.calls.flatMap Call.wrote
  parts : ∀ c ∈ s.calls, c.wrote <+: packet c.data ∧ (c.ok = true ↔ c.wrote = packet c.data)

variable {sock : Writer UInt8} {s : Session} {data : List UInt8} {r : Sent}

theorem Account.init (sock : Writer UInt8) (conn : Socket) : Account sock ⟨sock, conn, []⟩ :=
  ⟨.refl, (List.append_nil _).symm, fun _ h => (nomatch h)⟩

theorem Account.called (hi : Account sock s) (hr : Wrote s.sock (packet data) r) :
    Account sock (s.called data r) := by
  obtain ⟨w, hw, hle, hok⟩ := hr.written
  have hdrop : r.sock.sent.drop s.sock.sent.length = w := by
    rw [hw]
    exact List.drop_left
  refine ⟨hi.sends.trans hr.sends, ?_, ?_⟩
  · show r.sock.sent = _
    rw [hw, hi.written, List.append_assoc]
    congr 1
    simp [Session.called, hdrop]
  · intro c hc
    rcases List.mem_append.mp hc with hc | hc
    · exact hi.parts c hc
    · rw [List.mem_singleton.mp hc, hdrop]
      exact ⟨hle, hok⟩

theorem Account.conn (hi : Account sock s) (conn : Socket) : Account sock { s with conn := conn } :=
  ⟨hi.sends, hi.written, hi.parts⟩

/-- What has been written at any moment up to now is a part of the frames of the data. -/
def Clean (sock : Writer UInt8) (s : Session) : Prop :=
  ∀ w, Sends sock w → Sends w s.sock →
    w.sent <+: sock.sent ++ (s.calls.map Call.data).flatMap packet

/-- Whole frames, and parts of one more, are a part of the frames. -/
theorem flatMap_prefix : ∀ {calls : List Call}, (∀ c ∈ calls, c.wrote <+: packet c.data) →
    (∀ pre c post, calls = pre ++ c :: post → c.wrote ≠ packet c.data → ∀ d ∈ post, d.wrote = []) →
    calls.flatMap Call.wrote <+: (calls.map Call.data).flatMap packet
  | [], _, _ => List.prefix_rfl
  | c :: calls, hp, ht => by
    rw [List.flatMap_cons, List.map_cons, List.flatMap_cons]
    by_cases hc : c.wrote = packet c.data
    · rw [hc, List.prefix_append_right_inj]
      refine flatMap_prefix (fun d hd => hp d (List.mem_cons_of_mem _ hd)) ?_
      intro pre d post heq
      exact ht (c :: pre) d post (by rw [heq, List.cons_append])
    · have hnone : calls.flatMap Call.wrote = [] :=
        List.flatMap_eq_nil_iff.mpr (ht [] c calls rfl hc)
      rw [hnone, List.append_nil]
      exact (hp c List.mem_cons_self).trans (List.prefix_append _ _)

/-- After a reply that was written in part, no byte of a later one has been written. -/
def TornLast (s : Session) : Prop :=
  ∀ pre c post, s.calls = pre ++ c :: post → c.wrote ≠ packet c.data → ∀ d ∈ post, d.wrote = []

theorem Account.clean (hi : Account sock s) (ht : TornLast s) : Clean sock s := by
  intro w _ hw
  refine hw.sent.trans ?_
  rw [hi.written, List.prefix_append_right_inj]
  exact flatMap_prefix (fun c hc => (hi.parts c hc).1) ht

/-! ## The client -/

namespace Client

/-- The lines have been sent in order, and only the last call may have returned false. -/
structure Orderly (input : Nat → List UInt8) (sock : Writer UInt8) (s : Session) : Prop where
  account : Account sock s
  lines : s.calls.map Call.data = (List.range s.calls.length).map input
  oks : ∀ c ∈ s.calls.dropLast, c.ok = true

/-- At the head of the loop all calls have returned true. -/
structure AtHead (input : Nat → List UInt8) (sock : Writer UInt8) (s : Session) : Prop where
  account : Account sock s
  lines : s.calls.map Call.data = (List.range s.calls.length).map input
  oks : ∀ c ∈ s.calls, c.ok = true

variable {input : Nat → List UInt8} {s' : Session}

theorem AtHead.orderly (hi : AtHead input sock s) : Orderly input sock s :=
  ⟨hi.account, hi.lines, fun c hc => hi.oks c (List.dropLast_subset _ hc)⟩

theorem AtHead.called (hi : AtHead input sock s)
    (hr : Wrote s.sock (packet (input s.calls.length)) r) :
    Orderly input sock (s.called (input s.calls.length) r) := by
  refine ⟨hi.account.called hr, ?_, ?_⟩
  · show (s.calls ++ [_]).map Call.data = (List.range (s.calls ++ [_]).length).map input
    rw [List.map_append, hi.lines, List.length_append, List.length_singleton, List.range_succ,
      List.map_append]
    rfl
  · intro c hc
    refine hi.oks c ?_
    rwa [Session.called, List.dropLast_concat] at hc

/-- One pass of the loop. -/
theorem pass (hlen : ∀ i, (input i).length < 2 ^ 32) (hi : AtHead input sock s) :
    (∀ s', mainLoop input s = .again s' → AtHead input sock s') ∧
      ∀ s', mainLoop input s = .done s' → Orderly input sock s' := by
  obtain ⟨r, hr, hw⟩ := sendPacket_wrote s.sock (input s.calls.length)
  rw [frame_eq_packet (hlen _)] at hw
  have hc := hi.called hw
  unfold mainLoop
  rw [hr]
  constructor
  · intro s' h
    split at h
    · cases h
    · simp only at h
      split at h
      · rename_i hok
        split at h
        · cases h
        · split at h
          · cases h
            refine ⟨hc.account.conn _, hc.lines, fun c hmem => ?_⟩
            rcases List.mem_append.mp hmem with hmem | hmem
            · exact hi.oks c hmem
            · rw [List.mem_singleton.mp hmem]
              exact hok
          · cases h
      · cases h
  · intro s' h
    split at h
    · cases h
      exact hi.orderly
    · simp only at h
      split at h
      · split at h
        · cases h
          exact hc
        · split at h
          · cases h
          · cases h
            exact ⟨hc.account.conn _, hc.lines, hc.oks⟩
      · cases h
        exact hc

theorem Orderly.tornLast (hi : Orderly input sock s) : TornLast s := by
  intro pre c post heq hc
  have hno : c.ok = false := by
    have hparts := (hi.account.parts c (by rw [heq]; simp)).2
    exact Bool.eq_false_of_not_eq_true fun hok => hc (hparts.mp hok)
  have hlast : post = [] := by
    by_contra hne
    have hmem : c ∈ s.calls.dropLast := by
      rw [heq, List.dropLast_append_of_ne_nil (List.cons_ne_nil _ _),
        List.dropLast_cons_of_ne_nil hne]
      simp
    rw [hi.oks c hmem] at hno
    cases hno
  rw [hlast]
  intro d hd
  cases hd

end Client

/-- **The client never corrupts its outgoing stream.**  At every moment of a session the bytes
    written are a part of the frames of the lines read; a frame is whole exactly if its
    `send_packet` returned true; and no call follows one that returned false. -/
theorem client_stream (input : Nat → List UInt8) (hlen : ∀ i, (input i).length < 2 ^ 32)
    (sock : Writer UInt8) (conn : Socket) (s : Session)
    (h : Reached (Client.mainLoop input) ⟨sock, conn, []⟩ s) :
    s.calls.map Call.data = (List.range s.calls.length).map input ∧
    (∀ c ∈ s.calls, c.ok = true ↔ c.wrote = packet c.data) ∧
    (∀ c ∈ s.calls.dropLast, c.ok = true) ∧
    s.sock.sent = sock.sent ++ s.calls.flatMap Call.wrote ∧ Clean sock s := by
  have hhead : ∀ t, Heads (Client.mainLoop input) ⟨sock, conn, []⟩ t →
      Client.AtHead input sock t := fun t ht =>
    Heads.invariant ⟨Account.init sock conn, rfl, fun _ hc => (nomatch hc)⟩
      (fun t t' hi hb => (Client.pass hlen hi).1 t' hb) ht
  have ho : Client.Orderly input sock s := by
    rcases h with h | ⟨t, ht, hb⟩
    · exact (hhead s h).orderly
    · exact (Client.pass hlen (hhead t ht)).2 s hb
  exact ⟨ho.lines, fun c hc => (ho.account.parts c hc).2, ho.oks, ho.account.written,
    ho.account.clean ho.tornLast⟩

/-- The connection takes the length and one byte of `"hi"`, and then breaks. -/
def breaks : Writer UInt8 :=
  ⟨[], 0, fun i => if i = 0 then .data 4 else if i = 1 then .data 1 else .error "EPIPE", ""⟩

theorem client_stream_torn :
    ∃ s, Reached (Client.mainLoop fun _ => [104, 105]) ⟨breaks, ⟨[], 0, fun _ => .data 1⟩, []⟩ s ∧
      s.calls = [⟨[104, 105], [0, 0, 0, 2, 104], false⟩] ∧ Clean breaks s := by
  have hrun : Reached (Client.mainLoop fun _ => [104, 105])
      ⟨breaks, ⟨[], 0, fun _ => .data 1⟩, []⟩ _ := Or.inr ⟨_, .refl, rfl⟩
  exact ⟨_, hrun, rfl, (client_stream _ (fun _ => by decide) _ _ _ hrun).2.2.2.2⟩

/-! ## The server -/

namespace Server

/-- Every reply so far has been written whole, or the next call of `send` takes nothing. -/
def Careful (s : Session) : Prop := (∀ c ∈ s.calls, c.ok = true) ∨ s.sock.Blocked

theorem reply_ne_nil (data : List UInt8) : reply data ≠ [] := by
  intro hnil
  have := congrArg List.length hnil
  simp [reply] at this

/-- The call goes on from its first call of `send`. -/
theorem sendPacket_header {sock' : Writer UInt8} {taken : Option Nat}
    (h : sock.send (htonl (frameLen data)) = (taken, sock')) :
    Sends sock' (sendPacket sock data).sock ∧
      (taken ≠ some 4 → (sendPacket sock data).sock = sock') := by
  unfold sendPacket
  rw [show UInt32.ofNat data.length = frameLen data from rfl, h]
  split
  · rename_i heq
    cases heq
    refine ⟨?_, fun hne => absurd rfl hne⟩
    split
    · rename_i hbody
      split <;> exact Sends.send hbody
    · rename_i hbody
      exact Sends.send hbody
  · rename_i heq
    cases heq
    exact ⟨.refl, fun _ => rfl⟩

/-- When the transport takes nothing, a call writes nothing. -/
theorem sendPacket_blocked (h : sock.Blocked) (data : List UInt8) :
    (sendPacket sock data).sock.sent = sock.sent := by
  obtain ⟨taken, sock', hsend, hnone, hsent⟩ := send_blocked h (htonl (frameLen data))
  have hne : taken ≠ some 4 := by
    rcases hnone with rfl | rfl
    · exact fun h => (nomatch h)
    · decide
  rw [(sendPacket_header hsend).2 hne, hsent]

/-- When it takes something, a call writes something. -/
theorem sendPacket_unblocked (h : ¬ sock.Blocked) (data : List UInt8) :
    sock.sent.length < (sendPacket sock data).sock.sent.length := by
  have hne : htonl (frameLen data) ≠ [] := by
    intro hnil
    have := congrArg List.length hnil
    rw [htonl_length, List.length_nil] at this
    omega
  obtain ⟨k, sock', hsend, hlt⟩ := send_unblocked h hne
  exact Nat.lt_of_lt_of_le hlt (sendPacket_header hsend).1.sent.length_le

theorem account_reply (hi : Account sock s) (data : List UInt8) :
    Account sock (s.called (reply data) (sendPacket s.sock (reply data))) :=
  hi.called (sendPacket_wrote (Or.inl (reply_ne_nil data)))

/-- What one pass does. -/
theorem pass {s' : Session} :
    (mainLoop s = .again s' → ∃ q, recvPacket s.conn = some q ∧ s' = { s.called (reply q.outData)
      (sendPacket s.sock (reply q.outData)) with conn := q.sock }) ∧
    (mainLoop s = .done s' → ∃ conn, s' = { s with conn := conn }) := by
  unfold mainLoop
  constructor
  · intro h
    split at h
    · cases h
    · rename_i q hq
      split at h
      · cases h
        exact ⟨q, hq, rfl⟩
      · cases h
  · intro h
    split at h
    · cases h
      exact ⟨s.conn, rfl⟩
    · split at h
      · cases h
      · cases h
        exact ⟨_, rfl⟩

/-- A call made carefully keeps the stream clean. -/
theorem tornLast_called (hi : Account sock s) (ht : TornLast s) (hc : Careful s) (data : List UInt8) :
    TornLast (s.called (reply data) (sendPacket s.sock (reply data))) := by
  intro pre c post heq hne d hd
  rcases List.eq_nil_or_concat post with rfl | ⟨post, last, rfl⟩
  · cases hd
  · -- the torn call is an earlier one
    rw [List.concat_eq_append] at heq hd
    rw [← List.cons_append, ← List.append_assoc] at heq
    obtain ⟨hcalls, hlast⟩ := List.append_inj' heq rfl
    rcases List.mem_append.mp hd with hd | hd
    · exact ht pre c post hcalls hne d hd
    · rw [List.mem_singleton.mp hd, ← List.singleton_inj.mp hlast]
      rcases hc with hok | hb
      · have hmem : c ∈ s.calls := by rw [hcalls]; simp
        exact absurd ((hi.parts c hmem).2.mp (hok c hmem)) hne
      · show List.drop _ _ = []
        rw [sendPacket_blocked hb, List.drop_length]

/-- A call that is not made carefully spoils it. -/
theorem careful_of_tornLast (hi : Account sock s) {data : List UInt8}
    (ht : TornLast (s.called (reply data) (sendPacket s.sock (reply data)))) : Careful s := by
  by_contra hno
  unfold Careful at hno
  push Not at hno
  obtain ⟨⟨c, hc, hok⟩, hb⟩ := hno
  obtain ⟨pre, post, heq⟩ := List.append_of_mem hc
  have hne : c.wrote ≠ packet c.data := fun h => hok ((hi.parts c hc).2.mpr h)
  have hnil := ht pre c (post ++ [_]) (by
    show s.calls ++ [_] = _
    rw [heq, List.append_assoc, List.cons_append]) hne _ (List.mem_append_right _ (List.mem_singleton_self _))
  have hlt := sendPacket_unblocked hb (reply data)
  have hle := List.drop_eq_nil_iff.mp hnil
  omega

theorem heads_account {conn : Socket} (h : Heads mainLoop ⟨sock, conn, []⟩ s) : Account sock s := by
  refine Heads.invariant (Account.init sock conn) (fun t t' hi hb => ?_) h
  obtain ⟨q, _, rfl⟩ := pass.1 hb
  exact (account_reply hi _).conn _

/-! ### The packets received and the transport -/

/-- The data of the packets that `recv_packet` returns one after the other, and the rest of the stream. -/
inductive Receives (conn : Socket) : List (List UInt8) → Socket → Prop where
  | nil : Receives conn [] conn
  | snoc {ds : List (List UInt8)} {conn' : Socket} {q : Received} (h : Receives conn ds conn')
      (hq : recvPacket conn' = some q) (hok : q.ok = true) : Receives conn (ds ++ [q.outData]) q.sock

/-- The packets that the loop receives do not depend on what is sent. -/
theorem Receives.heads {conn conn' : Socket} {ds : List (List UInt8)} (h : Receives conn ds conn') :
    ∃ s, Heads mainLoop ⟨sock, conn, []⟩ s ∧ s.conn = conn' ∧ s.calls.map Call.data = ds.map reply := by
  induction h with
  | nil => exact ⟨_, .refl, rfl, rfl⟩
  | @snoc ds conn' q _ hq hok ih =>
    obtain ⟨s, hs, rfl, hdata⟩ := ih
    have hb : mainLoop s = .again { s.called (reply q.outData) (sendPacket s.sock (reply q.outData)) with
        conn := q.sock } := by
      unfold mainLoop
      rw [hq]
      exact if_pos hok
    refine ⟨_, hs.tail hb, rfl, ?_⟩
    show (s.calls ++ [_]).map Call.data = _
    rw [List.map_append, List.map_append, hdata]
    rfl

theorem heads_receives {conn : Socket} (h : Heads mainLoop ⟨sock, conn, []⟩ s) :
    ∃ ds, Receives conn ds s.conn ∧ s.calls.map Call.data = ds.map reply := by
  induction h with
  | refl => exact ⟨[], .nil, rfl⟩
  | @tail s s' _ hb ih =>
    obtain ⟨ds, hds, hdata⟩ := ih
    obtain ⟨q, hq, rfl⟩ := pass.1 hb
    have hok : q.ok = true := by
      unfold mainLoop at hb
      rw [hq] at hb
      by_contra hno
      simp [hno] at hb
    refine ⟨ds ++ [q.outData], hds.snoc hq hok, ?_⟩
    show (s.calls ++ [_]).map Call.data = _
    rw [List.map_append, List.map_append, hdata]
    rfl

section
variable (outcome : Nat → Outcome)

/-- When the replies `ds` are sent from the call number `k` of `send` on: once a call has had less taken than it
    offered, or has failed, no later one has anything taken.  (Then each later reply makes one call, for its
    length.) -/
def quiet : Nat → List (List UInt8) → Bool
  | _, [] => true
  | k, d :: ds =>
    if (outcome k).takesAll 4 then
      if (outcome (k + 1)).takesAll d.length then quiet (k + 2) ds
      else (List.range ds.length).all fun j => (outcome (k + 2 + j)).takesNothing
    else (List.range ds.length).all fun j => (outcome (k + 1 + j)).takesNothing

/-- Everything has been taken. -/
def wholes : Nat → List (List UInt8) → Bool
  | _, [] => true
  | k, d :: ds => (outcome k).takesAll 4 && (outcome (k + 1)).takesAll d.length && wholes (k + 2) ds

/-- The number of the next call. -/
def nextCall : Nat → List (List UInt8) → Nat
  | k, [] => k
  | k, d :: ds =>
    if (outcome k).takesAll 4 then
      if (outcome (k + 1)).takesAll d.length then nextCall (k + 2) ds else k + 2 + ds.length
    else k + 1 + ds.length

theorem wholes_concat (d : List UInt8) : ∀ (ds : List (List UInt8)) (k : Nat), wholes outcome k (ds ++ [d]) =
    (wholes outcome k ds && ((outcome (nextCall outcome k ds)).takesAll 4 &&
      (outcome (nextCall outcome k ds + 1)).takesAll d.length))
  | [], k => by simp [wholes, nextCall]
  | d' :: ds, k => by
    simp only [List.cons_append, wholes, nextCall]
    cases hhead : (outcome k).takesAll 4 with
    | false => simp
    | true =>
      cases hbody : (outcome (k + 1)).takesAll d'.length with
      | false => simp
      | true => simpa using wholes_concat d ds (k + 2)

/-- Behind replies that are not whole, there is one call for each reply. -/
theorem nextCall_concat (d : List UInt8) : ∀ (ds : List (List UInt8)) (k : Nat), nextCall outcome k (ds ++ [d]) =
    if wholes outcome k ds && (outcome (nextCall outcome k ds)).takesAll 4 then nextCall outcome k ds + 2
    else nextCall outcome k ds + 1
  | [], k => by
    simp only [List.nil_append, wholes, nextCall, Bool.true_and, List.length_nil, Nat.add_zero, ite_self]
  | d' :: ds, k => by
    simp only [List.cons_append, wholes, nextCall]
    by_cases hhead : (outcome k).takesAll 4 = true
    · by_cases hbody : (outcome (k + 1)).takesAll d'.length = true
      · simpa only [hhead, hbody, if_true, Bool.true_and] using nextCall_concat d ds (k + 2)
      · simp [hhead, hbody, Nat.add_assoc]
    · simp [hhead, Nat.add_assoc]

theorem quiet_concat (d : List UInt8) : ∀ (ds : List (List UInt8)) (k : Nat), quiet outcome k (ds ++ [d]) =
    (quiet outcome k ds && (wholes outcome k ds || (outcome (nextCall outcome k ds)).takesNothing))
  | [], k => by simp [quiet, wholes]
  | d' :: ds, k => by
    simp only [List.cons_append, quiet, wholes, nextCall]
    cases hhead : (outcome k).takesAll 4 with
    | false => simp [List.range_succ, List.all_append]
    | true =>
      cases hbody : (outcome (k + 1)).takesAll d'.length with
      | false => simp [List.range_succ, List.all_append]
      | true => simpa using quiet_concat d ds (k + 2)

end

theorem not_takesAll_of_takesNothing {o : Outcome} (h : o.takesNothing = true) : o.takesAll 4 = false := by
  cases o with
  | error e => rfl
  | data n =>
    simp only [Outcome.takesNothing, beq_iff_eq] at h
    simp [Outcome.takesAll, h]

/-- A call of `send_packet`, in terms of the transport. -/
theorem sendPacket_transport (sock : Writer UInt8) (data : List UInt8) :
    (sendPacket sock data).sock.outcome = sock.outcome ∧
    (sendPacket sock data).sock.calls =
      (if (sock.outcome sock.calls).takesAll 4 then sock.calls + 2 else sock.calls + 1) ∧
    (sendPacket sock data).ok =
      ((sock.outcome sock.calls).takesAll 4 && (sock.outcome (sock.calls + 1)).takesAll data.length) := by
  have hlen : (htonl (UInt32.ofNat data.length)).length = 4 := htonl_length _
  have houtcome := send_outcome sock (htonl (UInt32.ofNat data.length))
  have hcalls := send_calls sock (htonl (UInt32.ofNat data.length))
  unfold sendPacket
  rcases hsend : sock.send (htonl (UInt32.ofNat data.length)) with ⟨taken, sock'⟩
  rw [hsend] at houtcome hcalls
  cases hhead : (sock.outcome sock.calls).takesAll 4 with
  | false =>
    have hshort := send_takesAll_not (hlen.symm ▸ hhead)
    rw [hsend, hlen] at hshort
    split
    · rename_i heq
      cases heq
      exact absurd rfl hshort
    · rename_i heq
      cases heq
      exact ⟨houtcome, by simpa using hcalls, by simp⟩
  | true =>
    have hall := send_takesAll (hlen.symm ▸ hhead)
    rw [hsend, hlen] at hall
    subst hall
    have houtcome' := send_outcome sock' data
    have hcalls' := send_calls sock' data
    rcases hbody : sock'.send data with ⟨taken', sock''⟩
    rw [hbody] at houtcome' hcalls'
    simp only at houtcome hcalls houtcome' hcalls'
    have hwhole : (sock.outcome (sock.calls + 1)).takesAll data.length = true ↔ taken' = some data.length := by
      rw [← hcalls, ← houtcome]
      constructor
      · intro h
        have := send_takesAll h
        rwa [hbody] at this
      · rintro rfl
        by_contra hno
        exact send_takesAll_not (Bool.eq_false_of_not_eq_true hno) (by rw [hbody])
    simp only [hbody, Bool.true_and, if_true]
    cases taken' with
    | none =>
      have hno : (sock.outcome (sock.calls + 1)).takesAll data.length = false :=
        Bool.eq_false_of_not_eq_true fun h => by simp [hwhole] at h
      exact ⟨houtcome'.trans houtcome, by simp [hcalls', hcalls], hno.symm⟩
    | some k =>
      by_cases hk : k = data.length
      · simp [hk, houtcome', houtcome, hcalls', hcalls, hwhole.mpr (by rw [hk])]
      · have hno : (sock.outcome (sock.calls + 1)).takesAll data.length = false :=
          Bool.eq_false_of_not_eq_true fun h => hk (by simpa using hwhole.mp h)
        simp [hk, houtcome', houtcome, hcalls', hcalls, hno]

/-- The calls so far, in terms of the transport, as long as this is quiet. -/
structure InStep (sock : Writer UInt8) (s : Session) : Prop where
  outcome : s.sock.outcome = sock.outcome
  calls : s.sock.calls = nextCall sock.outcome sock.calls (s.calls.map Call.data)
  oks : (∀ c ∈ s.calls, c.ok = true) ↔ wholes sock.outcome sock.calls (s.calls.map Call.data) = true

/-- The state is careful exactly if the next reply leaves the transport quiet. -/
theorem InStep.careful_iff (hi : InStep sock s) : Careful s ↔
    (wholes sock.outcome sock.calls (s.calls.map Call.data) ||
      (sock.outcome (nextCall sock.outcome sock.calls (s.calls.map Call.data))).takesNothing) = true := by
  unfold Careful
  rw [blocked_iff, hi.outcome, hi.calls, hi.oks, Bool.or_eq_true]

theorem InStep.called (hi : InStep sock s) (hc : Careful s) (data : List UInt8) (conn : Socket) :
    InStep sock { s.called data (sendPacket s.sock data) with conn := conn } := by
  obtain ⟨houtcome, hcalls, hok⟩ := sendPacket_transport s.sock data
  rw [hi.outcome, hi.calls] at hcalls hok
  rw [hi.careful_iff, Bool.or_eq_true] at hc
  refine ⟨houtcome.trans hi.outcome, ?_, ?_⟩
  · show (sendPacket s.sock data).sock.calls = nextCall _ _ ((s.calls ++ [_]).map Call.data)
    rw [List.map_append, hcalls]
    refine (Eq.trans (nextCall_concat sock.outcome data _ sock.calls) ?_).symm
    rcases hc with hwhole | hnone
    · rw [hwhole, Bool.true_and]
    · rw [not_takesAll_of_takesNothing hnone, Bool.and_false]
  · show (∀ c ∈ s.calls ++ [_], c.ok = true) ↔ wholes _ _ ((s.calls ++ [_]).map Call.data) = true
    rw [List.map_append]
    have hconcat := wholes_concat sock.outcome data (s.calls.map Call.data) sock.calls
    refine Iff.trans ?_ (by rw [show [_].map Call.data = [data] from rfl, hconcat])
    rw [Bool.and_eq_true, ← hi.oks, ← hok]
    constructor
    · intro h
      exact ⟨fun c hm => h c (List.mem_append_left _ hm), h _ (List.mem_append_right _ (List.mem_singleton_self _))⟩
    · rintro ⟨hold, hnew⟩ c hm
      rcases List.mem_append.mp hm with hm | hm
      · exact hold c hm
      · rw [List.mem_singleton.mp hm]
        exact hnew

end Server

/-- **The server's outgoing stream stays clean**, in all states of a run, exactly if the transport falls quiet:
    once a `send` for the replies to the packets received has had less taken than it offered, or has failed, it takes
    nothing more.  Then, at every moment, what has been written is a part of the frames of the replies, and no byte
    follows a torn reply. -/
theorem server_stream (sock : Writer UInt8) (conn : Socket) :
    (∀ s, Reached Server.mainLoop ⟨sock, conn, []⟩ s → Clean sock s ∧ TornLast s) ↔
    ∀ ds conn', Server.Receives conn ds conn' →
      Server.quiet sock.outcome sock.calls (ds.map Server.reply) = true := by
  constructor
  · intro hall
    have hrun : ∀ s, Heads Server.mainLoop ⟨sock, conn, []⟩ s → Server.InStep sock s ∧
        Server.quiet sock.outcome sock.calls (s.calls.map Call.data) = true := by
      intro s h
      induction h with
      | refl => exact ⟨⟨rfl, rfl, by simp [Server.wholes]⟩, rfl⟩
      | @tail s s' h hb ih =>
        obtain ⟨hi, hq⟩ := ih
        have htorn := (hall _ (Or.inl (h.tail hb))).2
        obtain ⟨q, _, rfl⟩ := Server.pass.1 hb
        have hcare := Server.careful_of_tornLast (Server.heads_account h) htorn
        refine ⟨hi.called hcare _ _, ?_⟩
        show Server.quiet _ _ ((s.calls ++ [_]).map Call.data) = true
        rw [List.map_append]
        refine (Server.quiet_concat _ _ _ _).trans ?_
        rw [hq, Bool.true_and]
        exact hi.careful_iff.mp hcare
    intro ds conn' hds
    obtain ⟨s, hs, _, hdata⟩ := @Server.Receives.heads sock _ _ _ hds
    exact hdata ▸ (hrun s hs).2
  · intro hquiet
    have hrun : ∀ s, Heads Server.mainLoop ⟨sock, conn, []⟩ s → Server.InStep sock s ∧ TornLast s := by
      intro s h
      induction h with
      | refl =>
        refine ⟨⟨rfl, rfl, by simp [Server.wholes]⟩, fun pre c post heq => ?_⟩
        have := congrArg List.length heq
        simp at this
      | @tail s s' h hb ih =>
        obtain ⟨hi, ht⟩ := ih
        obtain ⟨ds, hds, hdata⟩ := Server.heads_receives (h.tail hb)
        obtain ⟨q, _, rfl⟩ := Server.pass.1 hb
        have hcare : Server.Careful s := by
          have hq := hquiet ds _ hds
          rw [← hdata] at hq
          have hq' : Server.quiet sock.outcome sock.calls (s.calls.map Call.data ++ [Server.reply q.outData]) =
              true := by
            rw [← hq]
            show _ = Server.quiet _ _ ((s.calls ++ [_]).map Call.data)
            rw [List.map_append]
            rfl
          rw [Server.quiet_concat, Bool.and_eq_true] at hq'
          exact hi.careful_iff.mpr hq'.2
        exact ⟨hi.called hcare _ _, Server.tornLast_called (Server.heads_account h) ht hcare _⟩
    intro s h
    rcases h with h | ⟨t, h, hb⟩
    · exact ⟨(Server.heads_account h).clean (hrun s h).2, (hrun s h).2⟩
    · obtain ⟨conn', rfl⟩ := Server.pass.2 hb
      exact ⟨((Server.heads_account h).conn conn').clean (hrun t h).2, (hrun t h).2⟩

/-- The connection takes the length and ten bytes of the first reply, and then everything. -/
def hiccup : Writer UInt8 := ⟨[], 0, fun i => if i = 1 then .data 10 else .data 100, ""⟩

/-- Two packets, delivered whole. -/
def twoPackets : Socket := ⟨packet [65] ++ packet [66], 0, fun _ => .data 10⟩

/-- The first reply is torn. -/
def tornFirst : Session :=
  ⟨⟨(packet (Server.reply [65])).take 14, 2, hiccup.outcome, ""⟩, twoPackets.advance 5,
    [⟨Server.reply [65], (packet (Server.reply [65])).take 14, false⟩]⟩

/-- The second reply follows it. -/
def tornBoth : Session :=
  ⟨⟨tornFirst.sock.sent ++ packet (Server.reply [66]), 4, hiccup.outcome, ""⟩, twoPackets.advance 10,
    tornFirst.calls ++ [⟨Server.reply [66], packet (Server.reply [66]), true⟩]⟩

theorem torn_reply :
    Reached Server.mainLoop ⟨hiccup, twoPackets, []⟩ tornBoth ∧ ¬ Clean hiccup tornBoth ∧
      ¬ TornLast tornBoth := by
  have hrun : Heads Server.mainLoop ⟨hiccup, twoPackets, []⟩ tornBoth :=
    Relation.ReflTransGen.tail (b := tornFirst) (.tail .refl rfl) rfl
  refine ⟨Or.inl hrun, fun hc => ?_, fun ht => ?_⟩
  · have hle := hc _ (Server.heads_account hrun).sends .refl
    revert hle
    decide
  · have hnil := ht [] _ [_] rfl (by decide) _ (List.mem_singleton_self _)
    revert hnil
    decide

end CppBackend.Packet
