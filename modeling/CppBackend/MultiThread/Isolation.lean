import CppBackend.MultiThread.Model
import CppBackend.Library.Slots

/-!
# Isolation of the clients

A handler's number refers to the connection it was started for until the handler closes it: no other
handler has the same connection (`Inv.nodup`), and a number is handed out again only when it is
not open.  So each handler works on its own connection only, closes it once, and answers its
chunks one by one (`Good`); what it does leaves the others as they are (`Frame`).
-/

set_option autoImplicit false

namespace CppBackend.MultiThread

open Library.Descriptors Library.Transition Library.Slots

/-- Everything one step of `client_communicate` can do. -/
inductive CommunicateStep (sh : Shared) (h : Handler) : Shared → Handler → Prop where
  | received {chunk : List UInt8} {c : Nat} (hpc : h.pc = .recv)
      (hc : sh.table.conn h.clientFd = some c) :
      CommunicateStep sh h
        { sh with received := Function.update sh.received c (sh.received c ++ [chunk])
                  ops := sh.ops ++ [⟨.recv, h.conn, some c⟩] } { h with pc := .send chunk }
  | ended (hpc : h.pc = .recv) :
      CommunicateStep sh h
        { sh with ops := sh.ops ++ [⟨.recv, h.conn, sh.table.conn h.clientFd⟩] }
        { h with pc := .close }
  | answered {chunk : List UInt8} {c : Nat} (hpc : h.pc = .send chunk)
      (hc : sh.table.conn h.clientFd = some c) :
      CommunicateStep sh h
        { sh with sent := Function.update sh.sent c (sh.sent c ++ [response chunk])
                  ops := sh.ops ++ [⟨.send, h.conn, some c⟩] } { h with pc := .recv }
  | failed {chunk : List UInt8} (hpc : h.pc = .send chunk) :
      CommunicateStep sh h
        { sh with ops := sh.ops ++ [⟨.send, h.conn, sh.table.conn h.clientFd⟩] }
        { h with pc := .close }
  | closed (hpc : h.pc = .close) :
      CommunicateStep sh h
        { sh with
          table := sh.table.close h.clientFd
          closes := match sh.table.conn h.clientFd with
            | none => sh.closes
            | some c => Function.update sh.closes c (sh.closes c + 1)
          ops := sh.ops ++ [⟨.close, h.conn, sh.table.conn h.clientFd⟩] } { h with pc := .ended }

theorem communicate_inv {sh sh' : Shared} {h h' : Handler} {io : Io}
    (hs : communicate sh h io = some (sh', h')) : CommunicateStep sh h sh' h' := by
  unfold communicate at hs
  split at hs
  · rename_i hpc
    split at hs
    · cases hs
    · rename_i c hc
      split at hs
      · cases hs
        exact .received hpc hc
      · cases hs
  · rename_i hpc _
    cases hs
    exact .ended hpc
  · rename_i hpc
    cases hs
    exact .failed hpc
  · rename_i hpc _
    split at hs
    · cases hs
    · rename_i c hc
      cases hs
      exact .answered hpc hc
  · rename_i hpc
    cases hs
    exact .closed hpc
  · cases hs

/-! ## One handler -/

/-- The responses sent against the chunks received, at each program point. -/
def Answered (received sent : List (List UInt8)) : HandlerPc → Prop
  | .recv => sent = received.map response
  | .send chunk => ∃ earlier, received = earlier ++ [chunk] ∧ sent = earlier.map response
  | .close | .ended => sent = received.map response ∨
      ∃ earlier chunk, received = earlier ++ [chunk] ∧ sent = earlier.map response

/-- The handler has its connection to itself until it closes it, once. -/
structure Good (sh : Shared) (h : Handler) : Prop where
  held : h.pc ≠ .ended → sh.table.conn h.clientFd = some h.conn
  gone : h.pc = .ended → Gone sh.table h.conn
  closes : sh.closes h.conn = if h.pc = .ended then 1 else 0
  answered : Answered (sh.received h.conn) (sh.sent h.conn) h.pc

/-- The step concerns the connection `c` only. -/
structure Frame (c : Nat) (sh sh' : Shared) : Prop where
  received : ∀ d, d ≠ c → sh'.received d = sh.received d
  sent : ∀ d, d ≠ c → sh'.sent d = sh.sent d
  closes : ∀ d, d ≠ c → sh'.closes d = sh.closes d
  held : ∀ fd d, d ≠ c → sh.table.conn fd = some d → sh'.table.conn fd = some d
  gone : ∀ d, Gone sh.table d → Gone sh'.table d

variable {sh sh' : Shared} {h h' : Handler}

theorem Good.frame (hg : Good sh h) {c : Nat} (hf : Frame c sh sh') (hne : h.conn ≠ c) :
    Good sh' h := by
  refine ⟨fun hp => hf.held _ _ hne (hg.held hp), fun hp => hf.gone _ (hg.gone hp), ?_, ?_⟩
  · rw [hf.closes _ hne, hg.closes]
  · rw [hf.received _ hne, hf.sent _ hne]
    exact hg.answered

theorem frame_ops (c : Nat) (sh : Shared) (ops : List Op) : Frame c sh { sh with ops := ops } :=
  ⟨fun _ _ => rfl, fun _ _ => rfl, fun _ _ => rfl, fun _ _ _ he => he, fun _ hd => hd⟩

/-- **One step of a handler** is applied to its own connection. -/
theorem good_step (hg : Good sh h) (hs : CommunicateStep sh h sh' h') :
    Good sh' h' ∧ Frame h.conn sh sh' ∧
      (∃ call, sh'.ops = sh.ops ++ [⟨call, h.conn, some h.conn⟩]) ∧
      h'.conn = h.conn ∧ h'.clientFd = h.clientFd := by
  have hrunning : h.pc ≠ .ended := by
    cases hs with
    | received hpc => rw [hpc]; exact fun he => (nomatch he)
    | ended hpc => rw [hpc]; exact fun he => (nomatch he)
    | answered hpc => rw [hpc]; exact fun he => (nomatch he)
    | failed hpc => rw [hpc]; exact fun he => (nomatch he)
    | closed hpc => rw [hpc]; exact fun he => (nomatch he)
  have hheld := hg.held hrunning
  have hcloses := hg.closes
  rw [if_neg hrunning] at hcloses
  have hans := hg.answered
  cases hs with
  | @received chunk c hpc hc =>
    rw [hheld, Option.some.injEq] at hc
    subst hc
    rw [hpc] at hans
    refine ⟨⟨fun _ => hheld, fun he => (nomatch he), hcloses, ?_⟩, ⟨?_, ?_, ?_, ?_, ?_⟩, ⟨_, rfl⟩, rfl,
      rfl⟩
    · exact ⟨sh.received h.conn, Function.update_self _ _ _, hans⟩
    · exact fun d hd => Function.update_of_ne hd _ _
    · exact fun _ _ => rfl
    · exact fun _ _ => rfl
    · exact fun _ _ _ he => he
    · exact fun _ hd => hd
  | ended hpc =>
    rw [hpc] at hans
    exact ⟨⟨fun _ => hheld, fun he => (nomatch he), hcloses, Or.inl hans⟩, frame_ops _ _ _,
      ⟨.recv, by rw [hheld]⟩, rfl, rfl⟩
  | @answered chunk c hpc hc =>
    rw [hheld, Option.some.injEq] at hc
    subst hc
    rw [hpc] at hans
    obtain ⟨earlier, hrecv, hsent⟩ := hans
    refine ⟨⟨fun _ => hheld, fun he => (nomatch he), hcloses, ?_⟩, ⟨?_, ?_, ?_, ?_, ?_⟩, ⟨_, rfl⟩, rfl,
      rfl⟩
    · show Function.update sh.sent h.conn _ h.conn = (sh.received h.conn).map response
      rw [Function.update_self, hsent, hrecv, List.map_append]
      rfl
    · exact fun _ _ => rfl
    · exact fun d hd => Function.update_of_ne hd _ _
    · exact fun _ _ => rfl
    · exact fun _ _ _ he => he
    · exact fun _ hd => hd
  | @failed chunk hpc =>
    rw [hpc] at hans
    obtain ⟨earlier, hrecv, hsent⟩ := hans
    exact ⟨⟨fun _ => hheld, fun he => (nomatch he), hcloses, Or.inr ⟨earlier, chunk, hrecv, hsent⟩⟩,
      frame_ops _ _ _, ⟨.send, by rw [hheld]⟩, rfl, rfl⟩
  | closed hpc =>
    rw [hpc] at hans
    rw [hheld]
    refine ⟨⟨fun he => absurd rfl he, fun _ => gone_of_close hheld, ?_, hans⟩, ⟨?_, ?_, ?_, ?_, ?_⟩,
      ⟨.close, rfl⟩, rfl, rfl⟩
    · show Function.update sh.closes h.conn _ h.conn = _
      rw [Function.update_self, hcloses]
      rfl
    · exact fun _ _ => rfl
    · exact fun _ _ => rfl
    · exact fun d hd => Function.update_of_ne hd _ _
    · exact fun fd d hd he => close_open hheld he hd
    · exact fun d hd => gone_close hd _

/-! ## The server -/

/-- Nothing has happened on the connection yet. -/
structure Untouched (sh : Shared) (c : Nat) : Prop where
  received : sh.received c = []
  sent : sh.sent c = []
  closes : sh.closes c = 0

/-- No two handlers have the same connection; a connection without a handler is untouched; and
    every call was applied to the caller's connection. -/
structure Inv (s : Server) : Prop where
  good : ∀ h ∈ s.handlers, Good s.shared h
  nodup : (s.handlers.map Handler.conn).Nodup
  main : ∀ fd c, s.main = .start fd c →
    s.shared.table.conn fd = some c ∧ c ∉ s.handlers.map Handler.conn
  untouched : ∀ c, c ∉ s.handlers.map Handler.conn → Untouched s.shared c
  ops : ∀ o ∈ s.shared.ops, o.hit = some o.conn

variable {s s' : Server}

theorem Untouched.frame {c d : Nat} (hu : Untouched sh d) (hf : Frame c sh sh') (hne : d ≠ c) :
    Untouched sh' d :=
  ⟨(hf.received d hne).trans hu.received, (hf.sent d hne).trans hu.sent,
    (hf.closes d hne).trans hu.closes⟩

/-- Handlers with one connection are one handler. -/
theorem conn_inj {hs : List Handler} (hn : (hs.map Handler.conn).Nodup) {i j : Nat} {g h : Handler}
    (hi : hs[i]? = some g) (hj : hs[j]? = some h) (he : g.conn = h.conn) : i = j := by
  have hi' : (hs.map Handler.conn)[i]? = some g.conn := by rw [List.getElem?_map, hi]; rfl
  have hj' : (hs.map Handler.conn)[j]? = some g.conn := by rw [List.getElem?_map, hj, he]; rfl
  exact (List.getElem?_inj (List.getElem?_eq_some_iff.mp hi').1 hn).mp (hi'.trans hj'.symm)

/-- The connection of a handler has been accepted. -/
theorem Good.bounded (hg : Good sh h) : h.conn < sh.table.next := by
  by_cases hp : h.pc = .ended
  · exact (hg.gone hp).1
  · exact sh.table.bounded _ _ (hg.held hp)

theorem inv_accept (hi : Inv s) {fd : Nat}
    (hfree : s.shared.table.conn fd = none) :
    Inv { s with shared := { s.shared with table := s.shared.table.accept fd }
                 main := .start fd s.shared.table.next } := by
  refine ⟨fun h hh => ?_, hi.nodup, ?_, fun c hc => ?_, hi.ops⟩
  · have hg := hi.good h hh
    exact ⟨fun hp => accept_open hfree (hg.held hp), fun hp => gone_accept (hg.gone hp) fd,
      hg.closes, hg.answered⟩
  · intro f c he
    cases he
    refine ⟨accept_self _ _, fun hmem => ?_⟩
    obtain ⟨h, hh, hc⟩ := List.mem_map.mp hmem
    have := (hi.good h hh).bounded
    omega
  · have hu := hi.untouched c hc
    exact ⟨hu.received, hu.sent, hu.closes⟩

theorem inv_start (hi : Inv s) {fd c : Nat} (hm : s.main = .start fd c) :
    Inv { s with main := .accept, handlers := s.handlers ++ [⟨fd, c, .recv⟩] } := by
  obtain ⟨hopen, hnew⟩ := hi.main fd c hm
  have hu := hi.untouched c hnew
  refine ⟨fun h hh => ?_, ?_, fun _ _ he => (nomatch he), fun d hd => ?_, hi.ops⟩
  · rcases List.mem_append.mp hh with hh | hh
    · exact hi.good h hh
    · rw [List.mem_singleton.mp hh]
      refine ⟨fun _ => hopen, fun he => (nomatch he), hu.closes, ?_⟩
      show s.shared.sent c = (s.shared.received c).map response
      rw [hu.sent, hu.received]
      rfl
  · rw [List.map_append]
    refine List.nodup_append.mpr ⟨hi.nodup, by simp, ?_⟩
    rintro d hd e he rfl
    rw [List.map_singleton, List.mem_singleton] at he
    rw [he] at hd
    exact hnew hd
  · rw [List.map_append, List.mem_append, not_or] at hd
    exact hi.untouched d hd.1

theorem inv_handler (hi : Inv s) {i : Nat} (hh : s.handlers[i]? = some h)
    (hs : CommunicateStep s.shared h sh' h') :
    Inv { s with shared := sh', handlers := s.handlers.set i h' } := by
  have hmem := List.mem_of_getElem? hh
  obtain ⟨hgood, hframe, ⟨call, hops⟩, hconn, hfd⟩ := good_step (hi.good h hmem) hs
  have hconns : (s.handlers.set i h').map Handler.conn = s.handlers.map Handler.conn := by
    rw [List.map_set, hconn]
    exact set_eq_of_get (by rw [List.getElem?_map, hh]; rfl)
  refine ⟨fun g hg => ?_, hconns ▸ hi.nodup, ?_, fun c hc => ?_, ?_⟩
  · obtain ⟨j, hj⟩ := List.mem_iff_getElem?.mp hg
    rw [List.getElem?_set] at hj
    split at hj
    · split at hj
      · cases hj
        exact hgood
      · cases hj
    · rename_i hij
      exact (hi.good g (List.mem_of_getElem? hj)).frame hframe fun heq =>
        hij (conn_inj hi.nodup hh hj heq.symm)
  · intro fd c hm
    obtain ⟨hopen, hnew⟩ := hi.main fd c hm
    rw [hconns]
    refine ⟨hframe.held fd c (fun heq => hnew ?_) hopen, hnew⟩
    exact heq ▸ List.mem_map_of_mem hmem
  · rw [hconns] at hc
    exact (hi.untouched c hc).frame hframe fun heq => hc (heq ▸ List.mem_map_of_mem hmem)
  · intro o ho
    rw [hops] at ho
    rcases List.mem_append.mp ho with ho | ho
    · exact hi.ops o ho
    · rw [List.mem_singleton.mp ho]

theorem inv_init : Inv init :=
  ⟨fun _ hh => (nomatch hh), List.nodup_nil, fun _ _ he => (nomatch he), fun _ _ => ⟨rfl, rfl, rfl⟩,
    fun _ ho => (nomatch ho)⟩

theorem inv_step {a : Action} (hi : Inv s) (h : step s a = some s') : Inv s' := by
  cases a with
  | accept clientFd =>
    simp only [step] at h
    split at h
    · cases h
      exact hi
    · split at h
      · rename_i hfree
        cases h
        exact inv_accept hi hfree
      · cases h
    · cases h
  | start =>
    simp only [step] at h
    split at h
    · cases h
    · rename_i hm
      cases h
      exact inv_start hi hm
  | handler i io =>
    simp only [step] at h
    split at h
    · cases h
    · rename_i hh
      obtain ⟨⟨sh', h'⟩, hc, he⟩ := Option.map_eq_some_iff.mp h
      cases he
      exact inv_handler hi hh (communicate_inv hc)

theorem reach_inv (hr : Reach anyStep step init s) : Inv s :=
  hr.invariant inv_init fun _ _ _ hi h _ => inv_step hi h

/-- The clients of the server are apart from each other. -/
structure Isolated (s : Server) : Prop where
  /-- No two running handlers hold one open connection. -/
  apart : ∀ (i j : Nat) (g h : Handler) (c : Nat), s.handlers[i]? = some g →
    s.handlers[j]? = some h → i ≠ j → g.pc ≠ .ended → h.pc ≠ .ended →
    ¬(s.shared.table.conn g.clientFd = some c ∧ s.shared.table.conn h.clientFd = some c)
  /-- Every call is applied to the connection that the handler was started for. -/
  own : ∀ o ∈ s.shared.ops, o.hit = some o.conn
  once : ∀ c, s.shared.closes c ≤ 1
  ended : ∀ h ∈ s.handlers, h.pc = .ended →
    s.shared.closes h.conn = 1 ∧ Gone s.shared.table h.conn
  /-- In order, one response for each chunk; at most the last chunk is unanswered. -/
  answered : ∀ c, s.shared.sent c <+: (s.shared.received c).map response ∧
    (s.shared.received c).length ≤ (s.shared.sent c).length + 1

theorem Answered.ordered {received sent : List (List UInt8)} : ∀ {pc : HandlerPc},
    Answered received sent pc →
    sent <+: received.map response ∧ received.length ≤ sent.length + 1 := by
  have all : sent = received.map response →
      sent <+: received.map response ∧ received.length ≤ sent.length + 1 := by
    rintro rfl
    exact ⟨List.prefix_rfl, by simp⟩
  have butLast : ∀ earlier chunk, received = earlier ++ [chunk] → sent = earlier.map response →
      sent <+: received.map response ∧ received.length ≤ sent.length + 1 := by
    rintro earlier chunk rfl rfl
    refine ⟨?_, by simp⟩
    rw [List.map_append]
    exact List.prefix_append _ _
  intro pc h
  cases pc with
  | recv => exact all h
  | send chunk =>
    obtain ⟨earlier, hrecv, hsent⟩ := h
    exact butLast earlier chunk hrecv hsent
  | close =>
    rcases h with h | ⟨earlier, chunk, hrecv, hsent⟩
    · exact all h
    · exact butLast earlier chunk hrecv hsent
  | ended =>
    rcases h with h | ⟨earlier, chunk, hrecv, hsent⟩
    · exact all h
    · exact butLast earlier chunk hrecv hsent

/-- **Thread-per-client isolation**, for any clients, in any order of the steps, whatever `recv`
    and `send` return. -/
theorem clients_isolated (hr : Reach anyStep step init s) : Isolated s := by
  have hi := reach_inv hr
  refine ⟨?_, hi.ops, fun c => ?_, fun h hh hp => ?_, fun c => ?_⟩
  · rintro i j g h c hg hh hij hgp hhp ⟨hcg, hch⟩
    have hgc := (hi.good g (List.mem_of_getElem? hg)).held hgp
    have hhc := (hi.good h (List.mem_of_getElem? hh)).held hhp
    rw [hcg, Option.some.injEq] at hgc
    rw [hch, Option.some.injEq] at hhc
    exact hij (conn_inj hi.nodup hg hh (hgc.symm.trans hhc))
  · by_cases hc : c ∈ s.handlers.map Handler.conn
    · obtain ⟨h, hh, rfl⟩ := List.mem_map.mp hc
      rw [(hi.good h hh).closes]
      split <;> simp
    · simp [(hi.untouched c hc).closes]
  · have hg := hi.good h hh
    have hcloses := hg.closes
    rw [if_pos hp] at hcloses
    exact ⟨hcloses, hg.gone hp⟩
  · by_cases hc : c ∈ s.handlers.map Handler.conn
    · obtain ⟨h, hh, rfl⟩ := List.mem_map.mp hc
      exact (hi.good h hh).answered.ordered
    · simp [(hi.untouched c hc).received, (hi.untouched c hc).sent]

/-- Client 0 is answered once, disconnects, and its number 5 is given to client 1, who sends one
    chunk and is not answered yet. -/
def reuse : List Action :=
  [.accept (some 5), .start, .handler 0 (.data [104]), .handler 0 (.data []), .handler 0 .zero,
    .handler 0 .zero, .accept (some 5), .start, .handler 1 (.data [105])]

theorem clients_isolated_reuse :
    ∃ s, Reach anyStep step init s ∧ s.handlers = [⟨5, 0, .ended⟩, ⟨5, 1, .send [105]⟩] ∧
      Isolated s :=
  have hr : Reach anyStep step init ((exec step init reuse).get rfl) := exec_reach_get reuse rfl
  ⟨_, hr, rfl, clients_isolated hr⟩

end CppBackend.MultiThread
