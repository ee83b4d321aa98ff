import CppBackend.PollThreadTp.Agreement

/-!
# What is closed, and how often

`client_communicate` and the error events each close the number in hand; the error events of the
listening socket close it without telling the destructor, which closes it again.  A run in which neither
happens (`Careful`) closes every descriptor once; a run in which one of them happens is doomed to call
`close` on a number that is not open.
-/

set_option autoImplicit false

namespace CppBackend.PollThreadTp

open Library.Descriptors Library.Calls Library.Poll Library.Transition

/-- `recv` returns nothing only for a client without error events, and the listening socket has none. -/
def Careful (s : Server) (a : Action) (_ : Server) : Prop :=
  match s.pc, a with
  | .communicate e, .recv chunk => chunk = [] → e.revents.failed = false
  | .errors e, .errors => some e.fd = s.serverFd → e.revents.failed = false
  | _, _ => True

/-- Every call of `close` reached the descriptor that it was meant for, and every descriptor has been
closed once. -/
structure ClosedOnce (s : Server) : Prop where
  own : ∀ o ∈ s.process.ops, o.call = .close → o.hit = some o.conn
  once : ∀ c < s.process.table.next, s.process.closes c = 1

variable {s s' : Server} {e : Copied}

/-- Until it has been closed, the descriptor in hand is the one that the entry was copied for. -/
theorem Inv.hand_open (hi : Inv s) (hin : s.pc.inLoop = true) (hhand : s.pc.hand = some e)
    (hpc : s.pc ≠ .errors e) : s.process.table.conn e.fd = some e.conn :=
  ((hi.loop hin).current e hhand).resolve_right fun h => hpc h.1

theorem dispatch_hand (hpc : s.pc = .next) (h : s.dispatch.pc.hand = some e) : e ∈ s.copy := by
  unfold Server.dispatch at h
  split at h
  · cases h
  · rename_i g rest hcopy
    have hg : g = e := by
      split at h
      · simp [hpc, Pc.hand] at h
      · split at h
        · by_cases hserver : some g.fd = s.serverFd <;> simpa [hserver, Pc.hand] using h
        · simpa [Pc.hand] using h
    simp [hcopy, hg]

theorem dispatch_same : s.dispatch.process = s.process ∧ s.dispatch.serverFd = s.serverFd := by
  unfold Server.dispatch
  split
  · exact ⟨rfl, rfl⟩
  · split
    · exact ⟨rfl, rfl⟩
    · split <;> exact ⟨rfl, rfl⟩

/-! ## Careful runs -/

structure Sound (s : Server) : Prop where
  tracked : Tracked s.process
  /-- What is to be closed for its error events is still open. -/
  errors : ∀ e, s.pc = .errors e → e.revents.failed = true →
    s.process.table.conn e.fd = some e.conn
  /-- The listening socket is open as long as the server has its number. -/
  listening : ∀ f, s.serverFd = some f → s.process.table.conn f = some 0

theorem Sound.keep (hs : Sound s) (hp : s'.process = s.process) (hserver : s'.serverFd = s.serverFd)
    (hpc : ∀ e, s'.pc = .errors e → e.revents.failed = true → s.process.table.conn e.fd = some e.conn) :
    Sound s' :=
  ⟨hp ▸ hs.tracked, by simpa [hp] using hpc, by simpa [hp, hserver] using hs.listening⟩

/-- One descriptor is closed that is open, and it is not the listening socket. -/
theorem Sound.close (hs : Sound s) {p : Process} {fd c : Nat} (hp : Tracked p)
    (ht : p.table = s.process.table) (hopen : s.process.table.conn fd = some c)
    (hne : s.serverFd ≠ some fd) (hproc : s'.process = p.close fd c)
    (hserver : s'.serverFd = s.serverFd) (hpc : ∀ e, s'.pc = .errors e → e.revents.failed = false) :
    Sound s' := by
  refine ⟨?_, fun e he hfail => ?_, fun f hf => ?_⟩
  · rw [hproc]
    exact tracked_close hp (ht ▸ hopen)
  · simp [hpc e he] at hfail
  · rw [hserver] at hf
    have hfd : f ≠ fd := fun h => hne (h ▸ hf)
    simp [hproc, ht, close_of_ne hfd, hs.listening f hf]

theorem sound_error (hs : Sound s) : Sound s.error := by
  unfold Server.error
  split
  · exact hs.keep rfl rfl fun _ he => by cases he
  · rename_i fd hfd
    exact ⟨tracked_close hs.tracked (hs.listening fd hfd), fun _ he => (by cases he),
      fun _ hf => (by cases hf)⟩

theorem sound_init : Sound init := ⟨tracked_empty, fun _ h => (by cases h), fun _ h => (by cases h)⟩

theorem sound_step {a : Action} (hi : Inv s) (hs : Sound s) (h : step s a = some s')
    (hc : Careful s a s') : Sound s' := by
  cases step_inv h with
  | noSocket | setupFails => exact sound_error hs
  | @socket fd hpc hfree =>
    refine ⟨tracked_accept hs.tracked hfree, fun _ he => (by cases he), fun f hf => ?_⟩
    cases hf
    simp [Server.open, (hi.blank hpc).1]
  | setup | destroy | ended => exact hs.keep rfl rfl fun _ he => by cases he
  | stop => exact hs.keep rfl rfl hs.errors
  | test | pollFails =>
    refine hs.keep rfl rfl fun e he => ?_
    simp only at he
    split at he <;> cases he
  | poll =>
    unfold Server.polled
    split <;> exact hs.keep rfl rfl fun _ he => by cases he
  | dispatch hpc =>
    have hin : s.pc.inLoop = true := by simp [hpc, Pc.inLoop]
    exact hs.keep dispatch_same.1 dispatch_same.2 fun e he _ =>
      (hi.loop hin).pending e (dispatch_hand hpc (by simp [he, Pc.hand]))
  | @acceptFails e hpc =>
    have hopen := hi.hand_open (e := e) (by simp [hpc, Pc.inLoop]) (by simp [hpc, Pc.hand]) (by simp [hpc])
    refine hs.keep rfl rfl fun g hg _ => ?_
    cases hg
    exact hopen
  | @accept e fd hpc _ hfree =>
    have hopen := hi.hand_open (e := e) (by simp [hpc, Pc.inLoop]) (by simp [hpc, Pc.hand]) (by simp [hpc])
    refine ⟨tracked_accept hs.tracked hfree, fun g hg _ => ?_, fun f hf => ?_⟩
    · cases hg
      exact accept_open hfree hopen
    · exact accept_open hfree (hs.listening f hf)
  | @received e chunk hpc =>
    have hopen := hi.hand_open (e := e) (by simp [hpc, Pc.inLoop]) (by simp [hpc, Pc.hand]) (by simp [hpc])
    refine ⟨tracked_call (k := .recv chunk) hs.tracked (by simp) hopen, fun g hg _ => ?_, hs.listening⟩
    cases hg
    exact hopen
  | @hungUp e hpc =>
    have hin : s.pc.inLoop = true := by simp [hpc, Pc.inLoop]
    have hopen := hi.hand_open (e := e) hin (by simp [hpc, Pc.hand]) (by simp [hpc])
    have hcall := tracked_call (k := .recv []) hs.tracked (by simp) hopen
    have hfail : e.revents.failed = false := by
      simp only [Careful, hpc] at hc
      exact hc trivial
    refine hs.close hcall rfl hopen ((hi.loop hin).talks e hpc).symm rfl rfl fun g hg => ?_
    cases hg
    exact hfail
  | @failed e hpc hfail =>
    have hne : s.serverFd ≠ some e.fd := by
      intro hserver
      simp only [Careful, hpc] at hc
      simp [hc hserver.symm] at hfail
    exact hs.close hs.tracked rfl (hs.errors e hpc hfail) hne rfl rfl fun _ hg => by cases hg
  | passed => exact hs.keep rfl rfl fun _ hg => by cases hg
  | @closeClient rest fd hpc hmem =>
    have halive : s.alive = rest := by simp [Server.alive, hpc]
    obtain ⟨c, _, hopen⟩ := (hi.clients fd).mp (halive ▸ hmem)
    have hne : s.serverFd ≠ some fd := fun h => hi.server fd h (halive ▸ hmem)
    exact hs.close hs.tracked rfl (hi.owned fd c hopen ▸ hopen) hne rfl rfl fun _ he => by cases he
  | @closeServer fd hpc hfd =>
    exact ⟨tracked_close hs.tracked (hs.listening fd hfd), fun _ he => (by cases he),
      fun _ hf => (by cases hf)⟩

theorem sound_reach (hr : Reach Careful step init s) : Sound s :=
  hr.invariant_of (fun _ h => reach_inv h.any) sound_init
    fun _ _ _ hi hs h hc => sound_step hi hs h hc

/-! ## Careless runs -/

/-- A call of `close` went astray, or is bound to. -/
inductive Doomed (s : Server) : Prop where
  | astray (o : Op) (ho : o ∈ s.process.ops) (hcall : o.call = .close) (hhit : o.hit ≠ some o.conn)
  /-- The number in hand has been closed, and will be again. -/
  | again (e : Copied) (hpc : s.pc = .errors e) (hfail : e.revents.failed = true)
      (hgone : s.process.table.conn e.fd = none)
  /-- The listening socket has been closed, and the destructor will close it. -/
  | deaf (f : Nat) (hserver : s.serverFd = some f) (hgone : s.process.table.conn f ≠ some 0)

/-- Where the number in hand and the listening socket are not concerned, what is bound to happen still
is. -/
theorem Doomed.keep (hd : Doomed s) (hops : ∀ o ∈ s.process.ops, o ∈ s'.process.ops)
    (hserver : s'.serverFd = s.serverFd)
    (hlisten : ∀ f, s'.process.table.conn f = some 0 → s.process.table.conn f = some 0)
    (hpc : ∀ e, s.pc = .errors e → e.revents.failed = true → s.process.table.conn e.fd = none →
      Doomed s') : Doomed s' := by
  cases hd with
  | astray o ho hcall hhit => exact .astray o (hops o ho) hcall hhit
  | again e hpc' hfail hgone => exact hpc e hpc' hfail hgone
  | deaf f hf hgone => exact .deaf f (hserver ▸ hf) fun h => hgone (hlisten f h)

theorem mem_close {p : Process} {fd c : Nat} {o : Op} (h : o ∈ p.ops) : o ∈ (p.close fd c).ops :=
  List.mem_append_left _ h

/-- A call of `close` that does not reach the descriptor it was meant for. -/
theorem doomed_close {p : Process} {fd c : Nat} (hproc : s'.process = p.close fd c)
    (h : p.table.conn fd ≠ some c) : Doomed s' :=
  .astray ⟨.close, c, p.table.conn fd⟩ (hproc ▸ List.mem_append_right _ (List.mem_singleton.mpr rfl)) rfl h

/-- A step that closes nothing, with no error events to be tested. -/
theorem Doomed.quiet (hd : Doomed s) (hp : s'.process = s.process) (hserver : s'.serverFd = s.serverFd)
    (hpc : ∀ e, s.pc ≠ .errors e) : Doomed s' :=
  hd.keep (fun _ h => hp ▸ h) hserver (fun _ h => hp ▸ h) fun e he => absurd he (hpc e)

/-- A close of the number `fd`: no number is open after it that was not open before. -/
theorem Doomed.close (hd : Doomed s) {p : Process} {fd c : Nat} (hp : ∀ o ∈ s.process.ops, o ∈ p.ops)
    (ht : p.table = s.process.table) (hproc : s'.process = p.close fd c)
    (hserver : s'.serverFd = s.serverFd)
    (hpc : ∀ e, s.pc = .errors e → e.revents.failed = true → s.process.table.conn e.fd = none →
      Doomed s') : Doomed s' := by
  refine hd.keep (fun o ho => hproc ▸ mem_close (hp o ho)) hserver (fun f hf => ?_) hpc
  rw [hproc, close_table, close_eq_some, ht] at hf
  exact hf.2

/-- The listening socket is closed for the last time. -/
theorem Doomed.closeServer (hd : Doomed s) {fd : Nat} (hfd : s.serverFd = some fd)
    (hproc : s'.process = s.process.close fd 0) (hpc : ∀ e, s.pc ≠ .errors e) : Doomed s' := by
  cases hd with
  | astray o ho hcall hhit => exact .astray o (hproc ▸ mem_close ho) hcall hhit
  | again e he => exact absurd he (hpc e)
  | deaf f hf hgone =>
    rw [hfd, Option.some.injEq] at hf
    subst hf
    exact doomed_close hproc hgone

theorem doomed_error (hd : Doomed s) (hpc : ∀ e, s.pc ≠ .errors e) : Doomed s.error := by
  unfold Server.error
  split
  · exact hd.quiet rfl rfl hpc
  · rename_i fd hfd
    exact hd.closeServer hfd rfl hpc

theorem doomed_step {a : Action} (hi : Inv s) (hd : Doomed s) (h : step s a = some s') : Doomed s' := by
  cases step_inv h with
  | noSocket hpc | setupFails hpc => exact doomed_error hd (by simp [hpc])
  | socket hpc =>
    cases hd with
    | astray o ho hcall hhit => exact .astray o ho hcall hhit
    | again e he => simp [hpc] at he
    | deaf f hf => simp [(hi.blank hpc).2.2.2] at hf
  | setup hpc | test hpc | pollFails hpc | acceptFails hpc | ended hpc => exact hd.quiet rfl rfl (by simp [hpc])
  | stop => exact hd.keep (fun _ h => h) rfl (fun _ h => h) fun e he hfail hgone => .again e he hfail hgone
  | poll hpc =>
    unfold Server.polled
    split <;> exact hd.quiet rfl rfl (by simp [hpc])
  | dispatch hpc => exact hd.quiet dispatch_same.1 dispatch_same.2 (by simp [hpc])
  | accept hpc =>
    have hopened := (hi.loop (by simp [hpc, Pc.inLoop])).opened
    refine hd.keep (fun _ h => h) rfl (fun f h => ?_) (by simp [hpc])
    -- what is opened is a client, and not connection 0
    simp only [Server.newClient, Server.open, accept_table, accept_conn] at h
    split at h
    · simp only [Option.some.injEq] at h
      omega
    · exact h
  | received hpc => exact hd.keep (fun _ h => List.mem_append_left _ h) rfl (fun _ h => h) (by simp [hpc])
  | @hungUp e hpc =>
    exact hd.close (p := s.process.call (.recv []) e.fd e.conn) (fun _ h => List.mem_append_left _ h) rfl rfl
      rfl (by simp [hpc])
  | @failed e hpc =>
    refine hd.close (fun _ h => h) rfl rfl rfl fun g hg _ hgone => ?_
    simp only [hpc, Pc.errors.injEq] at hg
    subst hg
    exact doomed_close (p := s.process) rfl (by simp [hgone])
  | @passed e hpc hfail =>
    refine hd.keep (fun _ h => h) rfl (fun _ h => h) fun g hg hfail' _ => ?_
    simp only [hpc, Pc.errors.injEq] at hg
    rw [← hg, hfail] at hfail'
    cases hfail'
  | destroy hpc => rcases hpc with hpc | hpc <;> exact hd.quiet rfl rfl (by simp [hpc])
  | closeClient hpc => exact hd.close (fun _ h => h) rfl rfl rfl (by simp [hpc])
  | closeServer hpc hfd => exact hd.closeServer hfd rfl (by simp [hpc])

/-- A step that is not careful closes the number in hand for the first of two times, or the listening
socket for the first of two times. -/
theorem doomed_careless {a : Action} (h : step s a = some s') (hc : ¬ Careful s a s') : Doomed s' := by
  unfold Careful at hc
  split at hc
  · rename_i e chunk hpc
    simp only [step, hpc] at h
    simp only [Classical.not_imp, Bool.not_eq_false] at hc
    obtain ⟨rfl, hfail⟩ := hc
    split at h
    · cases h
      exact .again e rfl hfail (close_self _ _)
    · cases h
  · rename_i e hpc
    simp only [Classical.not_imp, Bool.not_eq_false] at hc
    obtain ⟨hserver, hfail⟩ := hc
    simp only [step, hpc, hfail, if_true, Option.some.injEq] at h
    subst h
    exact .deaf e.fd hserver.symm (by simp [Server.disconnect, Server.close])
  · exact absurd trivial hc

theorem not_doomed_of_closedOnce (hi : Inv s) (hend : s.pc = .ended) (hc : ClosedOnce s) : ¬ Doomed s := by
  intro hd
  cases hd with
  | astray o ho hcall hhit => exact hhit (hc.own o ho hcall)
  | again e hpc => simp [hend] at hpc
  | deaf f hf => simp [(hi.finished hend).1] at hf

theorem allowed_of_not_doomed {as : List Action} (h : exec step init as = some s) (hd : ¬ Doomed s) :
    Allowed Careful step init as := by
  refine Stays.allowed_of_end (fun _ => True) Doomed (fun s a s' _ hs _ => ?_)
    (fun s a s' hr hd hs => doomed_step (reach_inv hr) hd hs) hd as Reach.refl h (stays_true as)
  by_cases hc : Careful s a s'
  · exact Or.inl hc
  · exact Or.inr (doomed_careless hs hc)

/-- **Every descriptor is closed exactly once** in a run up to the end of the destructor, and `close` only
called on open numbers, exactly if `recv` never returned nothing for a client with error events, and the
listening socket never had error events. -/
theorem closed_once_iff {as : List Action} (h : exec step init as = some s) (hend : s.pc = .ended) :
    ClosedOnce s ↔ Allowed Careful step init as := by
  have hi := reach_inv (exec_reach as h)
  constructor
  · intro hc
    exact allowed_of_not_doomed h (not_doomed_of_closedOnce hi hend hc)
  · intro ha
    have hs := sound_reach (Allowed.reach as h ha)
    refine ⟨fun o ho _ => hs.tracked.own o ho, fun c hc => hs.tracked.gone c ⟨hc, fun f hf => ?_⟩⟩
    simp [(hi.finished hend).2 f] at hf

/-- Client 5 comes, hangs up, and is reported with the events `r`; then the server is stopped. -/
def hangsUp (r : Flags) : List Action :=
  [.socket (some 3), .setup true, .test, .poll fun _ => .input, .dispatch, .accept (some 5), .errors,
    .dispatch, .test, .poll fun i => if i = 1 then r else .none, .dispatch, .dispatch, .recv [], .errors,
    .dispatch, .stop, .test, .destroy, .closeServer]

theorem closed_once_iff_hangsUp : Allowed Careful step init (hangsUp .input) :=
  (closed_once_iff (s := (exec step init (hangsUp .input)).get rfl) (Option.some_get rfl).symm rfl).mp
    ⟨by decide, by decide⟩

/-- With `POLLIN` and `POLLHUP` together, the number 5 is closed twice. -/
theorem closed_twice : ∃ s : Server,
    exec step init (hangsUp ⟨true, false, true, false⟩) = some s ∧ s.pc = .ended ∧
    s.process.ops = [⟨.recv [], 1, some 1⟩, ⟨.close, 1, some 1⟩, ⟨.close, 1, none⟩, ⟨.close, 0, some 0⟩] ∧
    ¬ ClosedOnce s :=
  ⟨_, (Option.some_get (x := exec step init (hangsUp ⟨true, false, true, false⟩)) rfl).symm, rfl, rfl,
    fun hc => absurd (hc.own ⟨.close, 1, none⟩ (by decide) rfl) (by decide)⟩

end CppBackend.PollThreadTp
