import CppBackend.SelectThread.Model

/-!
# What the handlers do to each other's clients

`select` reports a number until somebody has read from it, so several handlers may run on one
number, and more than one of them may see the end of its connection.  The first one closes the number;
`accept` may hand it out again, and then the next one unregisters and closes the new client
(`closed_by_stranger`).

A client under the number 1024 has no bit in `read_fds` (`never_registered`).

If `accept` never returns a number from `FD_SETSIZE` on, nor one on which a handler is in `recv`, or which a handler,
having seen the end of a connection, still has to close, every client stays open and registered until the end
of its own connection is seen (`clients_undisturbed`).  The invariant has a part for each thread; a step of one handler
keeps the part of every other thread because of what it guarantees (`Guarantee`).
-/

set_option autoImplicit false

namespace CppBackend.SelectThread

open Library.Descriptors Library.Transition

/-- Some `recv` on the connection has returned 0 or an error. -/
def Ended (ops : List Op) (c : Nat) : Prop := ∃ i, (⟨i, .sawEnd, some c⟩ : Op) ∈ ops

/-- The connection is open, and its number is registered. -/
def Registered (sh : Shared) (fd c : Nat) : Prop :=
  sh.table.conn fd = some c ∧ fd ∈ sh.readFds.bits ∧ fd ∈ sh.clientFds

/-- How often the connection was closed. -/
def closes (ops : List Op) (c : Nat) : Nat :=
  ops.countP fun o => o.call == .close && o.hit == some c

/-- No handler unregisters or closes somebody else's connection. -/
structure Undisturbed (sh : Shared) : Prop where
  kept : ∀ c ∈ sh.joined, ¬ Ended sh.ops c → ∃ fd, Registered sh fd c
  once : ∀ c, closes sh.ops c ≤ 1
  own : ∀ i c, (⟨i, .close, some c⟩ : Op) ∈ sh.ops → (⟨i, .sawEnd, some c⟩ : Op) ∈ sh.ops

/-- The server is not shut down. -/
def running (_ : Server) (_ : Action) (s' : Server) : Prop := s'.shared.isRunning = true

/-- The handler is about to unregister and close its number. -/
def Handler.closing (h : Handler) : Bool :=
  match h.pc with
  | .lock _ | .clear _ | .close _ => true
  | _ => false

/-- The handler is in `recv`, and so may find that it has to close its number, or has found it. -/
def Handler.pending (h : Handler) : Bool :=
  match h.pc with
  | .receiving _ => true
  | _ => h.closing

/-- The number that `accept` returns in the step. -/
def Action.accepts : Action → Option Nat
  | .accept clientFd => clientFd
  | _ => none

/-- `accept` returns a number that has a bit, and on which no handler is pending. -/
def freshAccept (s : Server) (a : Action) (s' : Server) : Prop :=
  running s a s' ∧ ∀ fd ∈ a.accepts, fd < fdSetSize ∧ ∀ h ∈ s.handlers, h.pending = true → h.fd ≠ fd

instance (s : Server) (a : Action) (s' : Server) : Decidable (running s a s') :=
  inferInstanceAs (Decidable (_ = true))

instance (s : Server) (a : Action) (s' : Server) : Decidable (freshAccept s a s') :=
  inferInstanceAs (Decidable (_ ∧ ∀ fd ∈ a.accepts, _))

/-- Everything one step of `client_communicate` can do. -/
inductive CommunicateStep (serverFd i : Nat) (sh : Shared) (h : Handler) :
    Shared → Handler → Prop where
  | test (hpc : h.pc = .test) :
      CommunicateStep serverFd i sh h sh
        { h with pc := if sh.isRunning then .recv else .lock true }
  | recv (hpc : h.pc = .recv) :
      CommunicateStep serverFd i sh h sh { h with pc := .receiving (sh.table.conn h.fd) }
  | received {conn : Option Nat} {chunk : List UInt8} (hpc : h.pc = .receiving conn) :
      CommunicateStep serverFd i sh h (sh.log i (.recv chunk) conn) { h with pc := .send chunk }
  | sawEnd {conn : Option Nat} (hpc : h.pc = .receiving conn) :
      CommunicateStep serverFd i sh h (sh.log i .sawEnd conn) { h with pc := .lock false }
  | sent {chunk : List UInt8} (hpc : h.pc = .send chunk) :
      CommunicateStep serverFd i sh h (sh.log i (.send (response chunk)) (sh.table.conn h.fd))
        { h with pc := .ended }
  | lock {down : Bool} (hpc : h.pc = .lock down) (hfree : sh.mtx = none) :
      CommunicateStep serverFd i sh h { sh with mtx := some (.handler i) }
        { h with pc := .clear down }
  | clear {down : Bool} (hpc : h.pc = .clear down) :
      CommunicateStep serverFd i sh h { sh with readFds := sh.readFds.clr h.fd, overrun := sh.overrun || beyond h.fd }
        { h with pc := .close down }
  | close {down : Bool} (hpc : h.pc = .close down) :
      CommunicateStep serverFd i sh h
        { sh.log i .close (sh.table.conn h.fd) with table := sh.table.close h.fd }
        { h with pc := .erase down }
  | erase {down : Bool} (hpc : h.pc = .erase down) :
      CommunicateStep serverFd i sh h { sh with clientFds := sh.clientFds.erase h.fd }
        { h with pc := if down then .unlock else .update }
  | update (hpc : h.pc = .update) :
      CommunicateStep serverFd i sh h { sh with maxFd := maxOf serverFd sh.clientFds }
        { h with pc := .unlock }
  | unlock (hpc : h.pc = .unlock) :
      CommunicateStep serverFd i sh h { sh with mtx := none } { h with pc := .ended }

variable {serverFd i : Nat} {s s' : Server} {sh sh' : Shared} {h h' : Handler}

theorem communicate_inv {io : Io} (hs : communicate serverFd i sh h io = some (sh', h')) :
    CommunicateStep serverFd i sh h sh' h' := by
  unfold communicate at hs
  split at hs
  · cases hs
    exact .test ‹_›
  · cases hs
    exact .recv ‹_›
  · split at hs
    · split at hs
      · cases hs
        exact .received ‹_›
      · cases hs
    · cases hs
      exact .sawEnd ‹_›
  · cases hs
    exact .sent ‹_›
  · split at hs
    · cases hs
      exact .lock ‹_› ‹_›
    · cases hs
  · cases hs
    exact .clear ‹_›
  · cases hs
    exact .close ‹_›
  · cases hs
    exact .erase ‹_›
  · cases hs
    exact .update ‹_›
  · cases hs
    exact .unlock ‹_›
  · cases hs

/-! ## The invariant, thread by thread -/

/-- The program points that hold `mtx`. -/
def HandlerPc.holds : HandlerPc → Bool
  | .clear _ | .close _ | .erase _ | .update | .unlock => true
  | _ => false

/-- The branch for the shutdown. -/
def HandlerPc.down : HandlerPc → Bool
  | .lock down | .clear down | .close down | .erase down => down
  | _ => false

structure SharedInv (sh : Shared) : Prop extends Undisturbed sh where
  bounded : ∀ c ∈ sh.joined, c < sh.table.next
  /-- A connection that was closed is not open again. -/
  gone : ∀ c, 0 < closes sh.ops c → Gone sh.table c

structure HandlerInv (sh : Shared) (i : Nat) (h : Handler) : Prop where
  up : h.pc.down = false
  holds : h.pc.holds = true → sh.mtx = some (.handler i)
  /-- Its call of `recv` is on what its number refers to, if anything. -/
  receiving : ∀ conn, h.pc = .receiving conn → ∀ c, sh.table.conn h.fd = some c → conn = some c
  /-- It has seen the end of the connection that its number refers to. -/
  closing : h.closing = true → ∀ c, sh.table.conn h.fd = some c →
    (⟨i, .sawEnd, some c⟩ : Op) ∈ sh.ops
  /-- No client under the number has joined since the handler closed it. -/
  erasing : h.pc = .erase false → ∀ c ∈ sh.joined, sh.table.conn h.fd = some c → Ended sh.ops c

def MainInv (sh : Shared) : MainPc → Prop
  | .copy | .unlock => sh.mtx = some .main
  | .newLock fd c => fd < fdSetSize ∧ c < sh.table.next ∧ (¬ Ended sh.ops c → sh.table.conn fd = some c)
  | .newSet fd c =>
    sh.mtx = some .main ∧ fd < fdSetSize ∧ c < sh.table.next ∧ (¬ Ended sh.ops c → sh.table.conn fd = some c)
  | .newInsert fd c =>
    sh.mtx = some .main ∧ c < sh.table.next ∧
      (¬ Ended sh.ops c → sh.table.conn fd = some c ∧ fd ∈ sh.readFds.bits)
  | .newUpdate fd c | .newUnlock fd c =>
    sh.mtx = some .main ∧ c < sh.table.next ∧ (¬ Ended sh.ops c → Registered sh fd c)
  | _ => True

/-- What a step of the handler `i` guarantees to the other threads. -/
structure Guarantee (i : Nat) (sh sh' : Shared) : Prop where
  joined : sh'.joined = sh.joined
  next : sh'.table.next = sh.table.next
  mtx : ∀ t, t ≠ .handler i → sh.mtx = some t → sh'.mtx = some t
  ops : sh.ops ⊆ sh'.ops
  /-- It opens nothing. -/
  closes : ∀ fd c, sh'.table.conn fd = some c → sh.table.conn fd = some c
  /-- What it closes has ended. -/
  stays : ∀ fd c, sh.table.conn fd = some c → ¬ Ended sh'.ops c → sh'.table.conn fd = some c
  /-- It registers and unregisters nothing while somebody else holds `mtx`. -/
  sets : ∀ t, t ≠ .handler i → sh.mtx = some t →
    sh'.readFds = sh.readFds ∧ sh'.clientFds = sh.clientFds

theorem Ended.mono {ops ops' : List Op} {c : Nat} (he : Ended ops c) (hsub : ops ⊆ ops') :
    Ended ops' c := by
  obtain ⟨j, hj⟩ := he
  exact ⟨j, hsub hj⟩

/-- The part of a handler that does not move. -/
theorem HandlerInv.other {j : Nat} (hi : HandlerInv sh j h) (hg : Guarantee i sh sh') (hij : i ≠ j) :
    HandlerInv sh' j h where
  up := hi.up
  holds hp := by
    apply hg.mtx _ _ (hi.holds hp)
    simp [Ne.symm hij]
  receiving conn hp c hc := hi.receiving conn hp c (hg.closes _ _ hc)
  closing hp c hc := hg.ops (hi.closing hp c (hg.closes _ _ hc))
  erasing hp c hm hc := by
    rw [hg.joined] at hm
    exact (hi.erasing hp c hm (hg.closes _ _ hc)).mono hg.ops

/-- The part of the main thread, when a handler moves. -/
theorem MainInv.other {m : MainPc} (hm : MainInv sh m) (hg : Guarantee i sh sh') :
    MainInv sh' m := by
  have hmtx : sh.mtx = some .main → sh'.mtx = some .main := hg.mtx .main (by simp)
  have hsets : sh.mtx = some .main → sh'.readFds = sh.readFds ∧ sh'.clientFds = sh.clientFds :=
    hg.sets .main (by simp)
  have hended : ∀ {c}, ¬ Ended sh'.ops c → ¬ Ended sh.ops c := fun hne he => hne (he.mono hg.ops)
  cases m with
  | copy | unlock => exact hmtx hm
  | newLock fd c =>
    obtain ⟨hbit, hb, ho⟩ := hm
    exact ⟨hbit, hg.next ▸ hb, fun hne => hg.stays _ _ (ho (hended hne)) hne⟩
  | newSet fd c =>
    obtain ⟨hl, hbit, hb, ho⟩ := hm
    exact ⟨hmtx hl, hbit, hg.next ▸ hb, fun hne => hg.stays _ _ (ho (hended hne)) hne⟩
  | newInsert fd c =>
    obtain ⟨hl, hb, ho⟩ := hm
    refine ⟨hmtx hl, hg.next ▸ hb, fun hne => ?_⟩
    obtain ⟨hc, hr⟩ := ho (hended hne)
    exact ⟨hg.stays _ _ hc hne, (hsets hl).1 ▸ hr⟩
  | newUpdate fd c | newUnlock fd c =>
    obtain ⟨hl, hb, ho⟩ := hm
    refine ⟨hmtx hl, hg.next ▸ hb, fun hne => ?_⟩
    obtain ⟨hc, hr, hf⟩ := ho (hended hne)
    exact ⟨hg.stays _ _ hc hne, (hsets hl).1 ▸ hr, (hsets hl).2 ▸ hf⟩
  | top | lock | select | scan | accept | left => trivial

/-! ## One step of a handler -/

theorem closes_append (ops : List Op) (o : Op) (c : Nat) :
    closes (ops ++ [o]) c = closes ops c + if o.call = .close ∧ o.hit = some c then 1 else 0 := by
  simp [closes, List.countP_append, List.countP_cons]

theorem mem_log {o : Op} {call : Call} {hit : Option Nat} :
    o ∈ (sh.log i call hit).ops ↔ o ∈ sh.ops ∨ o = ⟨i, call, hit⟩ := by
  simp [Shared.log]

theorem closes_log {call : Call} (hcall : call ≠ .close) (hit : Option Nat) (c : Nat) :
    closes (sh.log i call hit).ops c = closes sh.ops c := by
  unfold Shared.log
  rw [closes_append]
  simp [hcall]

/-- A call other than `close`. -/
theorem shared_log (hs : SharedInv sh) {call : Call} (hcall : call ≠ .close) (hit : Option Nat) :
    SharedInv (sh.log i call hit) where
  kept c hc hne := by
    apply hs.kept c hc
    intro he
    exact hne (he.mono fun o ho => mem_log.mpr (Or.inl ho))
  once c := by
    rw [closes_log hcall]
    exact hs.once c
  own j c hm := by
    rcases mem_log.mp hm with hm | he
    · exact mem_log.mpr (Or.inl (hs.own j c hm))
    · obtain ⟨-, hclose, -⟩ := Op.mk.inj he
      exact absurd hclose.symm hcall
  bounded := hs.bounded
  gone c hc := by
    rw [closes_log hcall] at hc
    exact hs.gone c hc

theorem guarantee_log (call : Call) (hit : Option Nat) : Guarantee i sh (sh.log i call hit) where
  joined := rfl
  next := rfl
  mtx _ _ hm := hm
  ops _ ho := mem_log.mpr (Or.inl ho)
  closes _ _ hc := hc
  stays _ _ hc _ := hc
  sets _ _ _ := ⟨rfl, rfl⟩

theorem guarantee_refl : Guarantee i sh sh :=
  ⟨rfl, rfl, fun _ _ hm => hm, fun _ ho => ho, fun _ _ hc => hc, fun _ _ hc _ => hc,
    fun _ _ _ => ⟨rfl, rfl⟩⟩

/-- A step that only takes or releases `mtx`, or changes `max_fd`. -/
theorem guarantee_mtx {m : Option Thread} {n : Nat}
    (hm : ∀ t, t ≠ .handler i → sh.mtx = some t → m = some t) :
    Guarantee i sh { sh with mtx := m, maxFd := n } :=
  ⟨rfl, rfl, hm, fun _ ho => ho, fun _ _ hc => hc, fun _ _ hc _ => hc, fun _ _ _ => ⟨rfl, rfl⟩⟩

theorem shared_mtx (hs : SharedInv sh) (m : Option Thread) (n : Nat) :
    SharedInv { sh with mtx := m, maxFd := n } :=
  ⟨⟨hs.kept, hs.once, hs.own⟩, hs.bounded, hs.gone⟩

/-- The mutex is held by the handler itself. -/
theorem other_excluded {t : Thread} (hl : sh.mtx = some (.handler i)) (ht : t ≠ .handler i) :
    sh.mtx ≠ some t := by
  rw [hl, ne_eq, Option.some.injEq]
  exact ht.symm

/-- A step under `mtx` that only changes the sets. -/
theorem guarantee_sets (hl : sh.mtx = some (.handler i)) {rs : FdSet} {spilt : Bool} {cs : Finset Nat} :
    Guarantee i sh { sh with readFds := rs, overrun := spilt, clientFds := cs } :=
  ⟨rfl, rfl, fun _ _ hm => hm, fun _ ho => ho, fun _ _ hc => hc, fun _ _ hc _ => hc,
    fun _ ht hm => absurd hm (other_excluded hl ht)⟩

theorem guarantee_close {fd : Nat}
    (hend : ∀ c, sh.table.conn fd = some c → (⟨i, .sawEnd, some c⟩ : Op) ∈ sh.ops) :
    Guarantee i sh { sh.log i .close (sh.table.conn fd) with table := sh.table.close fd } where
  joined := rfl
  next := rfl
  mtx _ _ hm := hm
  ops _ ho := mem_log.mpr (Or.inl ho)
  closes _ _ hc := (close_eq_some.mp hc).2
  stays f c hc hne := by
    have hf : f ≠ fd := by
      rintro rfl
      exact hne ⟨i, mem_log.mpr (Or.inl (hend c hc))⟩
    exact (close_of_ne hf).trans hc
  sets _ _ _ := ⟨rfl, rfl⟩

/-- A handler that is neither in `recv` nor about to unregister its number. -/
theorem HandlerInv.passive (hup : h.pc.down = false)
    (hholds : h.pc.holds = true → sh.mtx = some (.handler i))
    (hreceiving : ∀ conn, h.pc ≠ .receiving conn) (hclosing : h.closing = false)
    (herasing : h.pc ≠ .erase false) : HandlerInv sh i h where
  up := hup
  holds := hholds
  receiving conn hp := absurd hp (hreceiving conn)
  closing hp := absurd (hclosing.symm.trans hp) Bool.false_ne_true
  erasing hp := absurd hp herasing

/-- `FD_CLR` or `erase` on a number under which no client lives that has to stay. -/
theorem shared_drop (hs : SharedInv sh) {fd : Nat}
    (hfd : ∀ c ∈ sh.joined, sh.table.conn fd = some c → Ended sh.ops c) {rs : FdSet} {spilt : Bool}
    {cs : Finset Nat} (hrs : ∀ f ∈ sh.readFds.bits, f ≠ fd → f ∈ rs.bits)
    (hcs : ∀ f ∈ sh.clientFds, f ≠ fd → f ∈ cs) :
    SharedInv { sh with readFds := rs, overrun := spilt, clientFds := cs } := by
  refine ⟨⟨fun c hc hne => ?_, hs.once, hs.own⟩, hs.bounded, hs.gone⟩
  obtain ⟨f, hopen, hr, hf⟩ := hs.kept c hc hne
  have hff : f ≠ fd := by
    rintro rfl
    exact hne (hfd c hc hopen)
  exact ⟨f, hopen, hrs f hr hff, hcs f hf hff⟩

/-- `close` on a number, by a handler that has seen the end of what it refers to. -/
theorem shared_close (hs : SharedInv sh) {fd : Nat}
    (hend : ∀ c, sh.table.conn fd = some c → (⟨i, .sawEnd, some c⟩ : Op) ∈ sh.ops) :
    SharedInv { sh.log i .close (sh.table.conn fd) with table := sh.table.close fd } where
  kept c hc hne := by
    have hne' : ¬ Ended sh.ops c := fun he => hne (he.mono fun o ho => mem_log.mpr (Or.inl ho))
    obtain ⟨f, hopen, hr, hf⟩ := hs.kept c hc hne'
    have hff : f ≠ fd := by
      rintro rfl
      exact hne' ⟨i, hend c hopen⟩
    exact ⟨f, (close_of_ne hff).trans hopen, hr, hf⟩
  once c := by
    show closes (sh.ops ++ [⟨i, .close, sh.table.conn fd⟩]) c ≤ 1
    rw [closes_append]
    split
    · rename_i hc
      -- it is open, so it has not been closed before
      have hzero : ¬ 0 < closes sh.ops c := fun hpos => (hs.gone c hpos).2 fd hc.2
      omega
    · exact hs.once c
  own j c hm := by
    rcases mem_log.mp hm with hm | he
    · exact mem_log.mpr (Or.inl (hs.own j c hm))
    · obtain ⟨rfl, -, hc⟩ := Op.mk.inj he
      exact mem_log.mpr (Or.inl (hend c hc.symm))
  bounded := hs.bounded
  gone c hc := by
    change 0 < closes (sh.ops ++ [⟨i, .close, sh.table.conn fd⟩]) c at hc
    rw [closes_append] at hc
    split at hc
    · rename_i hopen
      exact gone_of_close hopen.2
    · exact gone_close (hs.gone c hc) fd

/-- **One step of a handler** keeps the shared part and its own, and guarantees what the others
    need. -/
theorem handler_step (hs : SharedInv sh) (hrun : sh.isRunning = true) (hi : HandlerInv sh i h)
    (hc : CommunicateStep serverFd i sh h sh' h') :
    SharedInv sh' ∧ HandlerInv sh' i h' ∧ Guarantee i sh sh' := by
  obtain ⟨hup, hholds, hreceiving, hclosing, herasing⟩ := hi
  cases hc with
  | test hpc =>
    refine ⟨hs, ?_, guarantee_refl⟩
    rw [hrun]
    exact .passive rfl (fun hp => (nomatch hp)) (by simp) rfl (by simp)
  | recv hpc =>
    refine ⟨hs, ⟨rfl, fun hp => (nomatch hp), fun conn hp c hc => ?_, fun hp => (nomatch hp),
      fun hp => (nomatch hp)⟩, guarantee_refl⟩
    cases hp
    exact hc
  | received hpc =>
    exact ⟨shared_log hs (by simp) _, .passive rfl (fun hp => (nomatch hp)) (by simp) rfl (by simp), guarantee_log _ _⟩
  | sawEnd hpc =>
    refine ⟨shared_log hs (by simp) _, ⟨rfl, fun hp => (nomatch hp), fun _ hp => (nomatch hp),
      fun _ c hc => ?_, fun hp => (nomatch hp)⟩, guarantee_log _ _⟩
    apply mem_log.mpr
    exact Or.inr (by rw [hreceiving _ hpc c hc])
  | sent hpc =>
    exact ⟨shared_log hs (by simp) _, .passive rfl (fun hp => (nomatch hp)) (by simp) rfl (by simp), guarantee_log _ _⟩
  | @lock down hpc hfree =>
    rw [hpc] at hup
    refine ⟨shared_mtx hs _ _, ⟨hup, fun _ => rfl, fun _ hp => (nomatch hp),
      fun _ => hclosing (by simp [Handler.closing, hpc]), fun hp => (nomatch hp)⟩,
      guarantee_mtx fun t _ hm => ?_⟩
    rw [hfree] at hm
    cases hm
  | @clear down hpc =>
    rw [hpc] at hup
    have hl := hholds (by rw [hpc]; rfl)
    have hend := hclosing (by simp [Handler.closing, hpc])
    refine ⟨?_, ⟨hup, fun _ => hl, fun _ hp => (nomatch hp), fun _ => hend, fun hp => (nomatch hp)⟩,
      guarantee_sets hl⟩
    exact shared_drop hs (fun c _ hc => ⟨i, hend c hc⟩)
      (fun f hf hne => Finset.mem_erase.mpr ⟨hne, hf⟩) (fun _ hf _ => hf)
  | @close down hpc =>
    rw [hpc] at hup
    have hl := hholds (by rw [hpc]; rfl)
    have hend := hclosing (by simp [Handler.closing, hpc])
    refine ⟨shared_close hs hend, ⟨hup, fun _ => hl, fun _ hp => (nomatch hp), fun hp => (nomatch hp),
      fun _ c _ hc => ?_⟩, guarantee_close hend⟩
    simp at hc
  | @erase down hpc =>
    rw [hpc] at hup
    cases down with
    | true => cases hup
    | false =>
      have hl := hholds (by rw [hpc]; rfl)
      refine ⟨?_, .passive rfl (fun _ => hl) (by simp) rfl (by simp), guarantee_sets hl⟩
      exact shared_drop hs (herasing hpc) (fun _ hf _ => hf)
        (fun f hf hne => Finset.mem_erase.mpr ⟨hne, hf⟩)
  | update hpc =>
    have hl := hholds (by rw [hpc]; rfl)
    exact ⟨shared_mtx hs _ _, .passive rfl (fun _ => hl) (by simp) rfl (by simp),
      guarantee_mtx fun _ _ hm => hm⟩
  | unlock hpc =>
    have hl := hholds (by rw [hpc]; rfl)
    refine ⟨shared_mtx hs _ _, .passive rfl (fun hp => (nomatch hp)) (by simp) rfl (by simp),
      guarantee_mtx fun t ht hm => ?_⟩
    exact absurd hm (other_excluded hl ht)

/-! ## The server -/

/-- Everything one step can do. -/
inductive Moves (serverFd : Nat) (s : Server) : Action → Server → Prop where
  | top (hm : s.main = .top) :
      Moves serverFd s .main { s with main := if s.shared.isRunning then .lock else .left }
  | lock (hm : s.main = .lock) (hfree : s.shared.mtx = none) :
      Moves serverFd s .main { s with shared := { s.shared with mtx := some .main }, main := .copy }
  | copy (hm : s.main = .copy) :
      Moves serverFd s .main
        { s with tempFds := s.shared.readFds.bits, curMaxFd := s.shared.maxFd, main := .unlock }
  | unlock (hm : s.main = .unlock) :
      Moves serverFd s .main { s with shared := { s.shared with mtx := none }, main := .select }
  | selectFailed (hm : s.main = .select) :
      Moves serverFd s (.select none) { s with main := if s.shared.isRunning then .top else .left }
  | selected {ready : Finset Nat} (hm : s.main = .select) (hsub : ready ⊆ s.tempFds) :
      Moves serverFd s (.select (some ready)) { s with tempFds := ready, main := .scan 0 }
  | scanned {fd : Nat} (hm : s.main = .scan fd) : Moves serverFd s .main { s with main := .top }
  | visit {fd : Nat} {bit : Bool} (hm : s.main = .scan fd) (hfd : fd < fdSetSize) :
      Moves serverFd s .main (s.visit serverFd fd bit)
  | scanBehind {fd : Nat} {bit : Bool} (hm : s.main = .scan fd) (hin : fd ≤ s.curMaxFd) (hbeyond : fdSetSize ≤ fd) :
      Moves serverFd s (.scanBehind bit)
        ({ s with shared := { s.shared with overrun := true } }.visit serverFd fd bit)
  | spill {flag : Bool} (hover : s.shared.overrun = true) :
      Moves serverFd s (.spill flag) { s with shared := { s.shared with isRunning := flag } }
  | acceptFailed (hm : s.main = .accept) :
      Moves serverFd s (.accept none) { s with main := .scan (serverFd + 1) }
  | accepted {fd : Nat} (hm : s.main = .accept) (hfree : s.shared.table.conn fd = none) :
      Moves serverFd s (.accept (some fd))
        { s with shared := { s.shared with table := s.shared.table.accept fd }
                 main := .newLock fd s.shared.table.next }
  | newLock {fd c : Nat} (hm : s.main = .newLock fd c) (hfree : s.shared.mtx = none) :
      Moves serverFd s .main
        { s with shared := { s.shared with mtx := some .main }, main := .newSet fd c }
  | newSet {fd c : Nat} (hm : s.main = .newSet fd c) :
      Moves serverFd s .main
        { s with shared := { s.shared with readFds := s.shared.readFds.set fd
                                           overrun := s.shared.overrun || beyond fd }
                 main := .newInsert fd c }
  | newInsert {fd c : Nat} (hm : s.main = .newInsert fd c) :
      Moves serverFd s .main
        { s with shared := { s.shared with clientFds := insert fd s.shared.clientFds }
                 main := .newUpdate fd c }
  | newUpdate {fd c : Nat} (hm : s.main = .newUpdate fd c) :
      Moves serverFd s .main
        { s with shared := { s.shared with maxFd := maxOf serverFd s.shared.clientFds }
                 main := .newUnlock fd c }
  | newUnlock {fd c : Nat} (hm : s.main = .newUnlock fd c) :
      Moves serverFd s .main
        { s with shared := { s.shared with mtx := none, joined := s.shared.joined ++ [c] }
                 main := .scan (serverFd + 1) }
  | handler {i : Nat} {io : Io} {h h' : Handler} {sh' : Shared} (hh : s.handlers[i]? = some h)
      (hc : CommunicateStep serverFd i s.shared h sh' h') :
      Moves serverFd s (.handler i io) { s with shared := sh', handlers := s.handlers.set i h' }
  | stop : Moves serverFd s .stop { s with shared := { s.shared with isRunning := false } }

theorem mainStep_inv (hs : mainStep serverFd s = some s') : Moves serverFd s .main s' := by
  unfold mainStep at hs
  split at hs
  · cases hs
    exact .top ‹_›
  · split at hs
    · cases hs
      exact .lock ‹_› ‹_›
    · cases hs
  · cases hs
    exact .copy ‹_›
  · cases hs
    exact .unlock ‹_›
  · rename_i fd hm
    split at hs
    · cases hs
      exact .scanned hm
    · split at hs
      · cases hs
      · rename_i hbeyond
        cases hs
        exact .visit hm (beyond_eq_false.mp (Bool.eq_false_of_not_eq_true hbeyond))
  · split at hs
    · cases hs
      exact .newLock ‹_› ‹_›
    · cases hs
  · cases hs
    exact .newSet ‹_›
  · cases hs
    exact .newInsert ‹_›
  · cases hs
    exact .newUpdate ‹_›
  · cases hs
    exact .newUnlock ‹_›
  · cases hs
  · cases hs
  · cases hs

theorem step_inv {a : Action} (hs : step serverFd s a = some s') : Moves serverFd s a s' := by
  cases a with
  | main => exact mainStep_inv hs
  | scanBehind bit =>
    simp only [step] at hs
    split at hs
    · rename_i hm
      split at hs
      · rename_i hbehind
        cases hs
        exact .scanBehind hm hbehind.1 (beyond_eq_true.mp hbehind.2)
      · cases hs
    · cases hs
  | spill flag =>
    simp only [step] at hs
    split at hs
    · cases hs
      exact .spill ‹_›
    · cases hs
  | select ready =>
    simp only [step] at hs
    split at hs
    · cases hs
      exact .selectFailed ‹_›
    · split at hs
      · cases hs
        exact .selected ‹_› ‹_›
      · cases hs
    · cases hs
  | accept clientFd =>
    simp only [step] at hs
    split at hs
    · cases hs
      exact .acceptFailed ‹_›
    · split at hs
      · rename_i hfree
        cases hs
        exact .accepted ‹_› hfree.2
      · cases hs
    · cases hs
  | handler i io =>
    simp only [step] at hs
    split at hs
    · cases hs
    · rename_i hh
      obtain ⟨⟨sh', h'⟩, hc, he⟩ := Option.map_eq_some_iff.mp hs
      cases he
      exact .handler hh (communicate_inv hc)
  | stop =>
    cases hs
    exact .stop

structure Inv (s : Server) : Prop where
  running : s.shared.isRunning = true
  shared : SharedInv s.shared
  main : MainInv s.shared s.main
  handlers : ∀ i h, s.handlers[i]? = some h → HandlerInv s.shared i h

theorem pending_of_closing (hc : h.closing = true) : h.pending = true := by
  unfold Handler.pending
  split
  · rfl
  · exact hc

/-- The part of a handler, when the main thread moves. -/
theorem HandlerInv.main (hi : HandlerInv sh i h)
    (hmtx : sh.mtx = some (.handler i) → sh'.mtx = some (.handler i)) (hops : sh'.ops = sh.ops)
    (hpending : h.pending = true → sh'.table.conn h.fd = sh.table.conn h.fd)
    (hjoined : sh.mtx = some (.handler i) → ∀ c ∈ sh'.joined, sh'.table.conn h.fd = some c →
      c ∈ sh.joined ∧ sh.table.conn h.fd = some c) : HandlerInv sh' i h where
  up := hi.up
  holds hp := hmtx (hi.holds hp)
  receiving conn hp c hc := by
    rw [hpending (by simp [Handler.pending, hp])] at hc
    exact hi.receiving conn hp c hc
  closing hp c hc := by
    rw [hpending (pending_of_closing hp)] at hc
    rw [hops]
    exact hi.closing hp c hc
  erasing hp c hm hc := by
    obtain ⟨hm', hc'⟩ := hjoined (hi.holds (by rw [hp]; rfl)) c hm hc
    rw [hops]
    exact hi.erasing hp c hm' hc'

/-- The main thread takes, holds or releases `mtx`, and may change the sets. -/
theorem HandlerInv.locked (hi : HandlerInv sh i h) (hm : sh.mtx ≠ some (.handler i))
    {m : Option Thread} {rs : FdSet} {spilt : Bool} {cs : Finset Nat} {n : Nat} :
    HandlerInv { sh with mtx := m, readFds := rs, overrun := spilt, clientFds := cs, maxFd := n } i h :=
  hi.main (fun he => absurd he hm) rfl (fun _ => rfl) fun he => absurd he hm

/-- The main thread moves on and touches nothing. -/
theorem Inv.idle (hi : Inv s) {m : MainPc} {temp : Finset Nat} {cur : Nat}
    (hm : MainInv s.shared m) : Inv { s with main := m, tempFds := temp, curMaxFd := cur } :=
  ⟨hi.running, hi.shared, hm, hi.handlers⟩

/-- A handler is started. -/
theorem inv_start (hi : Inv s) (fd : Nat) :
    Inv { s with handlers := s.handlers ++ [⟨fd, .test⟩], main := .scan (fd + 1) } := by
  refine ⟨hi.running, hi.shared, trivial, fun i h hh => ?_⟩
  rw [List.getElem?_append] at hh
  split at hh
  · exact hi.handlers i h hh
  · have he : h = ⟨fd, .test⟩ := List.mem_singleton.mp (List.mem_of_getElem? hh)
    rw [he]
    exact .passive rfl (fun hp => (nomatch hp)) (by simp) rfl (by simp)

/-- The loop looks at a number. -/
theorem inv_visit (hi : Inv s) (fd : Nat) (bit : Bool) : Inv (s.visit serverFd fd bit) := by
  unfold Server.visit
  split
  · exact hi.idle trivial
  · split
    · exact hi.idle trivial
    · exact inv_start hi fd

/-- The flag of an overrun matters to nobody. -/
theorem Inv.spoilt (hi : Inv s) {spilt : Bool} :
    Inv { s with shared := { s.shared with overrun := spilt } } := by
  have hs := hi.shared
  refine ⟨hi.running, ⟨⟨hs.kept, hs.once, hs.own⟩, hs.bounded, hs.gone⟩, ?_, fun i h hh => ?_⟩
  · have hm := hi.main
    cases hmain : s.main <;> simp only [hmain] at hm ⊢ <;> exact hm
  · obtain ⟨hup, hholds, hreceiving, hclosing, herasing⟩ := hi.handlers i h hh
    exact ⟨hup, hholds, hreceiving, hclosing, herasing⟩

/-- `accept` returns a number on which no handler is pending. -/
theorem inv_accept (hi : Inv s) {fd : Nat} (hfree : s.shared.table.conn fd = none) (hbit : fd < fdSetSize)
    (hfresh : ∀ h ∈ s.handlers, h.pending = true → h.fd ≠ fd) :
    Inv { s with shared := { s.shared with table := s.shared.table.accept fd }
                 main := .newLock fd s.shared.table.next } := by
  have hs := hi.shared
  refine ⟨hi.running, ⟨⟨fun c hc hne => ?_, hs.once, hs.own⟩, fun c hc => ?_, fun c hc => ?_⟩,
    ⟨hbit, by simp, fun _ => accept_self _ _⟩, fun i h hh => ?_⟩
  · obtain ⟨f, hopen, hr, hf⟩ := hs.kept c hc hne
    exact ⟨f, accept_open hfree hopen, hr, hf⟩
  · exact Nat.lt_succ_of_lt (hs.bounded c hc)
  · exact gone_accept (hs.gone c hc) fd
  · refine (hi.handlers i h hh).main id rfl (fun hp => ?_) fun _ c hc hopen => ⟨hc, ?_⟩
    · exact accept_of_ne (hfresh h (List.mem_of_getElem? hh) hp)
    · by_cases hf : h.fd = fd
      · -- the new connection has not joined
        rw [hf, accept_self, Option.some.injEq] at hopen
        have := hs.bounded c hc
        omega
      · exact (accept_of_ne hf).symm.trans hopen

/-- `new_client` returns. -/
theorem inv_join (hi : Inv s) {fd c : Nat} (hm : s.main = .newUnlock fd c) :
    Inv { s with shared := { s.shared with mtx := none, joined := s.shared.joined ++ [c] }
                 main := .scan (serverFd + 1) } := by
  have hs := hi.shared
  have hmain := hi.main
  rw [hm] at hmain
  obtain ⟨hl, hlt, hreg⟩ := hmain
  have hne : ∀ i, s.shared.mtx ≠ some (.handler i) := by simp [hl]
  refine ⟨hi.running, ⟨⟨fun d hd hend => ?_, hs.once, hs.own⟩, fun d hd => ?_, hs.gone⟩, trivial,
    fun i h hh => ?_⟩
  · rcases List.mem_append.mp hd with hd | hd
    · exact hs.kept d hd hend
    · rw [List.mem_singleton] at hd
      subst hd
      exact ⟨fd, hreg hend⟩
  · rcases List.mem_append.mp hd with hd | hd
    · exact hs.bounded d hd
    · rw [List.mem_singleton] at hd
      exact hd ▸ hlt
  · exact (hi.handlers i h hh).main (fun he => absurd he (hne i)) rfl (fun _ => rfl)
      fun he => absurd he (hne i)

/-- The main thread, at a point where it holds `mtx` or may take it, changes the sets. -/
theorem Inv.sets (hi : Inv s) (hl : s.shared.mtx = none ∨ s.shared.mtx = some .main)
    {m : Option Thread} {rs : FdSet} {spilt : Bool} {cs : Finset Nat} {n : Nat}
    (hrs : s.shared.readFds.bits ⊆ rs.bits) (hcs : s.shared.clientFds ⊆ cs) {p : MainPc}
    (hp : MainInv { s.shared with mtx := m, readFds := rs, overrun := spilt, clientFds := cs, maxFd := n } p) :
    Inv { s with shared := { s.shared with mtx := m, readFds := rs, overrun := spilt, clientFds := cs, maxFd := n }
                 main := p } := by
  have hs := hi.shared
  have hne : ∀ i, s.shared.mtx ≠ some (.handler i) := by
    intro i he
    rcases hl with hl | hl <;> simp [hl] at he
  refine ⟨hi.running, ⟨⟨fun c hc hend => ?_, hs.once, hs.own⟩, hs.bounded, hs.gone⟩, hp,
    fun i h hh => (hi.handlers i h hh).locked (hne i)⟩
  obtain ⟨f, hopen, hr, hf⟩ := hs.kept c hc hend
  exact ⟨f, hopen, hrs hr, hcs hf⟩

theorem inv_handler (hi : Inv s) (hh : s.handlers[i]? = some h)
    (hc : CommunicateStep serverFd i s.shared h sh' h') (hrun : sh'.isRunning = true) :
    Inv { s with shared := sh', handlers := s.handlers.set i h' } := by
  obtain ⟨hshared, hself, hg⟩ := handler_step hi.shared hi.running (hi.handlers i h hh) hc
  refine ⟨hrun, hshared, hi.main.other hg, fun j k hk => ?_⟩
  rw [List.getElem?_set] at hk
  split at hk
  · rename_i hij
    split at hk
    · cases hk
      exact hij ▸ hself
    · cases hk
  · rename_i hij
    exact (hi.handlers j k hk).other hg hij

/-- **One step** of any thread. -/
theorem inv_step {a : Action} (hi : Inv s) (hs : step serverFd s a = some s')
    (hok : freshAccept s a s') : Inv s' := by
  have hmain := hi.main
  cases step_inv hs with
  | top => exact hi.idle (by split <;> trivial)
  | lock _ hfree => exact hi.sets (Or.inl hfree) (fun _ h => h) (fun _ h => h) rfl
  | copy hm =>
    rw [hm] at hmain
    exact hi.idle hmain
  | unlock hm =>
    rw [hm] at hmain
    exact hi.sets (Or.inr hmain) (fun _ h => h) (fun _ h => h) trivial
  | selectFailed => exact hi.idle (by split <;> trivial)
  | selected => exact hi.idle trivial
  | scanned => exact hi.idle trivial
  | visit => exact inv_visit hi _ _
  | scanBehind => exact inv_visit hi.spoilt _ _
  | spill =>
    have hflag := hok.1
    simp only [SelectThread.running] at hflag
    rw [hflag, ← hi.running]
    exact hi
  | acceptFailed => exact hi.idle trivial
  | accepted _ hfree =>
    obtain ⟨hbit, hfresh⟩ := hok.2 _ rfl
    exact inv_accept hi hfree hbit hfresh
  | newLock hm hfree =>
    rw [hm] at hmain
    exact hi.sets (Or.inl hfree) (fun _ h => h) (fun _ h => h) ⟨rfl, hmain⟩
  | newSet hm =>
    rw [hm] at hmain
    obtain ⟨hl, hbit, hlt, hopen⟩ := hmain
    refine hi.sets (Or.inr hl) bits_subset_set (fun _ h => h) ⟨hl, hlt, fun hne => ?_⟩
    rw [set_bits hbit]
    exact ⟨hopen hne, Finset.mem_insert_self _ _⟩
  | newInsert hm =>
    rw [hm] at hmain
    obtain ⟨hl, hlt, hopen⟩ := hmain
    refine hi.sets (Or.inr hl) (fun _ h => h) (Finset.subset_insert _ _) ⟨hl, hlt, fun hne => ?_⟩
    exact ⟨(hopen hne).1, (hopen hne).2, Finset.mem_insert_self _ _⟩
  | newUpdate hm =>
    rw [hm] at hmain
    exact hi.sets (Or.inr hmain.1) (fun _ h => h) (fun _ h => h) hmain
  | newUnlock hm => exact inv_join hi hm
  | handler hh hc => exact inv_handler hi hh hc hok.1
  | stop => exact absurd hok.1 (by simp [running])

theorem inv_init (serverFd : Nat) : Inv (init serverFd) where
  running := rfl
  shared := ⟨⟨fun _ hc => (nomatch hc), fun _ => Nat.zero_le _, fun _ _ ho => (nomatch ho)⟩,
    fun _ hc => (nomatch hc), fun _ hc => absurd hc (Nat.lt_irrefl 0)⟩
  main := trivial
  handlers _ _ hh := nomatch hh

/-! ## No number without a bit -/

/-- The number that the main thread is about to register. -/
def MainPc.registers : MainPc → Option Nat
  | .newLock fd _ | .newSet fd _ | .newInsert fd _ => some fd
  | _ => none

/-- Every number that is used has a bit. -/
structure InBits (s : Server) : Prop where
  overrun : s.shared.overrun = false
  clients : ∀ fd ∈ s.shared.clientFds, fd < fdSetSize
  maxFd : s.shared.maxFd < fdSetSize
  cur : s.curMaxFd < fdSetSize
  registers : ∀ fd ∈ s.main.registers, fd < fdSetSize
  handlers : ∀ h ∈ s.handlers, h.fd < fdSetSize

theorem maxOf_lt (hserver : serverFd < fdSetSize) {clientFds : Finset Nat} (h : ∀ fd ∈ clientFds, fd < fdSetSize) :
    maxOf serverFd clientFds < fdSetSize := by
  unfold maxOf
  split
  · exact hserver
  · exact max_lt hserver ((Finset.sup_lt_iff (by decide)).mpr h)

/-- The main thread goes on, and may take or release `mtx`. -/
theorem InBits.goto (hb : InBits s) {m : MainPc} {t : Option Thread} {joined : List Nat} {temp : Finset Nat}
    (hm : m.registers = none ∨ m.registers = s.main.registers) :
    InBits { s with shared := { s.shared with mtx := t, joined := joined }, main := m, tempFds := temp } := by
  refine ⟨hb.overrun, hb.clients, hb.maxFd, hb.cur, fun fd hfd => ?_, hb.handlers⟩
  rcases hm with hm | hm
  · rw [show m.registers = none from hm] at hfd
    cases hfd
  · rw [show m.registers = _ from hm] at hfd
    exact hb.registers fd hfd

theorem inBits_communicate (hserver : serverFd < fdSetSize) (hb : InBits s) (hh : s.handlers[i]? = some h)
    (hc : CommunicateStep serverFd i s.shared h sh' h') :
    InBits { s with shared := sh', handlers := s.handlers.set i h' } := by
  have hfd : h.fd < fdSetSize := hb.handlers h (List.mem_of_getElem? hh)
  have hall : h'.fd = h.fd → ∀ k ∈ s.handlers.set i h', k.fd < fdSetSize := by
    intro he k hk
    rcases List.mem_or_eq_of_mem_set hk with hk | rfl
    · exact hb.handlers k hk
    · exact he ▸ hfd
  cases hc with
  | clear =>
    refine ⟨?_, hb.clients, hb.maxFd, hb.cur, hb.registers, hall rfl⟩
    simp [hb.overrun, hfd]
  | erase =>
    exact ⟨hb.overrun, fun f hf => hb.clients f (Finset.mem_of_mem_erase hf), hb.maxFd, hb.cur, hb.registers,
      hall rfl⟩
  | update => exact ⟨hb.overrun, hb.clients, maxOf_lt hserver hb.clients, hb.cur, hb.registers, hall rfl⟩
  | _ => exact ⟨hb.overrun, hb.clients, hb.maxFd, hb.cur, hb.registers, hall rfl⟩

theorem inBits_step {a : Action} (hserver : serverFd < fdSetSize) (hb : InBits s)
    (hs : step serverFd s a = some s') (hok : freshAccept s a s') : InBits s' := by
  cases step_inv hs with
  | top => exact hb.goto (Or.inl (by split <;> rfl))
  | lock => exact hb.goto (Or.inl rfl)
  | copy => exact ⟨hb.overrun, hb.clients, hb.maxFd, hb.maxFd, fun _ hf => (by cases hf), hb.handlers⟩
  | unlock => exact hb.goto (Or.inl rfl)
  | selectFailed => exact hb.goto (Or.inl (by split <;> rfl))
  | selected => exact hb.goto (Or.inl rfl)
  | scanned => exact hb.goto (Or.inl rfl)
  | visit _ hfd =>
    unfold Server.visit
    split
    · exact hb.goto (Or.inl rfl)
    · split
      · exact hb.goto (Or.inl rfl)
      · refine ⟨hb.overrun, hb.clients, hb.maxFd, hb.cur, fun _ hf => (by cases hf), fun h hh => ?_⟩
        rcases List.mem_append.mp hh with hh | hh
        · exact hb.handlers h hh
        · rw [List.mem_singleton.mp hh]
          exact hfd
  | scanBehind _ hin hbeyond =>
    have hcur := hb.cur
    omega
  | spill hover => simp [hb.overrun] at hover
  | acceptFailed => exact hb.goto (Or.inl rfl)
  | accepted =>
    refine ⟨hb.overrun, hb.clients, hb.maxFd, hb.cur, fun f hf => ?_, hb.handlers⟩
    cases hf
    exact (hok.2 _ rfl).1
  | newLock hm => exact hb.goto (Or.inr (by rw [hm]; rfl))
  | newSet hm =>
    have hfd := hb.registers _ (by rw [hm]; rfl)
    refine ⟨?_, hb.clients, hb.maxFd, hb.cur, fun f hf => ?_, hb.handlers⟩
    · simp [hb.overrun, hfd]
    · cases hf
      exact hfd
  | newInsert hm =>
    have hfd := hb.registers _ (by rw [hm]; rfl)
    refine ⟨hb.overrun, fun f hf => ?_, hb.maxFd, hb.cur, fun _ hf => (by cases hf), hb.handlers⟩
    rcases Finset.mem_insert.mp hf with rfl | hf
    · exact hfd
    · exact hb.clients f hf
  | newUpdate =>
    exact ⟨hb.overrun, hb.clients, maxOf_lt hserver hb.clients, hb.cur, fun _ hf => (by cases hf), hb.handlers⟩
  | newUnlock => exact hb.goto (Or.inl rfl)
  | handler hh hc => exact inBits_communicate hserver hb hh hc
  | stop => exact ⟨hb.overrun, hb.clients, hb.maxFd, hb.cur, hb.registers, hb.handlers⟩

theorem inBits_init (hserver : serverFd < fdSetSize) : InBits (init serverFd) :=
  ⟨beyond_eq_false.mpr hserver, fun _ hf => absurd hf (Finset.notMem_empty _), hserver, Nat.zero_lt_succ _,
    fun _ hf => (by cases hf), fun _ hh => absurd hh List.not_mem_nil⟩

/-- **The clients are left alone**, in every run, with any number of handlers, in which `accept`
    returns only numbers that have a bit, and none on which a handler is pending; and no other number is used. -/
theorem clients_undisturbed (hserver : serverFd < fdSetSize)
    (hr : Reach freshAccept (step serverFd) (init serverFd) s) :
    Undisturbed s.shared ∧ s.shared.overrun = false :=
  ⟨(hr.invariant (inv_init serverFd) fun _ _ _ hi hs hok => inv_step hi hs hok).shared.toUndisturbed,
    (hr.invariant (inBits_init hserver) fun _ _ _ hb hs hok => inBits_step hserver hb hs hok).overrun⟩

/-! ## Two runs, with number 3 for the server -/

/-- One turn of `select_loop` up to `select`, which reports the number. -/
def turn (fd : Nat) : List Action := List.replicate 4 .main ++ [.select (some {fd})]

/-- A client is accepted under number 4. -/
def acceptClient : List Action :=
  turn 3 ++ List.replicate 4 .main ++ .accept (some 4) :: List.replicate 6 .main

/-- A handler is started for number 4, sees the end of the connection, and waits for `mtx`. -/
def sawEnd (i : Nat) : List Action :=
  turn 4 ++ List.replicate 6 .main ++ List.replicate 3 (.handler i .ended)

/-- Client 0 leaves, its handler is done, and number 4 is given to client 1. -/
def orderly : List Action :=
  acceptClient ++ sawEnd 0 ++ List.replicate 6 (.handler 0 .ended) ++ acceptClient

theorem clients_undisturbed_reuse : ∃ s : Server,
    exec (guarded freshAccept (step 3)) (init 3) orderly = some s ∧ s.shared.joined = [0, 1] ∧
    s.shared.table.conn 4 = some 1 ∧ Undisturbed s.shared :=
  have hr : Reach freshAccept (step 3) (init 3)
      ((exec (guarded freshAccept (step 3)) (init 3) orderly).get rfl) := exec_guarded_get orderly rfl
  ⟨_, (Option.some_get _).symm, rfl, rfl, (clients_undisturbed (by decide) hr).1⟩

/-- Client 0 leaves, and two handlers see it; the first one is done, number 4 is given to client 1,
    and the second one closes it. -/
def twice : List Action :=
  acceptClient ++ sawEnd 0 ++ sawEnd 1 ++ List.replicate 6 (.handler 0 .ended) ++ acceptClient ++
    List.replicate 3 (.handler 1 .ended)

/-- A handler unregisters and closes a client that it has nothing to do with. -/
theorem closed_by_stranger : ∃ s, Reach running (step 3) (init 3) s ∧
    s.shared.ops = [⟨0, .sawEnd, some 0⟩, ⟨1, .sawEnd, some 0⟩, ⟨0, .close, some 0⟩,
      ⟨1, .close, some 1⟩] ∧ ¬ Undisturbed s.shared := by
  refine ⟨_, exec_guarded_get twice rfl, rfl, fun hu => ?_⟩
  have hown := hu.own 1 1 (by decide)
  exact absurd hown (by decide)

/-- A client comes under the number 1024, and `new_client` returns. -/
def joins1024 : List Action :=
  turn 3 ++ List.replicate 4 .main ++ .accept (some 1024) :: List.replicate 5 .main

/-- It is in `client_fds`, and there is no bit for it in `read_fds`. -/
theorem never_registered : ∃ s, Reach running (step 3) (init 3) s ∧ s.shared.joined = [0] ∧
    s.shared.clientFds = {1024} ∧ s.shared.readFds.bits = {3} ∧ ¬ Undisturbed s.shared := by
  refine ⟨_, exec_guarded_get joins1024 rfl, rfl, rfl, rfl, fun hu => ?_⟩
  obtain ⟨fd, -, hread, hclient⟩ := hu.kept 0 (List.mem_singleton_self 0) (by
    rintro ⟨i, hi⟩
    exact absurd hi List.not_mem_nil)
  have hfd : fd = 1024 := Finset.mem_singleton.mp hclient
  have hfd' : fd = 3 := Finset.mem_singleton.mp hread
  omega

end CppBackend.SelectThread
