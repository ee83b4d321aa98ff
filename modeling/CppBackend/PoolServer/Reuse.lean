import CppBackend.PoolServer.Steps

/-!
# Reuse of descriptor numbers

A task captures the number of its client.  The loop, or another task, may close the number before
the task acts on it, and `accept` may hand it out again: then the task acts on somebody else's
connection (`reply_to_stranger`).  As long as `accept` returns no number on which a message is
pending, every call of a task is applied to the connection that its message came from, or, when that
has been closed, to none (`calls_own`).
-/

set_option autoImplicit false

namespace CppBackend.PoolServer

open Library.Transition Library.Descriptors Library.Threads ThreadPool

/-- The task may still act on its number. -/
def Job.live (running : Bool) (j : Job) : Bool := !j.pc.isOver && (j.pc != .test || running)

/-- What a loop has read and not submitted yet. -/
def LoopPc.hand : LoopPc → Option (Nat × List Chunk)
  | .recv fd parts | .submit fd parts => some (fd, parts)
  | _ => none

/-- A message has been received under the number and is not dealt with: it is in the hands of a
loop, or its task, queued or running, may still act. -/
def Pending (w : World) (fd : Nat) : Prop :=
  (∃ j ∈ w.jobs, j.live w.host.isRunning = true ∧ j.fd = fd) ∨
    ∃ l ∈ w.loops, ∃ m ∈ l.hand, m.1 = fd ∧ m.2 ≠ []

instance (w : World) (fd : Nat) : Decidable (Pending w fd) := inferInstanceAs (Decidable (_ ∨ _))

/-- The number that `accept` returns in the step. -/
def Action.accepts : Action → Option Nat
  | .accept fd | .loop _ (.accept fd) => some fd
  | _ => none

/-- `accept` returns no number on which a message is pending. -/
def freshAccept (w : World) (a : Action) (_ : World) : Prop := ∀ fd ∈ a.accepts, ¬ Pending w fd

instance (w : World) (a : Action) (w' : World) : Decidable (freshAccept w a w') :=
  inferInstanceAs (Decidable (∀ fd ∈ a.accepts, ¬ Pending w fd))

/-- Each call of a task is applied to the connection that the task's message came from; once that is
    closed, to none. -/
def CallsOwn (w : World) : Prop :=
  ∀ a ∈ w.host.acts, ∃ j, w.jobs[a.task]? = some j ∧ j.parts ≠ [] ∧
    ∀ p ∈ j.parts, a.hit = some p.conn ∨ (a.hit = none ∧ Gone w.host.table p.conn)

/-! ## The invariant -/

/-- The number refers to the connection that all these chunks came from, or to nothing. -/
def Held (t : Table) (fd : Nat) (parts : List Chunk) : Prop := ∀ p ∈ parts, Own t fd p.conn

structure Owned (h : Host) (js : List Job) (ls : List LoopPc) : Prop where
  jobs : ∀ j ∈ js, j.live h.isRunning = true → Held h.table j.fd j.parts
  parts : ∀ j ∈ js, j.parts ≠ []
  hands : ∀ l ∈ ls, ∀ fd parts, l.hand = some (fd, parts) → Held h.table fd parts
  submits : ∀ l ∈ ls, ∀ fd parts, l = .submit fd parts → parts ≠ []
  acts : ∀ a ∈ h.acts, ∃ j, js[a.task]? = some j ∧
    ∀ p ∈ j.parts, a.hit = some p.conn ∨ (a.hit = none ∧ Gone h.table p.conn)

variable {v : Server} {w w' : World} {h h' : Host} {t : Table} {fd : Nat} {parts : List Chunk}
  {jobs : List Job} {loops : List LoopPc}

theorem held_accept {f : Nat} (hh : Held t fd parts) (hfree : t.conn f = none)
    (hne : parts ≠ [] → fd ≠ f) : Held (t.accept f) fd parts :=
  fun p hp => own_accept (hh p hp) hfree (hne (List.ne_nil_of_mem hp))

theorem held_close {f : Nat} (hh : Held t fd parts) : Held (t.close f) fd parts :=
  fun p hp => own_close (hh p hp)

/-- The number is handed out: nothing is pending on it. -/
theorem owned_accept (ho : Owned h jobs loops) {f : Nat} (hfree : h.table.conn f = none)
    (hj : ∀ j ∈ jobs, j.live h.isRunning = true → j.fd ≠ f)
    (hl : ∀ l ∈ loops, ∀ fd parts, l.hand = some (fd, parts) → parts ≠ [] → fd ≠ f) :
    Owned { h with table := h.table.accept f } jobs loops where
  jobs j hm hlive := held_accept (ho.jobs j hm hlive) hfree fun _ => hj j hm hlive
  parts := ho.parts
  hands l hm fd parts he := held_accept (ho.hands l hm fd parts he) hfree (hl l hm fd parts he)
  submits := ho.submits
  acts a hm := by
    obtain ⟨j, hj, hp⟩ := ho.acts a hm
    exact ⟨j, hj, fun p hpm => (hp p hpm).imp_right fun hg => ⟨hg.1, gone_accept hg.2 f⟩⟩

theorem owned_close (ho : Owned h jobs loops) (f : Nat) :
    Owned { h with table := h.table.close f } jobs loops where
  jobs j hm hlive := held_close (ho.jobs j hm hlive)
  parts := ho.parts
  hands l hm fd parts he := held_close (ho.hands l hm fd parts he)
  submits := ho.submits
  acts a hm := by
    obtain ⟨j, hj, hp⟩ := ho.acts a hm
    exact ⟨j, hj, fun p hpm => (hp p hpm).imp_right fun hg => ⟨hg.1, gone_close hg.2 f⟩⟩

/-- The loop `k` moves on, with a message in its hands that it may have. -/
theorem owned_loop (ho : Owned h jobs loops) {k : Nat} {l : LoopPc}
    (hh : ∀ fd parts, l.hand = some (fd, parts) → Held h.table fd parts)
    (hs : ∀ fd parts, l = .submit fd parts → parts ≠ []) : Owned h jobs (loops.set k l) where
  jobs := ho.jobs
  parts := ho.parts
  hands l' hm := by
    rcases List.mem_or_eq_of_mem_set hm with hm | rfl
    · exact ho.hands l' hm
    · exact hh
  submits l' hm := by
    rcases List.mem_or_eq_of_mem_set hm with hm | rfl
    · exact ho.submits l' hm
    · exact hs
  acts := ho.acts

/-- The loop `k` moves on, with nothing in its hands. -/
theorem owned_handsFree (ho : Owned h jobs loops) {k : Nat} {l : LoopPc} (hl : l.hand = none) :
    Owned h jobs (loops.set k l) := by
  refine owned_loop ho (fun fd parts he => ?_) (fun fd parts he => ?_)
  · rw [hl] at he
    cases he
  · rw [he] at hl
    cases hl

/-- The task `i` moves on in its lambda. -/
theorem owned_job (ho : Owned h jobs loops) {i : Nat} {j : Job} {pc : TaskPc}
    (hj : jobs[i]? = some j)
    (hlive : ({ j with pc := pc } : Job).live h.isRunning = true → j.live h.isRunning = true) :
    Owned h (jobs.set i { j with pc := pc }) loops where
  jobs j' hm := by
    rcases List.mem_or_eq_of_mem_set hm with hm | rfl
    · exact ho.jobs j' hm
    · exact fun hl => ho.jobs j (List.mem_of_getElem? hj) (hlive hl)
  parts j' hm := by
    rcases List.mem_or_eq_of_mem_set hm with hm | rfl
    · exact ho.parts j' hm
    · exact ho.parts j (List.mem_of_getElem? hj)
  hands := ho.hands
  submits := ho.submits
  acts a hm := by
    obtain ⟨j', hj', hp⟩ := ho.acts a hm
    by_cases hi : i = a.task
    · subst hi
      rw [hj, Option.some.injEq] at hj'
      subst hj'
      exact ⟨_, List.getElem?_set_self (List.getElem?_eq_some_iff.mp hj).1, hp⟩
    · exact ⟨j', by rw [List.getElem?_set_ne hi, hj'], hp⟩

/-- A call of the task `i`, which is live, on its number. -/
theorem owned_act (ho : Owned h jobs loops) {i : Nat} {j : Job} (hj : jobs[i]? = some j)
    (hlive : j.live h.isRunning = true) (call : Call) (data : List UInt8) :
    Owned { h with acts := h.acts ++ [⟨i, call, h.table.conn j.fd, data⟩] } jobs loops where
  jobs := ho.jobs
  parts := ho.parts
  hands := ho.hands
  submits := ho.submits
  acts a hm := by
    rcases List.mem_append.mp hm with hm | hm
    · exact ho.acts a hm
    · rw [List.mem_singleton.mp hm]
      exact ⟨j, hj, ho.jobs j (List.mem_of_getElem? hj) hlive⟩

theorem owned_mtx (ho : Owned h jobs loops) (b : Bool) : Owned { h with mtx := b } jobs loops :=
  ⟨ho.jobs, ho.parts, ho.hands, ho.submits, ho.acts⟩

theorem live_of {running : Bool} {j : Job} (ho : j.pc.isOver = false) (ht : j.pc ≠ .test) :
    j.live running = true := by
  simp [Job.live, ho, ht]

theorem owned_task (ho : Owned h jobs loops) {i : Nat} {j j' : Job} {ok : Bool} (hj : jobs[i]? = some j)
    (hs : TaskStep v i h j ok h' j') : Owned h' (jobs.set i j') loops := by
  cases hs with
  | pass hpc hr =>
    exact owned_job ho hj fun _ => by simp [Job.live, hpc, hr, TaskPc.isOver]
  | skip hpc =>
    exact owned_job ho hj fun hl => by simp [Job.live, TaskPc.isOver] at hl
  | lock hpc =>
    exact owned_mtx (owned_job ho hj fun _ => live_of (by rw [hpc]; rfl) (by simp [hpc])) true
  | send hpc =>
    have hlive : j.live h.isRunning = true := live_of (by rw [hpc]; rfl) (by simp [hpc])
    exact owned_job (owned_act ho hj hlive _ _) hj fun _ => hlive
  | closeLock hpc =>
    exact owned_mtx (owned_job ho hj fun _ => live_of (by rw [hpc]; rfl) (by simp [hpc])) true
  | close hpc =>
    have hlive : j.live h.isRunning = true := live_of (by rw [hpc]; rfl) (by simp [hpc])
    exact owned_job (owned_close (owned_act ho hj hlive _ _) j.fd) hj fun _ => hlive
  | unlock hpc =>
    exact owned_mtx (owned_job ho hj fun hl => by simp [Job.live, TaskPc.isOver] at hl) false

theorem owned_loop_step (ho : Owned h jobs loops) {k : Nat} {l l' : LoopPc} {e : Event}
    (hl : loops[k]? = some l) (hs : LoopStep v k h l e h' l')
    (hfresh : ∀ f, e = .accept f → (∀ j ∈ jobs, j.live h.isRunning = true → j.fd ≠ f) ∧
      ∀ l ∈ loops, ∀ fd parts, l.hand = some (fd, parts) → parts ≠ [] → fd ≠ f) :
    Owned h' jobs (loops.set k l') := by
  have hm := List.mem_of_getElem? hl
  cases hs with
  | @accept fd _ hfree =>
    obtain ⟨hj, hl⟩ := hfresh fd rfl
    exact owned_handsFree (owned_accept ho hfree hj hl) rfl
  | ready =>
    refine owned_loop ho ?_ (fun _ _ he => (nomatch he))
    rintro fd parts he p hp
    cases he
    cases hp
  | @data fd c parts chunk hc hlen =>
    have hheld : Held h.table fd (parts ++ [⟨c, chunk⟩]) := by
      intro p hp
      rcases List.mem_append.mp hp with hp | hp
      · exact ho.hands _ hm fd parts rfl p hp
      · rw [List.mem_singleton.mp hp]
        exact Or.inl hc
    have hlog : Owned { h with received := h.received ++ [⟨c, chunk⟩] } jobs loops :=
      ⟨ho.jobs, ho.parts, ho.hands, ho.submits, ho.acts⟩
    refine owned_loop hlog ?_ ?_
    · intro f q he
      split at he <;> cases he <;> exact hheld
    · intro f q he
      split at he <;> cases he
      simp
  | @drained fd parts _ hb =>
    refine owned_loop ho ?_ ?_
    · intro f q he
      cases he
      exact ho.hands _ hm fd parts rfl
    · rintro f q he rfl
      cases he
      cases hb
  | hangUp => exact owned_handsFree ho rfl
  | newLock => exact owned_handsFree (owned_mtx ho true) rfl
  | add => exact owned_handsFree ho rfl
  | refused => exact owned_handsFree (owned_close ho _) rfl
  | newUnlock => exact owned_handsFree (owned_mtx ho false) rfl
  | delete => exact owned_handsFree (owned_close ho _) rfl
  | ended => exact owned_handsFree ho rfl
  | closeLock => exact owned_handsFree (owned_mtx ho true) rfl
  | closeFd => exact owned_handsFree (owned_close ho _) rfl
  | closeUnlock => exact owned_handsFree (owned_mtx ho false) rfl

/-- The loop `k` submits the message in its hands. -/
theorem owned_call (ho : Owned h jobs loops) {k : Nat} (hl : loops[k]? = some (.submit fd parts)) :
    Owned h (jobs ++ [⟨fd, parts, entry v⟩]) (loops.set k .top) := by
  have hm := List.mem_of_getElem? hl
  refine owned_handsFree ⟨fun j hj => ?_, fun j hj => ?_, ho.hands, ho.submits, fun a ha => ?_⟩ rfl
  · rcases List.mem_append.mp hj with hj | hj
    · exact ho.jobs j hj
    · rw [List.mem_singleton.mp hj]
      exact fun _ => ho.hands _ hm fd parts rfl
  · rcases List.mem_append.mp hj with hj | hj
    · exact ho.parts j hj
    · rw [List.mem_singleton.mp hj]
      exact ho.submits _ hm fd parts rfl
  · obtain ⟨j, hj, hp⟩ := ho.acts a ha
    exact ⟨j, by rw [List.getElem?_append_left (List.getElem?_eq_some_iff.mp hj).1, hj], hp⟩

theorem not_pending {f : Nat} (hp : ¬ Pending w f) :
    (∀ j ∈ w.jobs, j.live w.host.isRunning = true → j.fd ≠ f) ∧
      ∀ l ∈ w.loops, ∀ fd parts, l.hand = some (fd, parts) → parts ≠ [] → fd ≠ f := by
  refine ⟨fun j hj hlive he => hp (Or.inl ⟨j, hj, hlive, he⟩), ?_⟩
  rintro l hl fd parts hh hne rfl
  exact hp (Or.inr ⟨l, hl, _, hh, rfl, hne⟩)

/-- **One step** in which `accept` returns no number with a pending message. -/
theorem owned_step {a : Action} (ho : Owned w.host w.jobs w.loops) (hs : step v w a = some w')
    (hok : freshAccept w a w') : Owned w'.host w'.jobs w'.loops := by
  cases step_inv hs with
  | worker => exact ho
  | finish => exact ho
  | task _ hj hts => exact owned_task ho hj hts
  | loop _ hl hls =>
    refine owned_loop_step ho hl hls ?_
    rintro f rfl
    exact not_pending (hok f rfl)
  | call _ hl => exact owned_call ho hl
  | submit => exact ho
  | @accept fd _ hfree =>
    obtain ⟨hj, hl⟩ := not_pending (hok fd rfl)
    exact owned_accept ho hfree hj hl
  | stop =>
    exact ⟨fun j hj hlive => ho.jobs j hj (by simp [Job.live] at hlive ⊢; tauto), ho.parts, ho.hands,
      ho.submits, ho.acts⟩
  | wait => exact ho

theorem owned_init : Owned (init v).host (init v).jobs (init v).loops where
  jobs _ hj := nomatch hj
  parts _ hj := nomatch hj
  hands l hl _ _ hh := by
    rw [List.eq_of_mem_replicate hl] at hh
    cases hh
  submits l hl _ _ he := by
    rw [List.eq_of_mem_replicate hl] at he
    cases he
  acts _ ha := nomatch ha

/-- **A task acts on the connection of its message**, in every run, of any of the servers, in
    which `accept` returns no number on which a message is pending. -/
theorem calls_own (hr : Serves freshAccept v w) : CallsOwn w := by
  have ho : Owned w.host w.jobs w.loops :=
    hr.invariant (I := fun w => Owned w.host w.jobs w.loops) owned_init
      fun _ _ _ ho hs hok => owned_step ho hs hok
  intro a ha
  obtain ⟨j, hj, hp⟩ := ho.acts a ha
  exact ⟨j, hj, ho.parts j (List.mem_of_getElem? hj), hp⟩

/-- A message on number 5 is answered; the client disconnects, and the next one gets number 5. -/
def answered : List Action :=
  [.accept 5, .loop 0 (.ready 5), .loop 0 (.data [65]), .call 0] ++
    List.replicate 6 (.submit 0 .go) ++ List.replicate 4 (.worker 0 .go) ++
    [.task 0 true, .loop 0 (.ready 5), .loop 0 (.noData false), .accept 5]

theorem calls_own_answered :
    CallsOwn ((exec (guarded freshAccept (step (multithreadReactor 1 1)))
      (init (multithreadReactor 1 1)) answered).get rfl) :=
  calls_own (exec_guarded_get answered rfl)

/-- A message on number 5 is submitted; the client disconnects, the next one gets number 5, and only
    then the worker executes the task. -/
def stolen (accept receive leave send : List Action) : List Action :=
  accept ++ [.loop 0 (.ready 5), .loop 0 (.data [65])] ++ receive ++
    .call 0 :: List.replicate 6 (.submit 0 .go) ++ [.loop 0 (.ready 5), .loop 0 (.noData false)] ++
    leave ++ accept ++ List.replicate 4 (.worker 0 .go) ++ send

def stolenReactor : List Action := stolen [.accept 5] [] [] [.task 0 true]

/-- `new_client`. -/
def newClient : List Action :=
  .loop 0 (.accept 5) :: List.replicate 3 (.loop 0 .go)

def stolenTpet : List Action :=
  stolen newClient [.loop 0 (.noData true)] (List.replicate 3 (.loop 0 .go))
    (List.replicate 3 (.task 0 true))

def stolenPoll : List Action :=
  stolen newClient [] (List.replicate 3 (.loop 0 .go)) (List.replicate 2 (.task 0 true))

theorem not_callsOwn {c d : Nat} {data chunk : List UInt8} {pc : TaskPc}
    (ha : w.host.acts = [⟨0, .send, some c, data⟩]) (hj : w.jobs = [⟨5, [⟨d, chunk⟩], pc⟩])
    (hne : c ≠ d) : ¬ CallsOwn w := by
  intro hc
  obtain ⟨j, hj', -, hp⟩ := hc ⟨0, .send, some c, data⟩ (by rw [ha]; exact List.mem_singleton_self _)
  rw [hj] at hj'
  cases hj'
  rcases hp ⟨d, chunk⟩ (List.mem_singleton_self _) with he | ⟨he, -⟩
  · exact hne (Option.some.inj he)
  · cases he

/-- Each of the three servers answers a message to a client that did not send it. -/
theorem reply_to_stranger :
    (∃ w, Serves anyStep (multithreadReactor 1 1) w ∧ ¬ CallsOwn w) ∧
    (∃ w, Serves anyStep (epollthreadTpet 1) w ∧ ¬ CallsOwn w) ∧
    ∃ w, Serves anyStep (pollthreadTp 1) w ∧ ¬ CallsOwn w :=
  ⟨⟨_, exec_reach_get stolenReactor rfl, not_callsOwn (c := 1) (d := 0) rfl rfl (by decide)⟩,
    ⟨_, exec_reach_get stolenTpet rfl, not_callsOwn (c := 1) (d := 0) rfl rfl (by decide)⟩,
    ⟨_, exec_reach_get stolenPoll rfl, not_callsOwn (c := 1) (d := 0) rfl rfl (by decide)⟩⟩

end CppBackend.PoolServer
