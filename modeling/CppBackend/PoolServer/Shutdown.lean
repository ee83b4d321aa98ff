import CppBackend.PoolServer.Tasks

/-!
# `stop()` and the tasks of the pool

`stop()` of `epollthread_tp.cpp` clears `is_running` and then waits for `task_count == 0`, while the
loop may go on receiving and submitting.  When the wait reads 0, no worker is inside a task (`idle_of_zero`):
each task has returned, or has yet to test `is_running` and will find it cleared.

* `quiescent` — once `stop()` has returned, no task sends or closes any more;
* `accepted_executed` — every task submitted before `stop()` began has returned by then, and its
  reply has been handed to `send` if it had passed its test of `is_running`; a task that had not is
  skipped (`reply_dropped`).

Both as far as the counter, an `int`, tells 0 from `2^32` (`late_send`).
-/

set_option autoImplicit false

namespace CppBackend.PoolServer

open Library.Transition Library.Descriptors Library.Threads Library.Tally ThreadPool

/-- Fewer than `2^32` tasks are outstanding when `stop()` tests `task_count`. -/
def narrow (w : World) (a : Action) (_ : World) : Prop := a = .wait → outstanding w.pool < 2 ^ 32

instance (w : World) (a : Action) (w' : World) : Decidable (narrow w a w') :=
  inferInstanceAs (Decidable (a = .wait → _))

/-- The wait has read 0. -/
def AtReturn (v : Server) (w : World) : Prop :=
  w.stop = .returned ∨ w.pool.threads[v.stopThread]? = some (.waiter .returned)

structure Stopping (v : Server) (w : World) : Prop where
  cleared : w.stop ≠ .idle → w.host.isRunning = false
  running : w.stop = .idle → w.host.isRunning = true
  waiter : w.stop = .idle → w.pool.threads[v.stopThread]? = some (.waiter .idle)

variable {v : Server} {w w' : World} {ok : World → Action → World → Prop}

/-! ## The call of `stop()` -/

theorem waiter_awake {x : Waiter} (hx : x ≠ .asleep) (e : Cv) : asleep e (.waiter x) = false := by
  cases e with
  | cv => rfl
  | endCv => cases x <;> first | rfl | exact absurd rfl hx

/-- The steps of the other threads do not make the wait return. -/
theorem waiter_origin {p p' : Pool} {i k : Nat} {t : Thread} (hi : p.threads[i]? = some t)
    (ht : role t ≠ .waiter) (hp : Pools p i p')
    (hk : p'.threads[k]? = some (.waiter .returned)) : p.threads[k]? = some (.waiter .returned) := by
  obtain ⟨ch, hs⟩ := hp
  obtain ⟨u, t', sig, hu, hst, hd⟩ := ThreadPool.step_inv hs
  rw [hi, Option.some.injEq] at hu
  subst hu
  have hrole : role t' = role t := by
    generalize p'.shared = sh' at hst
    cases hst <;> rfl
  rcases hd.origin hk with hk | ⟨e, u, -, hs, he⟩
  · rw [List.getElem?_set] at hk
    split at hk
    · split at hk <;> cases hk
      exact absurd hrole.symm ht
    · exact hk
  · rcases asleep_cases hs with ⟨_, rfl⟩ | ⟨_, rfl⟩ <;> cases he

/-- A step of the wait itself. -/
theorem waiter_moves {p p' : Pool} {i : Nat} {x : Waiter} (hi : p.threads[i]? = some (.waiter x))
    (hp : Pools p i p') (hk : p'.threads[i]? = some (.waiter .returned)) :
    x = .pred ∧ p.shared.taskCount = 0 ∧ p'.shared = p.shared := by
  obtain ⟨x', sig, hw, hd⟩ := hp.waiter hi
  rcases hd.origin hk with hk | ⟨e, u, -, hs, he⟩
  · rw [List.getElem?_set_self (List.getElem?_eq_some_iff.mp hi).1] at hk
    cases hk
    generalize p'.shared = sh' at hw
    cases hw with
    | zero hz => exact ⟨rfl, hz, rfl⟩
  · rcases asleep_cases hs with ⟨_, rfl⟩ | ⟨_, rfl⟩ <;> cases he

/-- The wait returns in a step of its own, which reads 0. -/
theorem returned_step {a : Action} (hm : Moves v w a w') (h : AtReturn v w') : AtReturn v w ∨
    (a = .wait ∧ w.stop = .waiting ∧ w.pool.shared.taskCount = 0 ∧ w'.pool.shared = w.pool.shared ∧
      w'.jobs = w.jobs ∧ w'.host = w.host) := by
  have hother : ∀ {i : Nat} {t : Thread} {p : Pool}, w.pool.threads[i]? = some t →
      role t ≠ .waiter → Pools w.pool i p →
      (w.stop = .returned ∨ p.threads[v.stopThread]? = some (.waiter .returned)) → AtReturn v w :=
    fun hi ht hp h => h.imp_right (waiter_origin hi ht hp)
  cases hm with
  | worker hi _ hp => exact Or.inl (hother hi (fun he => nomatch he) hp h)
  | finish hi _ hp => exact Or.inl (hother hi (fun he => nomatch he) hp h)
  | task => exact Or.inl h
  | loop => exact Or.inl h
  | call hk _ hp => exact Or.inl (hother hk (fun he => nomatch he) hp h)
  | submit hk hp => exact Or.inl (hother hk (fun he => nomatch he) hp h)
  | accept => exact Or.inl h
  | stop _ hi hp =>
    rcases h with h | h
    · cases h
    · cases (waiter_moves hi hp h).1
  | @wait x p hstop hi hp =>
    by_cases hx : x = .returned
    · exact Or.inl (Or.inr (hx ▸ hi))
    · rcases h with h | h
      · rw [if_neg hx] at h
        cases h
      · obtain ⟨_, hz, hsh⟩ := waiter_moves hi hp h
        exact Or.inr ⟨rfl, hstop, hz, hsh, rfl, rfl⟩

theorem stopping_step {a : Action} (hi : Stopping v w) (hm : Moves v w a w') : Stopping v w' := by
  have hstays : ∀ {i : Nat} {t : Thread} {p : Pool}, w.pool.threads[i]? = some t →
      t ≠ .waiter .idle → Pools w.pool i p → w.stop = .idle →
      p.threads[v.stopThread]? = some (.waiter .idle) := by
    intro i t p hi' ht hp hstop
    have hk := hi.waiter hstop
    refine hp.stays ?_ hk (waiter_awake (fun he => nomatch he))
    rintro rfl
    rw [hi', Option.some.injEq] at hk
    exact ht hk
  cases hm with
  | worker hi' _ hp => exact ⟨hi.cleared, hi.running, hstays hi' (fun he => nomatch he) hp⟩
  | finish hi' _ hp => exact ⟨hi.cleared, hi.running, hstays hi' (fun he => nomatch he) hp⟩
  | task _ _ hs =>
    exact ⟨fun h => (task_running hs).trans (hi.cleared h), fun h => (task_running hs).trans (hi.running h),
      hi.waiter⟩
  | loop _ _ hs =>
    exact ⟨fun h => (loop_running hs).1.trans (hi.cleared h),
      fun h => (loop_running hs).1.trans (hi.running h), hi.waiter⟩
  | call hk _ hp => exact ⟨hi.cleared, hi.running, hstays hk (fun he => nomatch he) hp⟩
  | submit hk hp => exact ⟨hi.cleared, hi.running, hstays hk (fun he => nomatch he) hp⟩
  | accept => exact ⟨hi.cleared, hi.running, hi.waiter⟩
  | stop => exact ⟨fun _ => rfl, fun h => (nomatch h), fun h => (nomatch h)⟩
  | @wait x p hstop =>
    have hne : (if x = .returned then Stop.returned else .waiting) ≠ .idle := by
      split <;> exact fun he => (nomatch he)
    refine ⟨fun _ => hi.cleared ?_, fun h => absurd h hne, fun h => absurd h hne⟩
    rw [hstop]
    exact fun he => (nomatch he)

theorem stopping_init : Stopping v (init v) := by
  refine ⟨fun h => absurd rfl h, fun _ => rfl, fun _ => ?_⟩
  show (List.replicate v.workers (Thread.worker .top) ++ List.replicate v.loops (.client none) ++
    [.dtor .idle, .waiter .idle])[v.workers + v.loops + 1]? = _
  rw [List.getElem?_append_right (by simp)]
  simp

theorem stopping (hr : Serves ok v w) : Stopping v w :=
  hr.invariant stopping_init fun _ _ _ hi hs _ => stopping_step hi (step_inv hs)

/-! ## Quiescence -/

/-- With `is_running` cleared and no task under way, no task acts. -/
theorem settled_step {a : Action} (hv : v.runTest = true) (hrun : w.host.isRunning = false)
    (hset : Settled w) (hm : Moves v w a w') :
    w'.host.isRunning = false ∧ Settled w' ∧ w'.host.acts = w.host.acts := by
  cases hm with
  | worker => exact ⟨hrun, hset, rfl⟩
  | finish => exact ⟨hrun, hset, rfl⟩
  | @task i t ok j j' h hi hj hs =>
    have hpc : j.pc = .test := by
      rcases hset j (List.mem_of_getElem? hj) with h | h
      · exact h
      · rw [task_not_isOver hs] at h
        cases h
    cases hs with
    | pass _ hr => rw [hrun] at hr; cases hr
    | skip =>
      refine ⟨hrun, fun j' hj' => ?_, rfl⟩
      rcases List.mem_or_eq_of_mem_set hj' with hj' | rfl
      · exact hset j' hj'
      · exact Or.inr rfl
    | lock h => rw [hpc] at h; cases h
    | send h => rw [hpc] at h; cases h
    | closeLock h => rw [hpc] at h; cases h
    | close h => rw [hpc] at h; cases h
    | unlock h => rw [hpc] at h; cases h
  | loop _ _ hs => exact ⟨(loop_running hs).1.trans hrun, hset, (loop_running hs).2⟩
  | call =>
    refine ⟨hrun, fun j hj => ?_, rfl⟩
    rcases List.mem_append.mp hj with hj | hj
    · exact hset j hj
    · rw [List.mem_singleton.mp hj]
      exact Or.inl (if_pos hv)
  | submit => exact ⟨hrun, hset, rfl⟩
  | accept => exact ⟨hrun, hset, rfl⟩
  | stop => exact ⟨rfl, hset, rfl⟩
  | wait => exact ⟨hrun, hset, rfl⟩

/-- When the wait has read 0, no task is under way, and none will be. -/
theorem settled_at_return (hv : v.runTest = true) (hr : Serves narrow v w) (h : AtReturn v w) :
    w.host.isRunning = false ∧ Settled w := by
  refine hr.invariant_of (K := Serves narrow v)
    (I := fun w => AtReturn v w → w.host.isRunning = false ∧ Settled w) (fun _ h => h) ?_ ?_ h
  · intro h
    rcases h with h | h
    · cases h
    · rw [stopping_init.waiter rfl] at h
      cases h
  · intro w a w' hr hi hs hok h
    have hm := step_inv hs
    rcases returned_step hm h with h | ⟨rfl, hstop, hz, -, hjobs, hhost⟩
    · obtain ⟨hrun, hset⟩ := hi h
      obtain ⟨hrun', hset', _⟩ := settled_step hv hrun hset hm
      exact ⟨hrun', hset'⟩
    · have hset := settled_of_zero hv hr (hok rfl) hz
      unfold Settled
      rw [hjobs, hhost]
      refine ⟨(stopping hr).cleared ?_, hset⟩
      rw [hstop]
      exact fun he => (nomatch he)

/-- **Quiescence**: once `stop()` has returned, no pool task ever sends or closes again, whatever is
    still queued or is submitted later. -/
theorem quiescent {n : Nat} (hr : Serves narrow (epollthreadTp n) w) (hstop : w.stop = .returned)
    (hr' : Reach anyStep (step (epollthreadTp n)) w w') : w'.host.acts = w.host.acts := by
  have hset := settled_at_return rfl hr (Or.inl hstop)
  have hall : w'.host.isRunning = false ∧ Settled w' ∧ w'.host.acts = w.host.acts := by
    refine hr'.invariant
      (I := fun w' => w'.host.isRunning = false ∧ Settled w' ∧ w'.host.acts = w.host.acts)
      ⟨hset.1, hset.2, rfl⟩ ?_
    rintro w₁ a w₂ ⟨hrun, hset, hacts⟩ hs -
    obtain ⟨hrun', hset', hacts'⟩ := settled_step rfl hrun hset (step_inv hs)
    exact ⟨hrun', hset', hacts'.trans hacts⟩
  exact hall.2.2

/-- `new_client` for number 5. -/
def acceptClient : List Action := .loop 0 (.accept 5) :: List.replicate 3 (.loop 0 .go)

/-- The loop reads a message and submits it. -/
def submitMessage : List Action :=
  [.loop 0 (.ready 5), .loop 0 (.data [65]), .call 0] ++ List.replicate 6 (.submit 0 .go)

/-- The whole of `stop()`, when `task_count` is 0. -/
def stopAtZero : List Action := .stop :: List.replicate 3 .wait

/-- One message is answered, and the server is stopped. -/
def answeredAndStopped : List Action :=
  acceptClient ++ submitMessage ++ List.replicate 4 (.worker 0 .go) ++ List.replicate 2 (.task 0 true) ++
    List.replicate 5 (.worker 0 .go) ++ stopAtZero

/-- A message that comes after `stop()` has returned, and its task. -/
def lateMessage : List Action :=
  submitMessage ++ List.replicate 4 (.worker 0 .go) ++ [.task 0 true, .worker 0 .go]

theorem quiescent_late : ∃ w w' : World,
    exec (guarded narrow (step (epollthreadTp 1))) (init (epollthreadTp 1)) answeredAndStopped = some w ∧
    exec (step (epollthreadTp 1)) w lateMessage = some w' ∧ w.stop = .returned ∧
    w'.pool.shared.finished = [0, 1] ∧ w'.host.acts = w.host.acts :=
  have hr : Serves narrow (epollthreadTp 1) ((exec (guarded narrow (step (epollthreadTp 1)))
      (init (epollthreadTp 1)) answeredAndStopped).get rfl) := exec_guarded_get answeredAndStopped rfl
  ⟨_, _, (Option.some_get _).symm, (Option.some_get (x := exec (step (epollthreadTp 1)) _ lateMessage) rfl).symm,
    rfl, rfl, quiescent hr rfl (exec_reach_get lateMessage rfl)⟩

/-! ## The tasks submitted before `stop()` -/

/-- The task has been enqueued and counted. -/
def Submitted (w : World) (t : Nat) : Prop :=
  t ∈ w.pool.shared.accepted ∧ ∀ u ∈ w.pool.threads, counting t u = false

instance (w : World) (t : Nat) : Decidable (Submitted w t) := inferInstanceAs (Decidable (_ ∧ _))

/-- The task has tested `is_running`. -/
def Tested (w : World) (t : Nat) : Prop := ∃ j, w.jobs[t]? = some j ∧ j.pc ≠ .test

/-- The task has found `is_running` false. -/
def Skipped (w : World) (t : Nat) : Prop := ∃ j, w.jobs[t]? = some j ∧ j.pc = .skipped

/-- The reply of the task has been handed to `send`. -/
def Handed (w : World) (t : Nat) : Prop := ∃ a ∈ w.host.acts, a.task = t ∧ a.call = .send

/-- Behind the send. -/
def TaskPc.sent : TaskPc → Bool
  | .closeLock | .close | .unlock | .done => true
  | _ => false

theorem handed_mono {a : Action} (hm : Moves v w a w') {t : Nat} (h : Handed w t) : Handed w' t := by
  obtain ⟨b, hb, ht, hc⟩ := h
  cases hm with
  | task _ _ hs =>
    refine ⟨b, ?_, ht, hc⟩
    cases hs with
    | send => exact List.mem_append_left _ hb
    | close => exact List.mem_append_left _ hb
    | _ => exact hb
  | loop _ _ hs => exact ⟨b, by rw [show _ = w.host.acts from (loop_running hs).2]; exact hb, ht, hc⟩
  | _ => exact ⟨b, hb, ht, hc⟩

/-- A task behind its send has sent; none is skipped while `is_running` is set. -/
structure Replies (w : World) : Prop where
  sent : ∀ t j, w.jobs[t]? = some j → j.pc.sent = true → Handed w t
  skipped : ∀ j ∈ w.jobs, j.pc = .skipped → w.host.isRunning = false

theorem replies_step {a : Action} (hv : v.runTest = true) (hi : Replies w) (hm : Moves v w a w') :
    Replies w' := by
  have hmono := fun t => handed_mono hm (t := t)
  cases hm with
  | @task i t ok j j' h hi' hj hs =>
    refine ⟨fun t' j'' hj'' hsent => ?_, fun j'' hj'' hpc => ?_⟩
    · by_cases het : t = t'
      · subst het
        rw [List.getElem?_set_self (List.getElem?_eq_some_iff.mp hj).1] at hj''
        cases hj''
        cases hs with
        | send =>
          exact ⟨_, List.mem_append_right _ (List.mem_singleton_self _), rfl, rfl⟩
        | pass => cases hl : v.sendLock <;> simp [hl, TaskPc.sent] at hsent
        | skip => cases hsent
        | lock => cases hsent
        | closeLock hpc => exact hmono t (hi.sent t j hj (by rw [hpc]; rfl))
        | close hpc => exact hmono t (hi.sent t j hj (by rw [hpc]; rfl))
        | unlock hpc => exact hmono t (hi.sent t j hj (by rw [hpc]; rfl))
      · rw [List.getElem?_set_ne het] at hj''
        exact hmono t' (hi.sent t' j'' hj'' hsent)
    · refine (task_running hs).trans ?_
      rcases List.mem_or_eq_of_mem_set hj'' with hj'' | rfl
      · exact hi.skipped j'' hj'' hpc
      · cases hs with
        | skip _ hr => exact hr
        | pass => cases hl : v.sendLock <;> simp [hl] at hpc
        | send =>
          change afterSend v ok = .skipped at hpc
          rcases afterSend_cases v ok with he | he | he | he <;> rw [he] at hpc <;> cases hpc
        | lock => cases hpc
        | closeLock => cases hpc
        | close => cases hpc
        | unlock => cases hpc
  | call =>
    refine ⟨fun t j hj hsent => ?_, fun j hj hpc => ?_⟩
    · rcases get_append hj with hj | rfl
      · exact hmono t (hi.sent t j hj hsent)
      · rw [show entry v = .test from if_pos hv] at hsent
        cases hsent
    · rcases List.mem_append.mp hj with hj | hj
      · exact hi.skipped j hj hpc
      · rw [List.mem_singleton.mp hj, show entry v = .test from if_pos hv] at hpc
        cases hpc
  | loop _ _ hs =>
    exact ⟨fun t j hj hsent => hmono t (hi.sent t j hj hsent),
      fun j hj hpc => (loop_running hs).1.trans (hi.skipped j hj hpc)⟩
  | stop => exact ⟨fun t j hj hsent => hmono t (hi.sent t j hj hsent), fun _ _ _ => rfl⟩
  | worker => exact ⟨hi.sent, hi.skipped⟩
  | finish => exact ⟨hi.sent, hi.skipped⟩
  | submit => exact ⟨hi.sent, hi.skipped⟩
  | accept => exact ⟨hi.sent, hi.skipped⟩
  | wait => exact ⟨hi.sent, hi.skipped⟩

theorem replies_init : Replies (init v) := ⟨fun _ _ hj => (nomatch hj), fun _ hj => (nomatch hj)⟩

theorem replies (hv : v.runTest = true) (hr : Serves ok v w) : Replies w :=
  hr.invariant replies_init fun _ _ _ hi hs _ => replies_step hv hi (step_inv hs)

/-- A task that has found `is_running` set goes on to its send. -/
def Passed (w : World) (t : Nat) : Prop :=
  ∃ j, w.jobs[t]? = some j ∧ j.pc ≠ .test ∧ j.pc ≠ .skipped

theorem passed_step {a : Action} (hm : Moves v w a w') {t : Nat} (h : Passed w t) : Passed w' t := by
  obtain ⟨j, hj, ht, hs⟩ := h
  cases hm with
  | @task i t' ok j' j'' h hi hj' hts =>
    by_cases het : t' = t
    · subst het
      rw [hj, Option.some.injEq] at hj'
      subst hj'
      refine ⟨j'', List.getElem?_set_self (List.getElem?_eq_some_iff.mp hj).1, ?_⟩
      cases hts with
      | pass hpc => exact absurd hpc ht
      | skip hpc => exact absurd hpc ht
      | send =>
        show afterSend v ok ≠ .test ∧ afterSend v ok ≠ .skipped
        rcases afterSend_cases v ok with he | he | he | he <;> rw [he] <;> decide
      | lock => exact ⟨fun he => (nomatch he), fun he => (nomatch he)⟩
      | closeLock => exact ⟨fun he => (nomatch he), fun he => (nomatch he)⟩
      | close => exact ⟨fun he => (nomatch he), fun he => (nomatch he)⟩
      | unlock => exact ⟨fun he => (nomatch he), fun he => (nomatch he)⟩
    · exact ⟨j, by rw [show _ = (w.jobs.set t' j'')[t]? from rfl, List.getElem?_set_ne het, hj], ht, hs⟩
  | call =>
    exact ⟨j, by rw [show _ = (w.jobs ++ _)[t]? from rfl,
      List.getElem?_append_left (List.getElem?_eq_some_iff.mp hj).1, hj], ht, hs⟩
  | _ => exact ⟨j, hj, ht, hs⟩

theorem submitted_step {a : Action} (hr : Serves ok v w) (hm : Moves v w a w') {t : Nat}
    (h : Submitted w t) : Submitted w' t := by
  rcases hm.pool with he | ⟨i, ch, hp⟩
  · unfold Submitted
    rw [he]
    exact h
  · exact counted_step (pool_runs hr) hp h.1 h.2

/-- When the wait has read 0, every task submitted before has finished. -/
theorem finished_at_return {w₀ : World} {t : Nat} (hr : Serves narrow v w₀) (hidle : w₀.stop = .idle)
    (ht : Submitted w₀ t) (hr' : Reach narrow (step v) w₀ w) (h : AtReturn v w) :
    t ∈ w.pool.shared.finished := by
  refine (hr'.invariant_of (K := Reach narrow (step v) w₀)
    (I := fun w => Submitted w t ∧ (AtReturn v w → t ∈ w.pool.shared.finished))
    (fun _ h => h) ⟨ht, ?_⟩ ?_).2 h
  · intro h
    rcases h with h | h
    · rw [hidle] at h
      cases h
    · rw [(stopping hr).waiter hidle] at h
      cases h
  · rintro w₁ a w₂ hr₁ ⟨hsub, hi⟩ hs hok
    have hserves := hr.trans hr₁
    have hm := step_inv hs
    refine ⟨submitted_step hserves hm hsub, fun h => ?_⟩
    rcases returned_step hm h with h | ⟨rfl, -, hz, hsh, -, -⟩
    · have hfin := hi h
      rcases hm.pool with he | ⟨i, ch, hp⟩
      · rw [he]
        exact hfin
      · exact finished_mono hp hfin
    · rw [hsh]
      rcases executed_of_zero (pool_runs hserves) (hok rfl) hz hsub.1 with hfin | ⟨u, hu, hc⟩
      · exact hfin
      · rw [hsub.2 u hu] at hc
        cases hc

/-- **Graceful shutdown**: by the time `stop()` returns, every task submitted before it began has run
    to its end; its reply has been handed to `send` if the task had tested `is_running` before; and
    otherwise it has been handed over or the task has found `is_running` cleared. -/
theorem accepted_executed {n t : Nat} {w₀ : World} (hr : Serves narrow (epollthreadTp n) w₀)
    (hidle : w₀.stop = .idle) (ht : Submitted w₀ t)
    (hr' : Reach narrow (step (epollthreadTp n)) w₀ w) (hret : w.stop = .returned) :
    t ∈ w.pool.shared.finished ∧ (Tested w₀ t → Handed w t) ∧ (Handed w t ∨ Skipped w t) := by
  have hserves := hr.trans hr'
  have hfin := finished_at_return hr hidle ht hr' (Or.inl hret)
  have hover := ended hserves t hfin
  unfold isOver at hover
  split at hover
  · cases hover
  · rename_i j hj
    have hend : j.pc = .skipped ∨ Handed w t := by
      cases hpc : j.pc with
      | skipped => exact Or.inl rfl
      | done => exact Or.inr ((replies rfl hserves).sent t j hj (by rw [hpc]; rfl))
      | _ => rw [hpc] at hover; cases hover
    refine ⟨hfin, fun htested => ?_, hend.symm.imp_right fun h => ⟨j, hj, h⟩⟩
    obtain ⟨j₀, hj₀, hpc₀⟩ := htested
    have hpassed : Passed w₀ t := by
      refine ⟨j₀, hj₀, hpc₀, fun hsk => ?_⟩
      have hrun := (replies rfl hr).skipped j₀ (List.mem_of_getElem? hj₀) hsk
      rw [(stopping hr).running hidle] at hrun
      cases hrun
    obtain ⟨j', hj', _, hne⟩ : Passed w t :=
      hr'.invariant (I := fun w => Passed w t) hpassed fun _ _ _ h hs _ => passed_step (step_inv hs) h
    rw [hj, Option.some.injEq] at hj'
    subst hj'
    exact hend.resolve_left hne

/-- Two messages are submitted; the first task tests `is_running`; then the server is stopped. -/
def twoMessages : List Action :=
  acceptClient ++ submitMessage ++ submitMessage ++ List.replicate 4 (.worker 0 .go) ++ [.task 0 true]

/-- The first task sends; the second one is skipped; `stop()` returns. -/
def drained : List Action :=
  [.stop, .task 0 true] ++ List.replicate 6 (.worker 0 .go) ++ [.task 0 true] ++
    List.replicate 5 (.worker 0 .go) ++ List.replicate 3 .wait

theorem accepted_executed_two : ∃ w₀ w : World,
    exec (guarded narrow (step (epollthreadTp 1))) (init (epollthreadTp 1)) twoMessages = some w₀ ∧
    exec (guarded narrow (step (epollthreadTp 1))) w₀ drained = some w ∧ w.stop = .returned ∧
    w.pool.shared.finished = [0, 1] ∧ Handed w 0 ∧ (Handed w 1 ∨ Skipped w 1) := by
  have hr : Serves narrow (epollthreadTp 1) ((exec (guarded narrow (step (epollthreadTp 1)))
      (init (epollthreadTp 1)) twoMessages).get rfl) := exec_guarded_get twoMessages rfl
  have hsome : Option.isSome (exec (guarded narrow (step (epollthreadTp 1)))
      ((exec (guarded narrow (step (epollthreadTp 1))) (init (epollthreadTp 1)) twoMessages).get rfl)
      drained) = true := rfl
  have hr' := exec_guarded_get drained hsome
  exact ⟨_, _, (Option.some_get _).symm, (Option.some_get hsome).symm, rfl, rfl,
    (accepted_executed (t := 0) hr rfl (by decide) hr' rfl).2.1 ⟨_, rfl, by decide⟩,
    (accepted_executed (t := 1) hr rfl (by decide) hr' rfl).2.2⟩

/-- The message is submitted; its worker finds `is_running` cleared; `stop()` returns. -/
def skippedReply : List Action :=
  .stop :: List.replicate 4 (.worker 0 .go) ++ [.task 0 true] ++ List.replicate 5 (.worker 0 .go) ++
    List.replicate 3 .wait

/-- A task submitted before `stop()` whose reply is never handed to `send`. -/
theorem reply_dropped : ∃ (w₀ w : World) (t : Nat), Serves anyStep (epollthreadTp 1) w₀ ∧
    w₀.stop = .idle ∧ Submitted w₀ t ∧ Reach anyStep (step (epollthreadTp 1)) w₀ w ∧
    w.stop = .returned ∧ ¬ Handed w t := by
  have hr := exec_reach_get (s := init (epollthreadTp 1)) (acceptClient ++ submitMessage)
    (rfl : Option.isSome (exec (step (epollthreadTp 1)) _ _) = true)
  refine ⟨_, _, 0, hr, rfl, by decide, exec_reach_get skippedReply rfl, rfl, ?_⟩
  rintro ⟨a, ha, -⟩
  cases ha

/-! ## The width of the counter -/

/-- The worker is about to send the first reply; the other messages are queued. -/
def flooded (count : Int32) (queue accepted : List Nat) (next : Nat) (received : List Chunk)
    (jobs : List Job) : World where
  pool := ⟨{ Shared.init with queue := queue, taskCount := count, next := next, accepted := accepted,
                              dequeued := [0], started := [0] },
    [.worker (.run 0 none), .client none, .dtor .idle, .waiter .idle]⟩
  host := ⟨Table.empty.accept 5, true, false, received, []⟩
  jobs := ⟨5, [⟨0, [65]⟩], .send⟩ :: jobs
  loops := [.top]
  stop := .idle

theorem exec_flooded (count : Int32) (queue accepted : List Nat) (next : Nat) (received : List Chunk)
    (jobs : List Job) :
    exec (step (epollthreadTp 1)) (flooded count queue accepted next received jobs) submitMessage =
      some (flooded (count + 1) (queue ++ [next]) (accepted ++ [next]) (next + 1)
        (received ++ [⟨0, [65]⟩]) (jobs ++ [⟨5, [⟨0, [65]⟩], .test⟩])) := rfl

/-- Any number of messages can be submitted while the first reply is about to be sent. -/
theorem runs_flooded : ∀ k : Nat, ∃ queue accepted next received jobs,
    Serves anyStep (epollthreadTp 1)
      (flooded (Int32.ofNat (k + 1)) queue accepted next received jobs)
  | 0 => by
    have hstart : exec (step (epollthreadTp 1)) (init (epollthreadTp 1))
        (acceptClient ++ submitMessage ++ List.replicate 4 (.worker 0 .go) ++ [.task 0 true]) =
          some (flooded 1 [] [0] 1 [⟨0, [65]⟩] []) := rfl
    exact ⟨_, _, _, _, _, exec_reach _ hstart⟩
  | k + 1 => by
    obtain ⟨queue, accepted, next, received, jobs, hr⟩ := runs_flooded k
    have hnext := exec_reach _ (exec_flooded (Int32.ofNat (k + 1)) queue accepted next received jobs)
    rw [show Int32.ofNat (k + 1 + 1) = Int32.ofNat (k + 1) + 1 from Int32.ofNat_add _ _]
    exact ⟨_, _, _, _, _, hr.trans hnext⟩

/-- `stop()` has returned, and the worker is still about to send. -/
def stoppedEarly (queue accepted : List Nat) (next : Nat) (received : List Chunk) (jobs : List Job) :
    World where
  pool := (flooded 0 queue accepted next received jobs).pool
  host := { (flooded 0 queue accepted next received jobs).host with isRunning := false }
  jobs := ⟨5, [⟨0, [65]⟩], .send⟩ :: jobs
  loops := [.top]
  stop := .returned

/-- With `2^32` tasks outstanding the counter is 0: `stop()` returns, and then the worker sends. -/
theorem late_send : ∃ w w' : World, Serves anyStep (epollthreadTp 1) w ∧ w.stop = .returned ∧
    Reach anyStep (step (epollthreadTp 1)) w w' ∧ w'.host.acts ≠ w.host.acts := by
  obtain ⟨queue, accepted, next, received, jobs, hr⟩ := runs_flooded (2 ^ 32 - 1)
  rw [show Int32.ofNat (2 ^ 32 - 1 + 1) = 0 by decide] at hr
  have hstop : exec (step (epollthreadTp 1)) (flooded 0 queue accepted next received jobs)
      stopAtZero = some (stoppedEarly queue accepted next received jobs) := rfl
  refine ⟨_, _, hr.trans (exec_reach _ hstop), rfl, exec_reach_get [.task 0 true] rfl, ?_⟩
  exact fun he => (nomatch he)

end CppBackend.PoolServer
