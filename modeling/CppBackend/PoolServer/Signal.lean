import CppBackend.PoolServer.Tasks

/-!
# `stop()` in a signal handler

In `epollthread_tpet.cpp` the handler of `SIGINT` calls `stop()` on top of the main thread, which makes
no step until the handler returns and keeps the mutexes it holds.  `stop()` waits for the tasks, and the
tasks may wait for the main thread:

* inside the critical section of `submit` the main thread holds the pool's `mtx`, and no worker can
  pop the tasks that are counted;
* in `new_client`, or when it closes a client, it holds the server's `mtx`, which every task that has
  passed its test of `is_running` locks before it sends.

If the handler does not interrupt the main thread there with counted tasks in the queue, or with all
workers waiting for `mtx`, no deadlock is reachable (`signal_safe`); `interrupted_submit` is one.
-/

set_option autoImplicit false

namespace CppBackend.PoolServer

open Library.Transition Library.Threads Library.Tally ThreadPool

/-- Holds the server's `mtx`. -/
def LoopPc.holds : LoopPc → Bool
  | .newAdd _ | .newUnlock | .closeFd _ | .closeUnlock => true
  | _ => false

/-- The main thread holds the server's `mtx`. -/
def mainHolds (w : World) : Bool := w.loops[0]?.any LoopPc.holds

/-- The call of `submit` in whose critical section the main thread is. -/
def mainCall (v : Server) (w : World) : Option ThreadPool.Call :=
  match w.pool.threads[v.loopThread 0]? with
  | some (.client (some c)) => if c.inSection then some c else none
  | _ => none

/-- The worker is about to lock the pool's `mtx`. -/
def wantsPool (w : World) (i : Nat) : Bool :=
  match w.pool.threads[i]? with
  | some (.worker .top) | some (.worker .woken) => true
  | _ => false

/-- The worker is in a task that is about to lock the server's `mtx`. -/
def wantsMtx (w : World) (i : Nat) : Bool :=
  match w.pool.threads[i]? with
  | some (.worker (.run t none)) => w.jobs[t]?.any fun j => j.pc == .lock
  | _ => false

/-- The worker waits for a mutex that the main thread holds. -/
def Blocked (v : Server) (w : World) (i : Nat) : Prop :=
  (wantsPool w i = true ∧ (mainCall v w).isSome = true) ∨ (wantsMtx w i = true ∧ mainHolds w = true)

/-- `stop()` waits for tasks that no worker can execute. -/
def Deadlock (v : Server) (w : World) : Prop :=
  w.stop = .waiting ∧ 0 < w.pool.shared.taskCount.toInt ∧ ∀ i, i < v.workers → Blocked v w i

/-- A step of the thread that runs the loop. -/
def Action.ofLoop : Action → Bool
  | .loop _ _ | .call _ | .submit _ _ => true
  | _ => false

/-- While `stop()` runs, the interrupted thread does not. -/
def interrupted (w : World) (a : Action) (_ : World) : Prop := w.stop = .waiting → a.ofLoop = false

instance (w : World) (a : Action) (w' : World) : Decidable (interrupted w a w') :=
  inferInstanceAs (Decidable (w.stop = .waiting → _))

/-- Inside the critical section of `submit`, no counted task is queued; with the server's `mtx` held,
some worker does not wait for it. -/
def Clear (v : Server) (w : World) : Prop :=
  (∀ c ∈ mainCall v w, w.pool.shared.queue.length ≤ if c.pc = .add then 1 else 0) ∧
    (mainHolds w = true → ∃ i, i < v.workers ∧ wantsMtx w i = false)

instance (v : Server) (w : World) : Decidable (Clear v w) := inferInstanceAs (Decidable (_ ∧ _))

/-- The handler interrupts the main thread at a clear point. -/
def clearEntry (v : Server) (w : World) (a : Action) (w' : World) : Prop :=
  interrupted w a w' ∧ (a = .stop → Clear v w)

instance (v : Server) (w : World) (a : Action) (w' : World) : Decidable (clearEntry v w a w') :=
  inferInstanceAs (Decidable (interrupted w a w' ∧ _))

variable {v : Server} {w w' : World} {ok : World → Action → World → Prop}

/-! ## The state of the main thread -/

theorem mainCall_some {c : ThreadPool.Call} (h : c ∈ mainCall v w) :
    w.pool.threads[v.loopThread 0]? = some (.client (some c)) ∧ c.inSection = true := by
  unfold mainCall at h
  split at h
  · rename_i d hd
    split at h
    · rename_i hs
      cases h
      exact ⟨hd, hs⟩
    · cases h
  · cases h

/-- While the main thread is in the critical section, the others leave the queue alone. -/
theorem queue_stays {i : Nat} {p : Pool} {c : ThreadPool.Call} (hr : Serves ok v w)
    (hp : Pools w.pool i p) (hne : i ≠ v.loopThread 0) (hc : c ∈ mainCall v w) :
    p.shared.queue = w.pool.shared.queue := by
  obtain ⟨ch, hs⟩ := hp
  obtain ⟨t, t', sig, ht, hst, -⟩ := ThreadPool.step_inv hs
  obtain ⟨hmain, hsec⟩ := mainCall_some hc
  have hhold : holdsMtx (.client (some c)) = true := hsec
  exact (thread_protected hst ((pool_locks (pool_runs hr)).mtx.alone hmain ht hne hhold)).1

theorem run_origin {i k t : Nat} {p p' : Pool} {u : Thread} (hi : p.threads[i]? = some u)
    (hp : Pools p i p') (hk : p'.threads[k]? = some (.worker (.run t none))) :
    p.threads[k]? = some (.worker (.run t none)) ∨
      (k = i ∧ ∃ x sig, u = .worker x ∧
        WorkerStep threadpoolH p.shared x p'.shared (.run t none) sig) := by
  obtain ⟨ch, hs⟩ := hp
  obtain ⟨u', t', sig, hu, hst, hd⟩ := ThreadPool.step_inv hs
  rw [hi, Option.some.injEq] at hu
  subst hu
  rcases hd.origin hk with hk | ⟨e, u', -, hs, he⟩
  · rw [List.getElem?_set] at hk
    split at hk
    · rename_i hik
      split at hk
      · rw [Option.some.injEq] at hk
        subst hk
        generalize p'.shared = sh' at hst
        cases hst with
        | worker hw => exact Or.inr ⟨hik.symm, _, _, rfl, hw⟩
      · cases hk
    · exact Or.inl hk
  · rcases asleep_cases hs with ⟨_, rfl⟩ | ⟨_, rfl⟩ <;> cases he

/-- A task that is popped and not started has not tested `is_running`. -/
theorem test_of_popped {i t : Nat} {j : Job} (hv : v.runTest = true) (hr : Serves ok v w)
    (hi : w.pool.threads[i]? = some (.worker (.popped t))) (hj : w.jobs[t]? = some j) :
    j.pc = .test := by
  by_contra hne
  have hst := List.count_pos_iff.mpr (begun hv hr t j hj hne)
  have hl := pool_ledger t (pool_runs hr)
  have hhold := tally_ind_pos (p := holding t) (List.mem_of_getElem? hi) (by simp [holding])
  have hsub := hl.submitted
  have hdeq := hl.dequeued
  rw [fifo hr, List.count_append] at hsub
  have hnn := tally_nonneg (l := w.pool.threads) (ind_nonneg (pending t))
  have hle : (if t < w.pool.shared.next then 1 else 0 : Int) ≤ 1 := by split <;> decide
  omega

theorem wantsMtx_iff {i : Nat} : wantsMtx w i = true ↔ ∃ t j,
    w.pool.threads[i]? = some (.worker (.run t none)) ∧ w.jobs[t]? = some j ∧ j.pc = .lock := by
  unfold wantsMtx
  constructor
  · intro h
    split at h
    · rename_i t ht
      cases hj : w.jobs[t]? with
      | none => simp [hj] at h
      | some j => exact ⟨t, j, ht, hj, by simpa [hj] using h⟩
    · cases h
  · rintro ⟨t, j, ht, hj, hpc⟩
    rw [ht]
    simp [hj, hpc]

/-- With `is_running` cleared, no worker begins to wait for the server's `mtx`. -/
theorem wantsMtx_step {a : Action} {i : Nat} (hv : v.runTest = true) (hr : Serves ok v w)
    (hrun : ∀ k b, a = .task k b → w.host.isRunning = false) (hm : Moves v w a w')
    (h : wantsMtx w' i = true) :
    wantsMtx w i = true := by
  rw [wantsMtx_iff] at h ⊢
  obtain ⟨t, j, ht, hj, hpc⟩ := h
  have hpool : ∀ {k : Nat} {u : Thread} {p : Pool}, w.pool.threads[k]? = some u →
      Pools w.pool k p → p.threads[i]? = some (.worker (.run t none)) →
      (∀ x, u = .worker x → ∀ t c, x ≠ .run t c) → w.jobs[t]? = some j →
      w.pool.threads[i]? = some (.worker (.run t none)) := by
    intro k u p hk hp ht hu hj
    rcases run_origin hk hp ht with ht | ⟨rfl, x, sig, rfl, hw⟩
    · exact ht
    · generalize p.shared = sh' at hw
      cases hw with
      | start =>
        rw [test_of_popped hv hr hk hj] at hpc
        cases hpc
      | submit => exact absurd rfl (hu _ rfl _ _)
  cases hm with
  | worker hi hx hp =>
    refine ⟨t, j, hpool hi hp ht ?_ hj, hj, hpc⟩
    rintro y he
    cases he
    exact hx
  | @finish k t' ch p hi ht' hp he =>
    refine ⟨t, j, ?_, hj, hpc⟩
    change p.threads[i]? = _ at ht
    rw [he, List.getElem?_set] at ht
    split at ht
    · split at ht <;> cases ht
    · exact ht
  | @task k t' ok j₀ j' h hi hj₀ hs =>
    by_cases het : t' = t
    · subst het
      rw [List.getElem?_set_self (List.getElem?_eq_some_iff.mp hj₀).1] at hj
      cases hj
      cases hs with
      | pass _ hr => rw [hrun _ _ rfl] at hr; cases hr
      | send =>
        change afterSend v ok = .lock at hpc
        rcases afterSend_cases v ok with he | he | he | he <;> rw [he] at hpc <;> cases hpc
      | skip => cases hpc
      | lock => cases hpc
      | closeLock => cases hpc
      | close => cases hpc
      | unlock => cases hpc
    · rw [List.getElem?_set_ne het] at hj
      exact ⟨t, j, ht, hj, hpc⟩
  | loop => exact ⟨t, j, ht, hj, hpc⟩
  | call hk _ hp =>
    rcases get_append hj with hj | rfl
    · exact ⟨t, j, hpool hk hp ht (fun x he => nomatch he) hj, hj, hpc⟩
    · rw [show entry v = .test from if_pos hv] at hpc
      cases hpc
  | submit hk hp => exact ⟨t, j, hpool hk hp ht (fun x he => nomatch he) hj, hj, hpc⟩
  | accept => exact ⟨t, j, ht, hj, hpc⟩
  | stop _ hi hp => exact ⟨t, j, hpool hi hp ht (fun x he => nomatch he) hj, hj, hpc⟩
  | wait _ hi hp => exact ⟨t, j, hpool hi hp ht (fun x he => nomatch he) hj, hj, hpc⟩

/-! ## The handler -/

/-- A step of another thread keeps the point clear. -/
theorem clear_step {a : Action} (hv : v.runTest = true) (hpos : 0 < v.loops) (hr : Serves ok v w)
    (hrun : ∀ k b, a = .task k b → w.host.isRunning = false)
    (hoff : a.ofLoop = false) (hm : Moves v w a w') (hc : Clear v w) : Clear v w' := by
  have hcall : mainCall v w' = mainCall v w := by
    unfold mainCall
    rw [client_stays hr hm hpos (by rintro rfl; cases hoff) (by rintro ch rfl; cases hoff)]
  have hqueue : ∀ c ∈ mainCall v w, w'.pool.shared.queue = w.pool.shared.queue := by
    intro c hcm
    have hmain := (mainCall_some hcm).1
    have hother : ∀ {i : Nat} {u : Thread} {p : Pool}, w.pool.threads[i]? = some u →
        u ≠ .client (some c) → Pools w.pool i p → p.shared.queue = w.pool.shared.queue := by
      intro i u p hi hu hp
      refine queue_stays hr hp ?_ hcm
      rintro rfl
      rw [hi, Option.some.injEq] at hmain
      exact hu hmain
    cases hm with
    | worker hi _ hp => exact hother hi (fun he => nomatch he) hp
    | finish hi _ hp => exact hother hi (fun he => nomatch he) hp
    | task => rfl
    | loop => cases hoff
    | call => cases hoff
    | submit => cases hoff
    | accept => rfl
    | stop _ hi hp => exact hother hi (fun he => nomatch he) hp
    | wait _ hi hp => exact hother hi (fun he => nomatch he) hp
  have hholds : mainHolds w' = mainHolds w := by
    cases hm with
    | loop => cases hoff
    | call => cases hoff
    | _ => rfl
  refine ⟨fun c hcm => ?_, fun hh => ?_⟩
  · rw [hcall] at hcm
    rw [hqueue c hcm]
    exact hc.1 c hcm
  · rw [hholds] at hh
    obtain ⟨i, hi, hfree⟩ := hc.2 hh
    refine ⟨i, hi, ?_⟩
    cases hw : wantsMtx w' i with
    | false => rfl
    | true =>
      rw [wantsMtx_step hv hr hrun hm hw] at hfree
      cases hfree

/-- In `submit` the main thread does not hold the server's `mtx`: if all workers are blocked, they wait
    for the pool's, with no task in their hands. -/
theorem uncounted_of_blocked {c : ThreadPool.Call} (hpos : 0 < v.loops) (hr : Serves ok v w)
    (hmain : w.pool.threads[v.loopThread 0]? = some (.client (some c)))
    (hall : ∀ i, i < v.workers → Blocked v w i) : tally (ind uncounted) w.pool.threads = 0 := by
  have hholds : mainHolds w = false := by
    unfold mainHolds
    rw [atTop hr 0 hpos c hmain]
    rfl
  have hidle : ∀ u ∈ w.pool.threads, ind uncounted u = 0 := by
    intro u hu
    obtain ⟨k, hk⟩ := List.mem_iff_getElem?.mp hu
    cases u with
    | worker x =>
      rcases hall k (worker_lt hr hk) with ⟨hw, _⟩ | ⟨_, hh⟩
      · unfold wantsPool at hw
        rw [hk] at hw
        cases x with
        | top => rfl
        | woken => rfl
        | _ => cases hw
      · rw [hholds] at hh
        cases hh
    | _ => rfl
  rw [tally_congr (g := fun _ => 0) hidle]
  simp [tally]

/-- At a clear point there is no deadlock. -/
theorem not_deadlock (hworkers : 0 < v.workers) (hpos : 0 < v.loops) (hr : Serves ok v w)
    (hc : Clear v w) : ¬ Deadlock v w := by
  rintro ⟨-, hcount, hall⟩
  cases hmc : mainCall v w with
  | none =>
    have hsome : ∀ i, Blocked v w i → wantsMtx w i = true ∧ mainHolds w = true := by
      intro i hb
      rcases hb with ⟨_, hs⟩ | hb
      · rw [hmc] at hs
        cases hs
      · exact hb
    obtain ⟨i, hi, hfree⟩ := hc.2 (hsome 0 (hall 0 hworkers)).2
    rw [(hsome i (hall i hi)).1] at hfree
    cases hfree
  | some c =>
    obtain ⟨hmain, hsec⟩ := mainCall_some (c := c) hmc
    have hun := uncounted_of_blocked hpos hr hmain hall
    have hadd := le_tally (ind_nonneg adding) (List.mem_of_getElem? hmain)
    have hlen := hc.1 c hmc
    have heq := counted_eq w.pool
    have hnn := (counted_bounds (pool_adding (pool_runs hr))).1
    have hzero : counted w.pool = 0 := by
      have hind : ind adding (.client (some c)) = if c.pc = .add then 1 else 0 := by
        by_cases hpc : c.pc = .add <;> simp [ind, adding, inSubmit, hpc]
      rw [hind] at hadd
      split at hlen
      · rename_i hpc
        rw [if_pos hpc] at hadd
        omega
      · rename_i hpc
        rw [if_neg hpc] at hadd
        omega
    rw [pool_counter (pool_runs hr), hzero] at hcount
    exact absurd hcount (by decide)

/-- **Shutdown by signal**: in every run in which the handler interrupts the main thread at a clear
    point, no deadlock is reachable. -/
theorem signal_safe {n : Nat} (hn : 0 < n)
    (hr : Serves (clearEntry (epollthreadTpet n)) (epollthreadTpet n) w) :
    ¬ Deadlock (epollthreadTpet n) w := by
  have hclear : w.stop = .waiting → w.host.isRunning = false ∧ Clear (epollthreadTpet n) w := by
    refine hr.invariant_of (K := Serves (clearEntry (epollthreadTpet n)) (epollthreadTpet n))
      (I := fun w => w.stop = .waiting → w.host.isRunning = false ∧ Clear (epollthreadTpet n) w)
      (fun _ h => h) (fun h => (nomatch h)) ?_
    intro w a w' hr hi hs hok hstop
    have hm := step_inv hs
    have hbefore : w.stop = .waiting ∨ a = .stop := by
      cases hm with
      | stop => exact Or.inr rfl
      | wait h => exact Or.inl h
      | _ => exact Or.inl hstop
    rcases hbefore with hw | rfl
    · obtain ⟨hrun, hc⟩ := hi hw
      refine ⟨?_, clear_step rfl Nat.one_pos hr (fun _ _ _ => hrun) (hok.1 hw) hm hc⟩
      cases hm with
      | task _ _ hts => exact (task_running hts).trans hrun
      | loop _ _ hls => exact (loop_running hls).1.trans hrun
      | stop => rfl
      | _ => exact hrun
    · refine ⟨?_, clear_step (a := .stop) rfl Nat.one_pos hr (fun _ _ he => nomatch he) rfl hm
        (hok.2 rfl)⟩
      cases hm
      rfl
  intro hd
  exact not_deadlock hn Nat.one_pos hr (hclear hd.1).2 hd

/-- The loop accepts a client and is about to submit its first message. -/
def firstMessage : List Action :=
  [.loop 0 (.accept 5), .loop 0 .go, .loop 0 .go, .loop 0 .go, .loop 0 (.ready 5), .loop 0 (.data [65]),
    .loop 0 (.noData true), .call 0]

/-- A worker waits for the server's `mtx`, which the main thread holds in `new_client` when the handler
    interrupts it; the other worker is free. -/
def interruptedAccept : List Action :=
  firstMessage ++ List.replicate 6 (.submit 0 .go) ++ List.replicate 4 (.worker 0 .go) ++
    [.task 0 true, .loop 0 (.accept 6), .loop 0 .go, .stop]

theorem signal_safe_accept : ∃ w, exec (guarded (clearEntry (epollthreadTpet 2)) (step (epollthreadTpet 2)))
      (init (epollthreadTpet 2)) interruptedAccept = some w ∧
    w.stop = .waiting ∧ wantsMtx w 0 = true ∧ ¬ Deadlock (epollthreadTpet 2) w :=
  have hr : Serves (clearEntry (epollthreadTpet 2)) (epollthreadTpet 2)
      ((exec (guarded (clearEntry (epollthreadTpet 2)) (step (epollthreadTpet 2)))
        (init (epollthreadTpet 2)) interruptedAccept).get rfl) :=
    exec_guarded_get interruptedAccept rfl
  ⟨_, (Option.some_get _).symm, rfl, rfl, signal_safe (by decide) hr⟩

/-- The main thread is in `submit`, about to unlock, when the handler interrupts it; no worker has
    started to run, and `stop()` falls asleep. -/
def interruptedSubmit : List Action :=
  firstMessage ++ List.replicate 4 (.submit 0 .go) ++ .stop :: List.replicate 3 .wait

instance (v : Server) (w : World) (i : Nat) : Decidable (Blocked v w i) :=
  inferInstanceAs (Decidable (_ ∨ _))

/-- The pool has its 50 workers, a task is counted, `stop()` sleeps, and every worker waits for the
    pool's `mtx`, which the main thread holds. -/
theorem interrupted_submit : ∃ w, Serves interrupted (epollthreadTpet 50) w ∧
    w.pool.threads[(epollthreadTpet 50).stopThread]? = some (.waiter .asleep) ∧
    Deadlock (epollthreadTpet 50) w := by
  have hr : Serves interrupted (epollthreadTpet 50) ((exec (guarded interrupted
      (step (epollthreadTpet 50))) (init (epollthreadTpet 50)) interruptedSubmit).get rfl) :=
    exec_guarded_get interruptedSubmit rfl
  exact ⟨_, hr, rfl, rfl, by decide, by decide⟩

end CppBackend.PoolServer
