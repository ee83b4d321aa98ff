import CppBackend.ThreadPool.Counter

/-!
# Shutdown of the pool

A worker leaves `NewThread` only when it has seen, under `mtx`, that `stop` is set and the queue
is empty.  A task enqueued later is executed only if some worker is still alive, so everything
depends on who may enqueue then:

* `pool_drained` — in a run in which every `emplace` happens while some worker is alive, the
  queue is empty once all workers have exited, and every accepted task has been executed exactly
  once (`drained_executed`);
* `graceful_drain` — this holds in every run in which the calls of `submit` from outside have
  returned before `~ThreadPool` starts: a nested call belongs to a worker, which is alive;
* `submit_shutdown` — in `threadpool.h` a call of `submit` that has passed its test of `stop` may
  enqueue after the last worker has exited; a run is free of stranded tasks exactly if no
  `emplace` comes that late (`stranded_task` is a run where one does).
-/

set_option autoImplicit false

namespace CppBackend.ThreadPool

open Library.Transition Library.Tally Library.Threads Library.Mutex

/-- About to enqueue. -/
def atEmplace : Thread → Bool := inSubmit fun c => c.pc == .emplace

/-- Every worker has left `NewThread`. -/
def AllExited (s : Pool) : Prop := ∀ t ∈ s.threads, alive t = false

instance (s : Pool) : Decidable (AllExited s) :=
  inferInstanceAs (Decidable (∀ t ∈ s.threads, alive t = false))

/-- If the step enqueues a task, some worker has not left `NewThread`. -/
def liveEnqueue (s : Pool) (a : Nat × Choice) (_ : Pool) : Prop :=
  ∀ t, s.threads[a.1]? = some t → atEmplace t = true → ∃ u ∈ s.threads, alive u = true

variable {v : Source} {ok : Pool → Nat × Choice → Pool → Prop} {n m : Nat} {s : Pool}

theorem blind_alive : Blind (program v) alive := blind_of rfl rfl

/-- A worker stops being alive when it leaves; the queue grows only at an `emplace`. -/
theorem thread_alive {sh sh' : Shared} {t t' : Thread} {sig : Signal Cv}
    (h : ThreadStep v sh t sh' t' sig) :
    (t = .worker .leave ∧ sh'.queue = sh.queue) ∨
      (alive t' = alive t ∧ (sh'.queue.length ≤ sh.queue.length ∨ atEmplace t = true)) := by
  have hsub : ∀ {c : Call} {c' : Option Call}, SubmitStep sh c sh' c' sig →
      sh'.queue.length ≤ sh.queue.length ∨ (c.pc == .emplace) = true := by
    intro c c' h
    cases h with
    | emplace => exact Or.inr rfl
    | _ => exact Or.inl (le_refl _)
  cases h with
  | worker h =>
    cases h with
    | submit h => exact Or.inr ⟨rfl, hsub h⟩
    | pop hq => exact Or.inr ⟨rfl, Or.inl (by rw [hq]; exact Nat.le_succ _)⟩
    | leave => exact Or.inl ⟨rfl, rfl⟩
    | _ => exact Or.inr ⟨rfl, Or.inl (le_refl _)⟩
  | call => exact Or.inr ⟨rfl, Or.inl (le_refl _)⟩
  | submit h => exact Or.inr ⟨rfl, hsub h⟩
  | dtor h => cases h <;> exact Or.inr ⟨rfl, Or.inl (le_refl _)⟩
  | waiter h => cases h <;> exact Or.inr ⟨rfl, Or.inl (le_refl _)⟩

/-- A queued task has a worker to run it. -/
def Staffed (s : Pool) : Prop := 0 < s.shared.queue.length → 0 < tally (ind alive) s.threads

theorem staffed_init (n m : Nat) : Staffed (init n m) := fun hq => absurd hq (Nat.lt_irrefl 0)

theorem staffed_step {s' : Pool} {i : Nat} (h : Moves v s s' i) (hsaw : Each Saw s)
    (hlive : ∀ t, s.threads[i]? = some t → atEmplace t = true → ∃ u ∈ s.threads, alive u = true)
    (hi : Staffed s) : Staffed s' := by
  obtain ⟨t, t', sig, ht, hp, hd⟩ := h
  intro hq
  rw [tally_moved blind_alive.tally ht hd]
  rcases thread_alive hp with ⟨rfl, he⟩ | ⟨he, hle⟩
  · -- a worker that leaves has seen the empty queue
    have hempty : s.shared.queue = [] := (hsaw i _ ht).1
    rw [he, hempty] at hq
    exact absurd hq (Nat.lt_irrefl 0)
  · have hkeep : ind alive t' = ind alive t := by unfold ind; rw [he]
    rcases hle with hle | hem
    · have := hi (by omega)
      omega
    · obtain ⟨u, hu, ha⟩ := hlive t ht hem
      have := tally_ind_pos hu ha
      omega

theorem pool_drained (h : Runs liveEnqueue v n m s) : Staffed s :=
  h.invariant_of (fun _ h => pool_saw h) (staffed_init n m)
    fun _ _ _ hsaw hi hs hok => staffed_step (step_inv hs) hsaw hok hi

theorem empty_of_allExited (h : Staffed s) (he : AllExited s) : s.shared.queue = [] := by
  have hz : ¬ 0 < tally (ind alive) s.threads := by
    intro hpos
    obtain ⟨t, ht, ha⟩ := exists_of_tally_ind hpos
    rw [he t ht] at ha
    cases ha
  unfold Staffed at h
  exact List.eq_nil_of_length_eq_zero (by omega)

/-- Nobody holds a task any more once all workers have exited. -/
theorem not_uncounted (he : AllExited s) : s.threads.countP uncounted = 0 := by
  rw [List.countP_eq_zero]
  intro t ht hu
  have ha := he t ht
  unfold uncounted at hu
  split at hu
  · cases ha
  · cases ha
  · cases ha
  · cases hu

theorem outstanding_of_allExited (h : Staffed s) (he : AllExited s) : outstanding s = 0 := by
  unfold outstanding
  rw [empty_of_allExited h he, not_uncounted he]
  rfl

/-- **Exactly-once execution** of the accepted tasks. -/
theorem drained_executed (h : Runs liveEnqueue v n m s) (he : AllExited s) :
    ∀ x ∈ s.shared.accepted, s.shared.finished.count x = 1 := fun x hx =>
  (all_finished (pool_ledger x h) (pool_fifo h).balanced (outstanding_of_allExited (pool_drained h) he) hx).2

/-! ## Graceful shutdown -/

/-- `~ThreadPool` has started. -/
def dtorBegun : Thread → Bool
  | .dtor .idle => false
  | .dtor _ => true
  | _ => false

/-- `stop` has been stored. -/
def dtorStored : Thread → Bool
  | .dtor .unlock | .dtor .notify | .dtor .join | .dtor .done => true
  | _ => false

def outsideCall : Thread → Bool
  | .client (some _) => true
  | _ => false

/-- Once `~ThreadPool` has started, no `submit` call from outside is in progress. -/
def OutsideDone (s : Pool) : Prop :=
  (∃ t ∈ s.threads, dtorBegun t = true) → ∀ t ∈ s.threads, outsideCall t = false

def outsideDone (_ : Pool) (_ : Nat × Choice) (s' : Pool) : Prop := OutsideDone s'

theorem blind_dtorStored : Blind (program v) dtorStored := blind_of rfl rfl

theorem thread_stored {sh sh' : Shared} {t t' : Thread} {sig : Signal Cv}
    (h : ThreadStep v sh t sh' t' sig) :
    (sh'.stop = sh.stop ∧ dtorStored t' = dtorStored t) ∨ dtorStored t' = true := by
  cases h with
  | worker h =>
    cases h with
    | submit h => cases h <;> exact Or.inl ⟨rfl, rfl⟩
    | _ => exact Or.inl ⟨rfl, rfl⟩
  | call => exact Or.inl ⟨rfl, rfl⟩
  | submit h => cases h <;> exact Or.inl ⟨rfl, rfl⟩
  | dtor h =>
    cases h with
    | begin => exact Or.inl ⟨rfl, rfl⟩
    | lock => exact Or.inl ⟨rfl, rfl⟩
    | _ => exact Or.inr rfl
  | waiter h => cases h <;> exact Or.inl ⟨rfl, rfl⟩

/-- A worker has exited only after `stop` was set. -/
def Exits (sh : Shared) (t : Thread) : Prop := t = .worker .exited → sh.stop = true

theorem thread_stop_mono {sh sh' : Shared} {t t' : Thread} {sig : Signal Cv}
    (h : ThreadStep v sh t sh' t' sig) (hs : sh.stop = true) : sh'.stop = true := by
  cases h with
  | worker h =>
    cases h with
    | submit h => cases h <;> exact hs
    | _ => exact hs
  | call => exact hs
  | submit h => cases h <;> exact hs
  | dtor h =>
    cases h with
    | store => rfl
    | _ => exact hs
  | waiter h => cases h <;> exact hs

def isWorker : Thread → Bool
  | .worker _ => true
  | _ => false

/-- The workers of the pool, and what `stop` has to do with them. -/
structure Workers (n : Nat) (s : Pool) : Prop where
  count : tally (ind isWorker) s.threads = n
  exits : Each Exits s
  /-- Only `~ThreadPool` sets `stop`. -/
  stored : s.shared.stop = true → 0 < tally (ind dtorStored) s.threads

theorem workers_init (n m : Nat) : Workers n (init n m) := by
  refine ⟨by simp [init, tally_replicate, ind, isWorker], ?_, fun hs => by cases hs⟩
  intro j t ht he
  subst he
  rcases init_threads (List.mem_of_getElem? ht) with h | h | h | h <;> cases h

theorem exits_step {s' : Pool} {i : Nat} (h : Moves v s s' i) (hsaw : Each Saw s)
    (hi : Each Exits s) : Each Exits s' := by
  refine each_step h ?_ ?_ (fun _ _ he => by cases he) (fun _ _ he => by cases he)
  · intro t sh' t' sig ht hp he
    subst he
    cases leave_of_exited hp
    exact thread_stop_mono hp (hsaw i _ ht).2
  · intro t sh' t' sig j u _ hp _ hu he
    exact thread_stop_mono hp (hi j u hu he)

theorem stored_step {s' : Pool} {i : Nat} (h : Moves v s s' i)
    (hi : s.shared.stop = true → 0 < tally (ind dtorStored) s.threads) (hst : s'.shared.stop = true) :
    0 < tally (ind dtorStored) s'.threads := by
  obtain ⟨t, t', sig, ht, hp, hd⟩ := h
  rw [tally_moved blind_dtorStored.tally ht hd]
  have hle := le_tally (ind_nonneg dtorStored) (List.mem_of_getElem? ht)
  rcases thread_stored hp with ⟨he, hk⟩ | hk
  · have hkeep : ind dtorStored t' = ind dtorStored t := by unfold ind; rw [hk]
    have := hi (he ▸ hst)
    omega
  · rw [ind_of_true hk]
    omega

theorem workers_step {s' : Pool} {i : Nat} (h : Moves v s s' i) (hsaw : Each Saw s)
    (hi : Workers n s) : Workers n s' where
  count := (kind_step (fun h => by cases h <;> rfl) (blind_of rfl rfl) h).trans hi.count
  exits := exits_step h hsaw hi.exits
  stored := stored_step h hi.stored

theorem pool_workers (h : Runs ok v n m s) : Workers n s :=
  h.invariant_of (fun _ h => pool_saw h) (workers_init n m)
    fun _ _ _ hsaw hi hs _ => workers_step (step_inv hs) hsaw hi

theorem begun_of_stop (h : Workers n s) (hs : s.shared.stop = true) :
    ∃ t ∈ s.threads, dtorBegun t = true := by
  obtain ⟨t, ht, hst⟩ := exists_of_tally_ind (h.stored hs)
  refine ⟨t, ht, ?_⟩
  unfold dtorStored at hst
  split at hst
  · rfl
  · rfl
  · rfl
  · rfl
  · cases hst

/-- While `stop` is not set, every worker is alive. -/
theorem alive_of_running (h : Workers n s) (hn : 0 < n) (hs : s.shared.stop = false) :
    ∃ u ∈ s.threads, alive u = true := by
  have hw := h.count
  obtain ⟨t, ht, hp⟩ := exists_of_tally_ind (p := isWorker) (l := s.threads) (by omega)
  refine ⟨t, ht, ?_⟩
  have hex := h.exits.mem ht
  unfold isWorker at hp
  split at hp
  · rename_i w
    cases w with
    | exited => rw [hex rfl] at hs; cases hs
    | _ => rfl
  · cases hp

theorem outsideDone_init (n m : Nat) : OutsideDone (init n m) := by
  rintro ⟨t, ht, hb⟩
  rcases init_threads ht with rfl | rfl | rfl | rfl <;> cases hb

theorem pool_outsideDone (h : Runs outsideDone v n m s) : OutsideDone s :=
  h.invariant (outsideDone_init n m) fun _ _ _ _ _ hok => hok

/-- **A nested call has a worker, an outside call comes before the shutdown.** -/
theorem live_of_outside (h : Workers n s) (hn : 0 < n) (hout : OutsideDone s) {t : Thread}
    (ht : t ∈ s.threads) (hem : atEmplace t = true) : ∃ u ∈ s.threads, alive u = true := by
  unfold atEmplace inSubmit at hem
  split at hem
  · -- the worker that runs the calling task
    exact ⟨_, ht, rfl⟩
  · -- a call from outside: `~ThreadPool` has not started, so no worker has exited
    cases hst : s.shared.stop with
    | false => exact alive_of_running h hn hst
    | true =>
      have hd := hout (begun_of_stop h hst) _ ht
      cases hd
  · cases hem

theorem live_of_outsideDone (hn : 0 < n) (h : Runs outsideDone v n m s) :
    Runs liveEnqueue v n m s := by
  refine Reach.refine (fun s a s' hr _ _ t ht hem => ?_) h
  exact live_of_outside (pool_workers hr) hn (pool_outsideDone hr) (List.mem_of_getElem? ht) hem

theorem stop_of_allExited (h : Workers n s) (hn : 0 < n) (he : AllExited s) :
    s.shared.stop = true := by
  cases hst : s.shared.stop with
  | true => rfl
  | false =>
    obtain ⟨u, hu, ha⟩ := alive_of_running h hn hst
    rw [he u hu] at ha
    cases ha

/-- No call of `submit` is in progress when all workers have exited and no outside call is
    allowed any more. -/
theorem not_pending (h : Workers n s) (hn : 0 < n) (hout : OutsideDone s) (he : AllExited s) (x : Nat) :
    tally (ind (pending x)) s.threads = 0 := by
  have hd := hout (begun_of_stop h (stop_of_allExited h hn he))
  have hz : ∀ t ∈ s.threads, ind (pending x) t = (fun _ => 0 : Thread → Int) t := by
    intro t ht
    refine ind_of_false ?_
    cases hp : pending x t with
    | false => rfl
    | true =>
      unfold pending inSubmit at hp
      split at hp
      · have := he _ ht; cases this
      · have := hd _ ht; cases this
      · cases hp
  rw [tally_congr hz]
  simp [tally]

/-- A task whose call of `submit` is over has been accepted, unless it was rejected. -/
theorem accepted_of_submitted {x : Nat} (h : Ledger x s) (hp : tally (ind (pending x)) s.threads = 0)
    (hx : x < s.shared.next) (hr : x ∉ s.shared.rejected) : x ∈ s.shared.accepted := by
  have hsub := h.submitted
  rw [if_pos hx, hp, List.count_eq_zero_of_not_mem hr] at hsub
  exact List.count_pos_iff.mp (by omega)

/-- No task is started or finished twice. -/
theorem executed_once {x : Nat} (h : Ledger x s) (hb : Balanced s.shared) :
    s.shared.started.count x ≤ 1 ∧ s.shared.finished.count x ≤ 1 := by
  obtain ⟨h1, h2, h3⟩ := h
  have hf := List.Perm.count_eq hb x
  rw [List.count_append] at hf
  have p1 : 0 ≤ tally (ind (pending x)) s.threads := tally_nonneg (ind_nonneg _)
  have p2 : 0 ≤ tally (ind (holding x)) s.threads := tally_nonneg (ind_nonneg _)
  have p3 : 0 ≤ tally (ind (running x)) s.threads := tally_nonneg (ind_nonneg _)
  split at h1 <;> omega

/-- **Graceful drain with exactly-once execution**, for a pool with at least one worker and every
    run in which the calls of `submit` from outside have returned before `~ThreadPool` starts:
    tasks are dequeued in the order in which they were enqueued; no task is executed twice; and
    when all workers have left `NewThread`, the queue is empty and every submitted task that was
    not rejected has been executed exactly once. -/
theorem graceful_drain (n m : Nat) (hn : 0 < n) (s : Pool)
    (h : Runs outsideDone threadpoolH n m s) :
    s.shared.accepted = s.shared.dequeued ++ s.shared.queue ∧
    (∀ x, s.shared.started.count x ≤ 1 ∧ s.shared.finished.count x ≤ 1) ∧
    (AllExited s → s.shared.queue = [] ∧
      ∀ x < s.shared.next, x ∉ s.shared.rejected →
        x ∈ s.shared.accepted ∧ s.shared.started.count x = 1 ∧ s.shared.finished.count x = 1) := by
  have honce : ∀ x, s.shared.started.count x ≤ 1 ∧ s.shared.finished.count x ≤ 1 := fun x =>
    executed_once (pool_ledger x h) (pool_fifo h).balanced
  refine ⟨pool_fifo h, honce, fun he => ?_⟩
  have hlive := live_of_outsideDone hn h
  refine ⟨empty_of_allExited (pool_drained hlive) he, fun x hx hr => ?_⟩
  have hl := pool_ledger x h
  have hpend := not_pending (pool_workers h) hn (pool_outsideDone h) he x
  have hmem := accepted_of_submitted hl hpend hx hr
  exact ⟨hmem, all_finished hl (pool_fifo h).balanced
    (outstanding_of_allExited (pool_drained hlive) he) hmem⟩

instance : ∀ s a s', Decidable (outsideDone s a s') := fun _ _ s' =>
  inferInstanceAs (Decidable ((∃ t ∈ s'.threads, dtorBegun t = true) →
    ∀ t ∈ s'.threads, outsideCall t = false))

/-- Thread 1 submits a task, which submits another one; the worker finishes both, after
    `~ThreadPool` (thread 2) has set `stop`, and exits. -/
def nestedRun : List (Nat × Choice) :=
  submitOnce threadpoolH ++ List.replicate 4 (0, .go) ++ List.replicate 2 (0, .other) ++
    List.replicate 5 (2, .go) ++ List.replicate 20 (0, .go)

theorem graceful_drain_nested :
    ((exec (guarded outsideDone (step threadpoolH)) (init 1 1) nestedRun).get
      (by decide)).shared.finished.count 1 = 1 := by
  have h := (graceful_drain 1 1 (by decide) _ (exec_guarded_get nestedRun (by decide))).2.2
    (by decide)
  exact (h.2 1 (by decide) (by decide)).2.2

/-! ## Submission against shutdown -/

/-- What `submit` and the shutdown promise together: a rejected task is never enqueued, one
    message is printed for each rejection, and once all workers have exited every accepted task
    has been executed and none is queued. -/
structure SubmitAtomic (s : Pool) : Prop where
  rejected : ∀ x ∈ s.shared.rejected, x ∉ s.shared.accepted
  messages : s.shared.cerr = List.replicate s.shared.rejected.length stoppedMessage
  executed : AllExited s →
    s.shared.queue = [] ∧ ∀ x ∈ s.shared.accepted, s.shared.finished.count x = 1

/-- A rejection prints the message and leaves the queue and `task_count` as they are. -/
def Rejects (sh sh' : Shared) : Prop :=
  sh'.rejected = sh.rejected ∧ sh'.cerr = sh.cerr ∨
    ∃ x, sh'.rejected = sh.rejected ++ [x] ∧ sh'.cerr = sh.cerr ++ [stoppedMessage] ∧
      sh'.queue = sh.queue ∧ sh'.taskCount = sh.taskCount ∧ sh'.accepted = sh.accepted

theorem thread_rejects {sh sh' : Shared} {t t' : Thread} {sig : Signal Cv}
    (h : ThreadStep v sh t sh' t' sig) : Rejects sh sh' := by
  have hsub : ∀ {c : Call} {c' : Option Call}, SubmitStep sh c sh' c' sig → Rejects sh sh' := by
    intro c c' h
    cases h with
    | @reject t => exact Or.inr ⟨t, rfl, rfl, rfl, rfl, rfl⟩
    | _ => exact Or.inl ⟨rfl, rfl⟩
  cases h with
  | worker h =>
    cases h with
    | submit h => exact hsub h
    | _ => exact Or.inl ⟨rfl, rfl⟩
  | call => exact Or.inl ⟨rfl, rfl⟩
  | submit h => exact hsub h
  | dtor h => cases h <;> exact Or.inl ⟨rfl, rfl⟩
  | waiter h => cases h <;> exact Or.inl ⟨rfl, rfl⟩

theorem step_rejects {s' : Pool} {a : Nat × Choice} (h : step v s a = some s') :
    Rejects s.shared s'.shared := by
  obtain ⟨t, t', sig, _, hp, _⟩ := step_inv h
  exact thread_rejects hp

theorem pool_messages (h : Runs ok v n m s) :
    s.shared.cerr = List.replicate s.shared.rejected.length stoppedMessage := by
  refine Reach.invariant (I := fun s : Pool =>
    s.shared.cerr = List.replicate s.shared.rejected.length stoppedMessage) rfl ?_ h
  intro s a s' hi hs _
  rcases step_rejects hs with ⟨hr, hc⟩ | ⟨x, hr, hc, _⟩
  · rw [hr, hc, hi]
  · rw [hr, hc, hi, List.length_append, List.length_singleton, List.replicate_succ']

theorem not_accepted_of_rejected (h : Runs ok v n m s) {x : Nat} (hx : x ∈ s.shared.rejected) :
    x ∉ s.shared.accepted := by
  intro ha
  have hsub := (pool_ledger x h).submitted
  have h1 : 0 < s.shared.rejected.count x := List.count_pos_iff.mpr hx
  have h2 : 0 < s.shared.accepted.count x := List.count_pos_iff.mpr ha
  have h3 : 0 ≤ tally (ind (pending x)) s.threads := tally_nonneg (ind_nonneg _)
  split at hsub <;> omega

/-- A task enqueued when all workers have exited stays in the queue. -/
theorem live_of_atomic (s : Pool) (a : Nat × Choice) (s' : Pool) (h : step v s a = some s')
    (hs' : SubmitAtomic s') : liveEnqueue s a s' := by
  intro t ht hem
  by_contra hno
  obtain ⟨t₁, t', sig, ht₁, hp, hd⟩ := step_inv h
  rw [ht, Option.some.injEq] at ht₁
  subst ht₁
  have hdead : tally (ind alive) s.threads ≤ 0 := by
    by_contra hpos
    exact hno (exists_of_tally_ind (not_le.mp hpos))
  have hkeep : alive t' = alive t := by
    rcases thread_alive hp with ⟨rfl, _⟩ | ⟨he, _⟩
    · cases hem
    · exact he
  have hdead' : tally (ind alive) s'.threads ≤ 0 := by
    rw [tally_moved blind_alive.tally ht hd]
    have : ind alive t' = ind alive t := by unfold ind; rw [hkeep]
    omega
  have hex : AllExited s' := by
    intro u hu
    cases ha : alive u with
    | false => rfl
    | true =>
      have := tally_ind_pos hu ha
      omega
  have hq := (hs'.executed hex).1
  have hne : s'.shared.queue ≠ [] := by
    generalize s'.shared = sh' at hp
    unfold atEmplace inSubmit at hem
    split at hem
    · cases hp with
      | worker hw =>
        cases hw with
        | submit h => cases h <;> first | exact List.append_ne_nil_of_right_ne_nil _ (List.cons_ne_nil _ _) | cases hem
    · cases hp with
      | submit h => cases h <;> first | exact List.append_ne_nil_of_right_ne_nil _ (List.cons_ne_nil _ _) | cases hem
    · cases hem
  exact hne hq

/-- **`submit` against `~ThreadPool`** in `threadpool.h`.  A rejection prints the message and
    changes neither the queue nor `task_count`.  A run keeps the promise of `SubmitAtomic` in
    every state exactly if each of its `emplace` steps is taken while some worker has not left
    `NewThread`: the test of `stop` stands outside the mutex, so a call may pass it and enqueue
    after the last worker has seen `stop` and the empty queue. -/
theorem submit_shutdown (n m : Nat) :
    (∀ s s' a, Runs anyStep threadpoolH n m s → step threadpoolH s a = some s' →
      Rejects s.shared s'.shared) ∧
    ∀ as, Stays SubmitAtomic (step threadpoolH) (init n m) as ↔
      Allowed liveEnqueue (step threadpoolH) (init n m) as := by
  refine ⟨fun s s' a _ hs => step_rejects hs, fun as => ⟨?_, ?_⟩⟩
  · exact Stays.allowed (fun s a s' _ => live_of_atomic s a s') as Reach.refl
  · refine Allowed.stays (fun s h => ?_) as Reach.refl
    exact ⟨fun x hx => not_accepted_of_rejected h hx, pool_messages h,
      fun he => ⟨empty_of_allExited (pool_drained h) he, drained_executed h he⟩⟩

/-- Thread 1 passes the test of `stop`; `~ThreadPool` (thread 2) sets `stop` and notifies; the
    worker sees `stop` and the empty queue and exits; then thread 1 enqueues and counts. -/
def strandedRun : List (Nat × Choice) :=
  List.replicate 2 (1, .go) ++ List.replicate 5 (2, .go) ++ List.replicate 4 (0, .go) ++
    List.replicate 3 (1, .go)

/-- An accepted task is left in the queue, `task_count` is 1 and no worker is left. -/
theorem stranded_task :
    ∃ s, Runs anyStep threadpoolH 1 1 s ∧ AllExited s ∧ s.shared.accepted = [0] ∧
      s.shared.queue = [0] ∧ s.shared.taskCount = 1 ∧ s.shared.rejected = [] ∧
      s.shared.finished = [] :=
  ⟨(exec (step threadpoolH) (init 1 1) strandedRun).get (by decide),
    exec_reach_get strandedRun (by decide), by decide, by decide, by decide, by decide, by decide,
    by decide⟩

end CppBackend.ThreadPool
