import CppBackend.PriThreadPool.Priority

/-!
# Tasks that throw

Whether a task returns or throws, its worker goes on to count it off, so for the laws of the pool a run in
which tasks throw is one in which they return (`step_plain`).  Hence the counter keeps standing for the
outstanding tasks, a worker exits only through `stop` with an empty queue (`exits_by_leaving`), and a
shutdown after the last call of `submit` from outside leaves nothing behind (`throwing_pool`).
-/

set_option autoImplicit false

namespace CppBackend.PriThreadPool

open Library.Transition Library.Tally Library.Threads Library.Mutex Library.Priority
open ThreadPool (Shared Worker threadPoolCpp Accepts Staffed OutsideDone AllExited outstanding inSection)

variable {pri : Nat → Int32} {Q : TaskQueue pri} {n m : Nat} {s : PriPool}
  {ok : PriPool → Nat × Choice → PriPool → Prop}

/-- After every step: once `~ThreadPool` has started, no `submit` call from outside is in progress. -/
def outsideDone (_ : PriPool) (_ : Nat × Choice) (s' : PriPool) : Prop := OutsideDone (plain s')

/-! ## The end of a worker -/

theorem thread_exits {sh sh' : Shared} {t t' : Thread} {sig : Signal ThreadPool.Cv}
    (h : ThreadStep Q sh t sh' t' sig) (he : t' = .pool (.worker .exited)) :
    t = .pool (.worker .leave) := by
  cases h with
  | emplace h => cases he; rw [ThreadPool.leave_of_exited h]
  | plain h => cases he; rw [ThreadPool.leave_of_exited h]
  | _ => cases he

/-- **A worker exits only when `stop` is set and the queue is empty.** -/
theorem exits_by_leaving {s' : PriPool} {a : Nat × Choice} (h : step Q s a = some s')
    (hs : Sound Q n s) {j : Nat} (hj : s'.threads[j]? = some (.pool (.worker .exited))) :
    s.threads[j]? = some (.pool (.worker .exited)) ∨
      s.threads[j]? = some (.pool (.worker .leave)) ∧ s.shared.stop = true ∧ s.shared.queue = [] := by
  obtain ⟨t, t', sig, ht, hp, hd⟩ := Library.Threads.step_inv h
  rcases hd.origin hj with hset | ⟨c, u, _, hsleep, hwake⟩
  · rw [List.getElem?_set] at hset
    split at hset
    · rename_i hij
      split at hset
      · cases hset
        have hleave := thread_exits (threadStep_inv hp) rfl
        rw [hij, hleave] at ht
        obtain ⟨hq, hst⟩ := hs.laws.saw j _ (plain_get ht)
        exact Or.inr ⟨ht, hst, hq⟩
      · cases hset
    · exact Or.inl hset
  · cases u with
    | pool u =>
      rcases ThreadPool.asleep_cases (v := threadPoolCpp) hsleep with ⟨_, rfl⟩ | ⟨_, rfl⟩
      · cases hwake
      · cases hwake
    | copied t => cases c <;> cases hsleep

/-! ## The shutdown -/

theorem pool_accepts (h : Runs ok Q n m s) : Accepts (plain s) := by
  refine Reach.invariant_of (fun _ h => pool_sound h) (I := fun s => Accepts (plain s)) ?_ ?_ h
  · rw [plain_init]
    exact ThreadPool.accepts_init n m
  · intro s a s' hsound hi hs _
    rcases step_plain hs hsound.copied with he | ⟨p, lines, hm, _, he⟩
    · rw [he]
      exact hi
    · rw [he]
      exact (hi.moves rfl hm).rearranged _ lines

theorem pool_outsideDone (h : Runs outsideDone Q n m s) : OutsideDone (plain s) := by
  refine Reach.invariant (I := fun s => OutsideDone (plain s)) ?_ (fun _ _ _ _ _ hok => hok) h
  rw [plain_init]
  exact ThreadPool.outsideDone_init n m

theorem pool_staffed (hn : 0 < n) (h : Runs outsideDone Q n m s) : Staffed (plain s) := by
  refine Reach.invariant_of (K := fun s => Sound Q n s ∧ OutsideDone (plain s))
    (fun _ h => ⟨pool_sound h, pool_outsideDone h⟩) (I := fun s => Staffed (plain s)) ?_ ?_ h
  · rw [plain_init]
    exact ThreadPool.staffed_init n m
  · rintro s a s' ⟨hsound, hout⟩ hi hs _
    rcases step_plain hs hsound.copied with he | ⟨p, lines, hm, hq, he⟩
    · rw [he]
      exact hi
    · rw [he]
      have hlive : ∀ t, (plain s).threads[a.1]? = some t → ThreadPool.atEmplace t = true →
          ∃ u ∈ (plain s).threads, ThreadPool.alive u = true := fun t ht hem =>
        ThreadPool.live_of_outside hsound.laws.workers hn hout (List.mem_of_getElem? ht) hem
      exact (ThreadPool.staffed_step hm hsound.laws.saw hlive hi).rearranged hq lines

/-- **Throwing tasks do not disturb the pool**: in every run of a pool with at least one worker in which any
    tasks throw and the calls of `submit` from outside have returned before `~ThreadPool` starts, as far as
    an `int` counts: while no `submit` is in its critical section, `task_count` is the number of tasks
    queued or popped and not yet counted off; a worker exits only when it has taken the `break`, with
    `stop` set and the queue empty; and when all workers have exited, every submitted task has been
    started exactly once, and `task_count` is 0. -/
theorem throwing_pool (Q : TaskQueue pri) (n m : Nat) (hn : 0 < n) (s : PriPool)
    (h : Runs outsideDone Q n m s) :
    ((plain s).threads.countP inSection = 0 → outstanding (plain s) < 2 ^ 31 →
      s.shared.taskCount.toInt = outstanding (plain s)) ∧
    (∀ (a : Nat × Choice) (s' : PriPool) (j : Nat), step Q s a = some s' →
      s'.threads[j]? = some (.pool (.worker .exited)) →
      s.threads[j]? = some (.pool (.worker .exited)) ∨
        s.threads[j]? = some (.pool (.worker .leave)) ∧ s.shared.stop = true ∧ s.shared.queue = []) ∧
    (AllExited (plain s) → s.shared.queue = [] ∧ s.shared.taskCount = 0 ∧
      ∀ x < s.shared.next, s.shared.started.count x = 1) := by
  have hsound := pool_sound h
  obtain ⟨_, _, hcounted, hadded, hledger, hbal, hworkers⟩ := hsound.laws
  refine ⟨fun hsec hb => ThreadPool.count_of_outstanding hcounted hadded hb hsec,
    fun a s' j hs hj => exits_by_leaving hs hsound hj, fun he => ?_⟩
  have hstaffed := pool_staffed hn h
  have hnone := ThreadPool.outstanding_of_allExited hstaffed he
  refine ⟨ThreadPool.empty_of_allExited hstaffed he,
    ThreadPool.zero_of_outstanding hcounted hadded hnone, fun x hx => ?_⟩
  have hrej : x ∉ (plain s).shared.rejected := by
    rw [(pool_accepts h).rejected]
    exact List.not_mem_nil
  have hpend := ThreadPool.not_pending hworkers hn (pool_outsideDone h) he x
  have hmem := ThreadPool.accepted_of_submitted (hledger x) hpend hx hrej
  exact (ThreadPool.all_finished (hledger x) hbal hnone hmem).1

instance : ∀ s a s', Decidable (outsideDone s a s') := fun _ _ s' =>
  inferInstanceAs (Decidable ((∃ t ∈ (plain s').threads, ThreadPool.dtorBegun t = true) →
    ∀ t ∈ (plain s').threads, ThreadPool.outsideCall t = false))

/-- Thread 1 submits a task, which submits another one and throws; `~ThreadPool` (thread 2) sets `stop`; the
    other task throws too, and the worker exits. -/
def throwingRun : List (Nat × Choice) :=
  submitOnce ++ List.replicate 5 (0, .pool .go) ++ List.replicate 6 (0, .pool .other) ++
    [(0, .throws (some "bad_alloc"))] ++ List.replicate 2 (0, .pool .go) ++
    List.replicate 5 (2, .pool .go) ++ List.replicate 5 (0, .pool .go) ++ [(0, .throws none)] ++
    List.replicate 9 (0, .pool .go)

theorem throwing_pool_nested :
    ((exec (guarded outsideDone (step (sortedQueue laterFirst))) (init 1 1) throwingRun).get
      (by decide)).shared.started.count 1 = 1 := by
  have h := (throwing_pool (sortedQueue laterFirst) 1 1 (by decide) _
    (exec_guarded_get throwingRun (by decide))).2.2 (by decide)
  exact h.2.2 1 (by decide)

/-! ## The width of the counter -/

/-- The queue after the tasks below `k` have been submitted. -/
def fill (Q : TaskQueue pri) : Nat → List Nat
  | 0 => []
  | k + 1 => Q.push (fill Q k) k

theorem fill_length (k : Nat) : (fill Q k).length = k := by
  induction k with
  | zero => rfl
  | succ k ih =>
    have hlen := (Q.push_perm (fill Q k) k).length_eq
    rw [List.length_append, ih] at hlen
    exact hlen

/-- `k` tasks have been submitted; the worker has not been scheduled yet. -/
def loaded (Q : TaskQueue pri) (k : Nat) : PriPool :=
  ⟨{ Shared.init with queue := fill Q k, taskCount := Int32.ofNat k, next := k,
                      accepted := List.range k },
    [.pool (.worker .top), .pool (.client none), .pool (.dtor .idle), .pool (.waiter .idle)]⟩

theorem exec_submitOnce (k : Nat) :
    exec (guarded outsideDone (step Q)) (loaded Q k) submitOnce = some (loaded Q (k + 1)) := by
  have hsucc : loaded Q (k + 1) =
      ⟨{ Shared.init with queue := Q.push (fill Q k) k, taskCount := Int32.ofNat k + 1, next := k + 1,
                          accepted := List.range k ++ [k] },
        [.pool (.worker .top), .pool (.client none), .pool (.dtor .idle), .pool (.waiter .idle)]⟩ := by
    unfold loaded
    rw [List.range_succ, Int32.ofNat_add]
    rfl
  rw [hsucc]
  rfl

theorem runs_loaded (k : Nat) : Runs outsideDone Q 1 1 (loaded Q k) := by
  induction k with
  | zero => exact Reach.refl
  | succ k ih => exact ih.trans (exec_guarded_reach _ (exec_submitOnce k))

theorem loaded_section (k : Nat) : (plain (loaded Q k)).threads.countP inSection = 0 := rfl

theorem loaded_count (k : Nat) : (loaded Q k).shared.taskCount = Int32.ofNat k := rfl

theorem loaded_outstanding (k : Nat) : outstanding (plain (loaded Q k)) = k := fill_length k

/-- The counter is an `int`: after `2^31` submissions it is negative, while no `submit` is in progress. -/
theorem throwing_pool_wraps :
    Runs outsideDone (sortedQueue fun _ => 0) 1 1 (loaded (sortedQueue fun _ => 0) (2 ^ 31)) ∧
      (plain (loaded (sortedQueue fun _ => 0) (2 ^ 31))).threads.countP inSection = 0 ∧
      (loaded (sortedQueue fun _ => 0) (2 ^ 31)).shared.taskCount.toInt = -2 ^ 31 ∧
      outstanding (plain (loaded (sortedQueue fun _ => 0) (2 ^ 31))) = 2 ^ 31 := by
  refine ⟨runs_loaded _, loaded_section _, ?_, loaded_outstanding _⟩
  rw [loaded_count]
  decide

end CppBackend.PriThreadPool
