import CppBackend.ThreadPool.Counter

/-!
# No lost wake-up on `cv`

`submit` enqueues under `mtx` and notifies after it has given `mtx` back; in between, the task may
be taken by a worker that never slept, and a sleeper may wake spuriously.

* `pool_covered` — while some worker is asleep, every queued task is covered by a `submit` call
  whose `notify_one` is still to come or by a worker that is awake and on its way to the predicate
  (or past it, with `mtx` held);
* `pool_warned` — while some worker is asleep and `stop` is set, `notify_all` is still to come;
* `no_lost_wakeup` — both, for the states in which `mtx` is free.
-/

set_option autoImplicit false

namespace CppBackend.ThreadPool

open Library.Transition Library.Tally Library.Threads Library.Mutex

/-- Asleep in `cv.wait`. -/
def sleeping : Thread → Bool
  | .worker .sleep => true
  | _ => false

/-- Has enqueued and not yet executed `notify_one`. -/
def mustNotify : Thread → Bool :=
  inSubmit fun c => c.pc == .add || c.pc == .unlock || c.pc == .notify

/-- A worker that is awake, busy with no task, and about to test the predicate of `cv.wait`. -/
def retesting : Thread → Bool
  | .worker .top | .worker .woken | .worker .pred => true
  | _ => false

/-- About to test the predicate, or behind `cv.wait` with `mtx` still held. -/
def hunting : Thread → Bool
  | .worker .check => true
  | t => retesting t

/-- `~ThreadPool` has stored `stop` and not yet executed `notify_all`. -/
def mustNotifyAll : Thread → Bool
  | .dtor .unlock | .dtor .notify => true
  | _ => false

variable {v : Source} {ok : Pool → Nat × Choice → Pool → Prop} {n m : Nat} {s : Pool}

theorem asleep_sleeping (t : Thread) : (program v).asleep .cv t = sleeping t := by
  cases t with
  | worker w => cases w <;> rfl
  | client c => rfl
  | dtor d => rfl
  | waiter w => cases w <;> rfl

/-! ## Who sleeps after a signal -/

/-- A signal puts nobody to sleep. -/
theorem sleeping_delivered {sig : Signal Cv} {ts ts' : List Thread}
    (h : Delivered (program v) sig ts ts') :
    tally (ind sleeping) ts' ≤ tally (ind sleeping) ts := by
  refine tally_delivered_le (fun c t ht => ?_) h
  rcases asleep_cases ht with ⟨_, rfl⟩ | ⟨_, rfl⟩
  · exact show (0 : Int) ≤ 1 by decide
  · exact le_refl _

/-- Nobody sleeps behind `notify_all`. -/
theorem sleeping_all {ts ts' : List Thread} (h : Delivered (program v) (.all .cv) ts ts') :
    tally (ind sleeping) ts' = 0 := by
  refine tally_all (fun t ht => ?_) (fun t ht => ?_) h
  · rw [asleep_sleeping] at ht
    exact ind_of_false ht
  · rcases asleep_cases ht with ⟨_, rfl⟩ | ⟨hc, _⟩
    · rfl
    · cases hc

/-- A worker falls asleep only on an empty queue with `stop` not set. -/
theorem thread_sleeping {sh sh' : Shared} {t t' : Thread} {sig : Signal Cv}
    (h : ThreadStep v sh t sh' t' sig) (hsaw : Saw sh t) :
    ind sleeping t' ≤ ind sleeping t ∨ (sh'.queue = [] ∧ sh'.stop = false) := by
  cases h with
  | worker h =>
    cases h with
    | sleep => exact Or.inr hsaw
    | spurious => exact Or.inl (by decide)
    | _ => exact Or.inl (le_refl _)
  | dtor h => cases h <;> exact Or.inl (le_refl _)
  | waiter h => cases h <;> exact Or.inl (le_refl _)
  | _ => exact Or.inl (le_refl _)

/-- Either the sleepers become no more, or the queue is empty and `stop` not set. -/
theorem step_sleeping {s' : Pool} {i : Nat} {t t' : Thread} {sig : Signal Cv}
    (hsaw : Each Saw s) (ht : s.threads[i]? = some t)
    (hp : ThreadStep v s.shared t s'.shared t' sig)
    (hd : Delivered (program v) sig (s.threads.set i t') s'.threads) :
    tally (ind sleeping) s'.threads ≤ tally (ind sleeping) s.threads ∨
      (s'.shared.queue = [] ∧ s'.shared.stop = false) := by
  rcases thread_sleeping hp (hsaw i t ht) with hle | hq
  · have h := sleeping_delivered hd
    rw [tally_set ht] at h
    exact Or.inl (by omega)
  · exact Or.inr hq

/-! ## Queued tasks -/

/-- The tasks that a thread answers for. -/
def cover (t : Thread) : Int := ind mustNotify t + ind hunting t

/-- While some worker is asleep, every queued task is answered for. -/
def Covered (s : Pool) : Prop :=
  0 < tally (ind sleeping) s.threads → (s.shared.queue.length : Int) ≤ tally cover s.threads

/-- A woken worker answers for a task. -/
theorem cover_one {j : Option Nat} {ts ts' : List Thread}
    (h : Delivered (program v) (.one .cv j) ts ts') :
    tally (ind sleeping) ts' = 0 ∨ tally cover ts' = tally cover ts + 1 := by
  cases h with
  | nobody h =>
    refine Or.inl ?_
    rw [tally_congr (g := fun _ => 0)]
    · simp [tally]
    · intro t ht
      have hn := h t ht
      rw [asleep_sleeping] at hn
      exact ind_of_false hn
  | one ht hs =>
    refine Or.inr ?_
    rw [tally_set ht]
    rcases asleep_cases hs with ⟨_, rfl⟩ | ⟨hc, _⟩
    · show tally cover ts - 0 + 1 = _
      omega
    · cases hc

/-- No signal takes an answer away. -/
theorem cover_delivered {sig : Signal Cv} {ts ts' : List Thread}
    (h : Delivered (program v) sig ts ts') : tally cover ts ≤ tally cover ts' := by
  refine tally_delivered_ge (fun c t ht => ?_) h
  rcases asleep_cases ht with ⟨_, rfl⟩ | ⟨_, rfl⟩
  · exact show (0 : Int) ≤ 1 by decide
  · exact le_refl _

/-- What a step does to the queue and to the moving thread's answer. -/
inductive CoverStep (sh : Shared) (t : Thread) (sh' : Shared) (t' : Thread) : Signal Cv → Prop where
  /-- The queue grows at most as the answer does. -/
  | keeps {sig : Signal Cv}
      (h : (sh'.queue.length : Int) + cover t ≤ sh.queue.length + cover t') :
      CoverStep sh t sh' t' sig
  /-- The `notify_one` of a `submit` call. -/
  | notifies {j : Option Nat}
      (h : (sh'.queue.length : Int) + cover t ≤ sh.queue.length + cover t' + 1) :
      CoverStep sh t sh' t' (.one .cv j)
  | empty {sig : Signal Cv} (h : sh'.queue = []) : CoverStep sh t sh' t' sig

theorem submit_cover {sh sh' : Shared} {c : Call} {c' : Option Call} {sig : Signal Cv}
    (h : SubmitStep sh c sh' c' sig) {f : Option Call → Thread} (hn : cover (f none) = 0)
    (hf : ∀ d, cover (f (some d)) =
      if d.pc == .add || d.pc == .unlock || d.pc == .notify then 1 else 0) :
    CoverStep sh (f (some c)) sh' (f c') sig := by
  cases h with
  | notify => exact .notifies (by rw [hn, hf]; simp)
  | reject => exact .keeps (by rw [hn, hf]; simp)
  | _ => exact .keeps (by rw [hf, hf]; simp)

theorem thread_cover {sh sh' : Shared} {t t' : Thread} {sig : Signal Cv}
    (h : ThreadStep v sh t sh' t' sig) (hsaw : Saw sh t) : CoverStep sh t sh' t' sig := by
  have hcall : ∀ f : Option Call → Thread, cover (f none) = 0 → (∀ d, 0 ≤ cover (f (some d))) →
      CoverStep sh (f none) (callSubmit v sh).1 (f (some (callSubmit v sh).2)) .quiet := by
    intro f hn hf
    refine .keeps ?_
    rw [hn]
    have := hf (callSubmit v sh).2
    show (sh.queue.length : Int) + 0 ≤ sh.queue.length + _
    omega
  have hnonneg : ∀ t, 0 ≤ cover t := fun t =>
    Int.add_nonneg (ind_nonneg mustNotify t) (ind_nonneg hunting t)
  have hmore : ∀ {sh' : Shared} {w : Worker} {t' : Thread} {sig : Signal Cv},
      sh'.queue = sh.queue → cover (.worker w) ≤ cover t' →
      CoverStep sh (.worker w) sh' t' sig := by
    intro sh' w t' sig hq hc
    refine .keeps ?_
    rw [hq]
    omega
  cases h with
  | worker h =>
    cases h with
    | @submit _ t _ _ _ h =>
      exact submit_cover h (f := fun c => .worker (.run t c)) rfl
        (fun _ => Int.add_zero _)
    | @call t => exact hcall (fun c => .worker (.run t c)) rfl (fun _ => hnonneg _)
    | unready hq => exact .empty hq
    | sleep => exact .empty hsaw.1
    | stop _ hq => exact .empty hq
    | again hq => exact .empty hq
    | @pop t q hq =>
      refine .keeps ?_
      show (q.length : Int) + 1 ≤ sh.queue.length + 0
      rw [hq, List.length_cons]
      push_cast
      omega
    | start => exact hmore rfl (le_refl _)
    | finish => exact hmore rfl (le_refl _)
    | _ => exact hmore rfl (by decide)
  | call => exact hcall .client rfl (fun _ => hnonneg _)
  | submit h => exact submit_cover h (f := .client) rfl (fun _ => Int.add_zero _)
  | dtor h => cases h <;> exact .keeps (by simp [cover, ind, mustNotify, inSubmit, hunting, retesting])
  | waiter h => cases h <;> exact .keeps (by simp [cover, ind, mustNotify, inSubmit, hunting, retesting])

/-- **No queued task is forgotten.** -/
theorem pool_covered (h : Runs ok v n m s) : Covered s := by
  refine Reach.invariant_of (fun s h => pool_saw h) (I := Covered) ?_ ?_ h
  · intro hs
    rw [tally_init rfl rfl rfl rfl n m] at hs
    exact absurd hs (lt_irrefl 0)
  · intro s a s' hsaw hi hs _ hpos
    obtain ⟨t, t', sig, ht, hp, hd⟩ := step_inv hs
    have hnil : s'.shared.queue = [] →
        (s'.shared.queue.length : Int) ≤ tally cover s'.threads := by
      intro hq
      rw [hq]
      exact tally_nonneg fun t => Int.add_nonneg (ind_nonneg mustNotify t) (ind_nonneg hunting t)
    rcases step_sleeping hsaw ht hp hd with hle | ⟨hq, _⟩
    · have hcov : (s.shared.queue.length : Int) ≤ tally cover s.threads := hi (by omega)
      rcases thread_cover hp (hsaw a.1 t ht) with hk | hk | hq
      · have hge := cover_delivered hd
        rw [tally_set ht] at hge
        omega
      · rcases cover_one hd with h0 | hone
        · omega
        · rw [tally_set ht] at hone
          omega
      · exact hnil hq
    · exact hnil hq

/-! ## Shutdown -/

/-- While some worker is asleep and `stop` is set, `notify_all` is still to come. -/
def Warned (s : Pool) : Prop :=
  s.shared.stop = true → 0 < tally (ind sleeping) s.threads →
    0 < tally (ind mustNotifyAll) s.threads

theorem blind_mustNotifyAll : Blind (program v) mustNotifyAll := blind_of rfl rfl

theorem thread_warned {sh sh' : Shared} {t t' : Thread} {sig : Signal Cv}
    (h : ThreadStep v sh t sh' t' sig) :
    (sh'.stop = sh.stop ∧ mustNotifyAll t' = mustNotifyAll t) ∨ mustNotifyAll t' = true ∨
      sig = .all .cv := by
  cases h with
  | worker h =>
    cases h with
    | submit h => cases h <;> exact Or.inl ⟨rfl, rfl⟩
    | _ => exact Or.inl ⟨rfl, rfl⟩
  | call => exact Or.inl ⟨rfl, rfl⟩
  | submit h => cases h <;> exact Or.inl ⟨rfl, rfl⟩
  | dtor h =>
    cases h with
    | store => exact Or.inr (Or.inl rfl)
    | notifyAll => exact Or.inr (Or.inr rfl)
    | _ => exact Or.inl ⟨rfl, rfl⟩
  | waiter h => cases h <;> exact Or.inl ⟨rfl, rfl⟩

/-- **No sleeper misses the shutdown.** -/
theorem pool_warned (h : Runs ok v n m s) : Warned s := by
  refine Reach.invariant_of (fun s h => pool_saw h) (I := Warned) ?_ ?_ h
  · intro hs
    cases hs
  · intro s a s' hsaw hi hs _ hst hpos
    obtain ⟨t, t', sig, ht, hp, hd⟩ := step_inv hs
    have hmove := tally_moved blind_mustNotifyAll.tally ht hd
    have hmem := le_tally (ind_nonneg mustNotifyAll) (List.mem_of_getElem? ht)
    rcases step_sleeping hsaw ht hp hd with hle | ⟨_, hno⟩
    · rcases thread_warned hp with ⟨hkeep, heq⟩ | hnew | rfl
      · have hold := hi (hkeep ▸ hst) (by omega)
        have : ind mustNotifyAll t' = ind mustNotifyAll t := by unfold ind; rw [heq]
        omega
      · rw [ind_of_true hnew] at hmove
        omega
      · have := sleeping_all hd
        omega
    · rw [hno] at hst
      cases hst

/-! ## The law -/

/-- While `mtx` is free, nobody stands behind `cv.wait` with `mtx` held. -/
theorem hunting_of_free (hm : Exclusive Shared.mtx holdsMtx s) (hf : s.shared.mtx = false) :
    tally (ind hunting) s.threads = tally (ind retesting) s.threads := by
  apply tally_congr
  intro t ht
  have hno := hm.none_of_free hf ht
  unfold ind hunting
  split
  · cases hno
  · rfl

/-- **No lost wake-up on `cv`**, for any number of workers and submitting threads and every
    interleaving.  While `mtx` is free and some worker sleeps in `cv.wait`, the queued tasks are at
    most the `submit` calls that have enqueued and not yet notified plus the workers that are
    awake and about to test the predicate; and if `stop` is set while some worker sleeps, the
    `notify_all` of `~ThreadPool` is still to come. -/
theorem no_lost_wakeup (n m : Nat) (s : Pool) (h : Runs anyStep threadpoolH n m s) :
    (s.shared.mtx = false → 0 < s.threads.countP sleeping →
      s.shared.queue.length ≤ s.threads.countP mustNotify + s.threads.countP retesting) ∧
    (s.shared.stop = true → 0 < s.threads.countP sleeping →
      ∃ t ∈ s.threads, mustNotifyAll t = true) := by
  have hsl := countP_eq_tally sleeping s.threads
  constructor
  · intro hf hs
    have hcov := pool_covered h (by omega)
    have hsum : tally cover s.threads =
        tally (ind mustNotify) s.threads + tally (ind hunting) s.threads := tally_add
    rw [hunting_of_free (pool_locks h).mtx hf, ← countP_eq_tally, ← countP_eq_tally] at hsum
    omega
  · intro hst hs
    have hw := pool_warned h hst (by omega)
    rw [← countP_eq_tally] at hw
    exact List.countP_pos_iff.mp (by omega)

/-- The worker sleeps; thread 1 has enqueued a task, given `mtx` back and not yet notified. -/
def sleepingRun : List (Nat × Choice) := List.replicate 3 (0, .go) ++ List.replicate 6 (1, .go)

theorem no_lost_wakeup_one :
    1 ≤ ((exec (step threadpoolH) (init 1 1) sleepingRun).get (by decide)).threads.countP
      mustNotify := by
  have h := (no_lost_wakeup 1 1 _ (exec_reach_get sleepingRun (by decide))).1
    (by decide) (by decide)
  exact h

end CppBackend.ThreadPool
