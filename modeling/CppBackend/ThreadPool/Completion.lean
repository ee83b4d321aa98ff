import CppBackend.ThreadPool.Counter

/-!
# No lost completion signal on `end_cv`

One thread waits under `end_mtx` for `task_count == 0`; a worker changes the counter without
holding `end_mtx` and takes it only to notify.  The waiter holds `end_mtx` from its test until it
sleeps, so the notification of a worker cannot fall in between; a decrement can, but the worker
that makes it has yet to notify.

* `pool_signalled` — while the waiter has found the predicate false and has not been woken, and no
  task is outstanding, some worker is between its decrement and its notification;
* `completion_signalled` — the law for the fused test of `threadpool.h`;
* `completion_signalled_apart` — the law for `task_count--` followed by a read of its own: a worker
  may miss the 0 that it made itself, but then a later decrement follows.

Both hold as far as the counter, an `int`, tells 0 from `2^32` (`signal_lost_at_wrap`).
-/

set_option autoImplicit false

namespace CppBackend.ThreadPool

open Library.Transition Library.Tally Library.Threads Library.Mutex

/-- Has found the predicate false, and is going to sleep or asleep. -/
def waitingEnd : Thread → Bool
  | .waiter .tested | .waiter .asleep => true
  | _ => false

/-- Between the decrement that made `task_count` 0 and `notify_one`. -/
def notifyingEnd : Thread → Bool
  | .worker .endLock | .worker .endNotify => true
  | _ => false

/-- Between its decrement and its read of `task_count`. -/
def readingEnd : Thread → Bool
  | .worker .read => true
  | _ => false

/-- Between its decrement and either its read of `task_count` or its `notify_one`. -/
def settling (t : Thread) : Bool := readingEnd t || notifyingEnd t

def isWaiter : Thread → Bool
  | .waiter _ => true
  | _ => false

/-- The waiter has found the predicate false and is not woken, `task_count` is 0, and no worker
    is at a point of `p`. -/
def SignalLost (p : Thread → Bool) (s : Pool) : Prop :=
  (∃ t ∈ s.threads, waitingEnd t = true) ∧ s.shared.taskCount = 0 ∧ ∀ t ∈ s.threads, p t = false

instance (p : Thread → Bool) (s : Pool) : Decidable (SignalLost p s) :=
  inferInstanceAs (Decidable (_ ∧ _ ∧ _))

variable {v : Source} {ok : Pool → Nat × Choice → Pool → Prop} {n m : Nat} {s : Pool}

theorem blind_settling : Blind (program v) settling := blind_of rfl rfl

/-- There is one waiting thread. -/
theorem pool_waiter (h : Runs ok v n m s) : tally (ind isWaiter) s.threads = 1 := by
  rw [pool_kind (fun h => by cases h <;> rfl) (blind_of rfl rfl) h]
  simp [init, tally_replicate, ind, isWaiter]

/-- A signal wakes the waiter or leaves it as it is. -/
theorem waitingEnd_delivered {sig : Signal Cv} {ts ts' : List Thread}
    (h : Delivered (program v) sig ts ts') :
    tally (ind waitingEnd) ts' ≤ tally (ind waitingEnd) ts := by
  refine tally_delivered_le (fun c t ht => ?_) h
  rcases asleep_cases ht with ⟨_, rfl⟩ | ⟨_, rfl⟩
  · exact le_refl _
  · exact show (0 : Int) ≤ 1 by decide

/-- The `notify_one` of a worker, which holds `end_mtx`, leaves nobody waiting: the one waiting
    thread is not about to sleep, and if it sleeps it is woken. -/
theorem waitingEnd_notified {s' : Pool} {i : Nat} {t' : Thread} {j : Option Nat}
    (hm : Exclusive Shared.endMtx holdsEnd s) (hw : tally (ind isWaiter) s.threads = 1)
    (ht : s.threads[i]? = some (.worker .endNotify)) (ht' : t' = .worker .endUnlock)
    (hd : Delivered (program v) (.one .endCv j) (s.threads.set i t') s'.threads) :
    tally (ind waitingEnd) s'.threads = 0 := by
  subst ht'
  have hasleep : ∀ t : Thread, asleep .endCv t = true → t = .waiter .asleep := by
    intro t h
    rcases asleep_cases (v := v) h with ⟨hc, _⟩ | ⟨_, h⟩
    · cases hc
    · exact h
  have htested : ∀ t ∈ s.threads, t ≠ .waiter .tested := by
    intro t hmem heq
    subst heq
    obtain ⟨k, hk⟩ := List.mem_iff_getElem?.mp hmem
    have hne : k ≠ i := by rintro rfl; rw [ht] at hk; cases hk
    have := hm.alone ht hk hne rfl
    cases this
  have hsplit : ∀ t ∈ s.threads, ind waitingEnd t = ind (asleep .endCv) t := by
    intro t hmem
    have hno := htested t hmem
    cases t with
    | waiter w =>
      cases w with
      | tested => exact absurd rfl hno
      | _ => rfl
    | worker w => rfl
    | client c => rfl
    | dtor d => rfl
  have hone : tally (ind (asleep .endCv)) s.threads ≤ 1 := by
    rw [← hw]
    refine tally_ind_mono fun t h => ?_
    rw [hasleep t h]
    rfl
  have hset : tally (ind waitingEnd) (s.threads.set i (.worker .endUnlock)) =
      tally (ind (asleep .endCv)) s.threads := by
    rw [tally_set ht, tally_congr hsplit]
    show tally (ind (asleep .endCv)) s.threads - 0 + 0 = _
    omega
  have h0 : 0 ≤ tally (ind waitingEnd) s'.threads := tally_nonneg (ind_nonneg _)
  generalize s'.threads = ts' at hd h0 ⊢
  cases hd with
  | nobody h =>
    rw [tally_congr (g := fun _ => 0)]
    · simp [tally]
    · intro t hmem
      refine ind_of_false ?_
      cases hwt : waitingEnd t with
      | false => rfl
      | true =>
        have hmem' : t ∈ s.threads := by
          rcases List.mem_or_eq_of_mem_set hmem with hin | rfl
          · exact hin
          · cases hwt
        have hs := hsplit t hmem'
        rw [ind_of_true hwt, ind_of_false (show asleep .endCv t = false from h t hmem)] at hs
        cases hs
  | one hk hs =>
    obtain rfl := hasleep _ hs
    have hmove := tally_set (f := ind waitingEnd) (b := .waiter .woken) hk
    change tally (ind waitingEnd) ((s.threads.set i _).set _ (.waiter .woken)) = 0
    rw [hset] at hmove
    have hsub : ind waitingEnd (.waiter .asleep) = 1 ∧ ind waitingEnd (.waiter .woken) = 0 :=
      ⟨rfl, rfl⟩
    change 0 ≤ tally (ind waitingEnd) ((s.threads.set i _).set _ (.waiter .woken)) at h0
    omega

/-! ## One step -/

/-- What a step does to the signal. -/
inductive EndStep (sh : Shared) (t : Thread) (sh' : Shared) (t' : Thread) : Signal Cv → Prop where
  /-- Neither the counted tasks nor the workers that settle change, and nobody starts to wait. -/
  | keeps {sig : Signal Cv} (hc : (sh'.queue.length : Int) + share t' = sh.queue.length + share t)
      (hs : settling t' = settling t) (hw : ind waitingEnd t' ≤ ind waitingEnd t) :
      EndStep sh t sh' t' sig
  /-- `fetch_add`. -/
  | adds {sig : Signal Cv}
      (hc : (sh'.queue.length : Int) + share t' = sh.queue.length + share t + 1) :
      EndStep sh t sh' t' sig
  /-- The worker has yet to read or to notify. -/
  | settles {sig : Signal Cv} (hs : settling t' = true) : EndStep sh t sh' t' sig
  /-- `task_count` is not 0 afterwards. -/
  | nonzero {sig : Signal Cv} (h : sh'.taskCount ≠ 0) : EndStep sh t sh' t' sig
  | notifies {j : Option Nat} (ht : t = .worker .endNotify) (ht' : t' = .worker .endUnlock) :
      EndStep sh t sh' t' (.one .endCv j)

theorem submit_end {sh sh' : Shared} {c : Call} {c' : Option Call} {sig : Signal Cv}
    (h : SubmitStep sh c sh' c' sig) {f : Option Call → Thread} {k : Int} (hn : share (f none) = k)
    (hf : ∀ d, share (f (some d)) = k - if d.pc == .add then 1 else 0)
    (hs : ∀ o, settling (f o) = false) (hw : ∀ o, ind waitingEnd (f o) = 0) :
    EndStep sh (f (some c)) sh' (f c') sig := by
  have hkeep : (sh'.queue.length : Int) + share (f c') = sh.queue.length + share (f (some c)) →
      EndStep sh (f (some c)) sh' (f c') sig := by
    intro hc
    exact .keeps hc (by rw [hs, hs]) (by rw [hw, hw])
  cases h with
  | add => exact .adds (by rw [hf, hf]; simp; ring)
  | emplace => exact hkeep (by rw [hf, hf]; simp)
  | reject => exact hkeep (by rw [hn, hf]; simp)
  | notify => exact hkeep (by rw [hn, hf]; simp)
  | _ => exact hkeep (by rw [hf, hf]; simp)

theorem thread_end {sh sh' : Shared} {t t' : Thread} {sig : Signal Cv}
    (h : ThreadStep v sh t sh' t' sig) : EndStep sh t sh' t' sig := by
  have hcall : ∀ (f : Option Call → Thread) (k : Int), share (f none) = k →
      (∀ d, share (f (some d)) = k - if d.pc == .add then 1 else 0) →
      (∀ o, settling (f o) = false) → (∀ o, ind waitingEnd (f o) = 0) →
      EndStep sh (f none) (callSubmit v sh).1 (f (some (callSubmit v sh).2)) .quiet := by
    intro f k hn hf hs hw
    refine .keeps ?_ (by rw [hs, hs]) (by rw [hw, hw])
    rw [hn, hf, callSubmit_adding]
    simp [callSubmit]
  cases h with
  | worker h =>
    cases h with
    | @submit _ t _ _ _ h =>
      exact submit_end h (f := fun c => .worker (.run t c)) (k := 1) rfl (fun _ => rfl)
        (fun _ => rfl) (fun _ => rfl)
    | @call t =>
      exact hcall (fun c => .worker (.run t c)) 1 rfl (fun _ => rfl) (fun _ => rfl) (fun _ => rfl)
    | @pop t q hq =>
      refine .keeps ?_ rfl (le_refl _)
      show (q.length : Int) + 1 = sh.queue.length + 0
      rw [hq, List.length_cons]
      push_cast
      ring
    | countLast => exact .settles rfl
    | countApart => exact .settles rfl
    | readZero => exact .settles rfl
    | endLock => exact .settles rfl
    | countMore _ h =>
      refine .nonzero fun h0 => h ?_
      have hsum := congrArg (· + 1) h0
      simpa [Int32.sub_add_cancel] using hsum
    | readMore h => exact .nonzero h
    | endNotify => exact .notifies rfl rfl
    | _ => exact .keeps rfl rfl (le_refl _)
  | call => exact hcall .client 0 rfl (fun _ => rfl) (fun _ => rfl) (fun _ => rfl)
  | submit h => exact submit_end h (f := .client) (k := 0) rfl (fun _ => rfl) (fun _ => rfl) (fun _ => rfl)
  | dtor h => cases h <;> exact .keeps rfl rfl (le_refl _)
  | waiter h =>
    cases h with
    | nonzero h => exact .nonzero h
    | spurious => exact .keeps rfl rfl (by decide)
    | _ => exact .keeps rfl rfl (le_refl _)

/-! ## The invariant -/

/-- While the waiter waits and nothing is outstanding, some worker has yet to notify. -/
def Signalled (s : Pool) : Prop :=
  0 < tally (ind waitingEnd) s.threads → counted s = 0 → 0 < tally (ind settling) s.threads

/-- **The completion signal is not lost.** -/
theorem pool_signalled (h : Runs ok v n m s) : Signalled s := by
  refine Reach.invariant_of (K := Runs ok v n m) (fun _ h => h) (I := Signalled) ?_ ?_ h
  · intro hw
    rw [tally_init rfl rfl rfl rfl n m] at hw
    exact absurd hw (lt_irrefl 0)
  · intro s a s' hr hi hs hok hw hc
    obtain ⟨t, t', sig, ht, hp, hd⟩ := step_inv hs
    have hcount := tally_moved blind_share ht hd
    have hset := tally_moved blind_settling.tally ht hd
    have hmem := le_tally (ind_nonneg settling) (List.mem_of_getElem? ht)
    have hwait := waitingEnd_delivered hd
    rw [tally_set ht] at hwait
    have hnn := (counted_bounds (pool_adding hr)).1
    unfold counted at hc hnn
    have hcnt := thread_end hp
    generalize hsh : s'.shared = sh' at hcnt
    rw [hsh] at hc
    cases hcnt with
    | keeps hq hst hle =>
      have : ind settling t' = ind settling t := by unfold ind; rw [hst]
      have := hi (by omega) (by unfold counted; omega)
      omega
    | adds hq => omega
    | settles hst =>
      rw [ind_of_true hst] at hset
      omega
    | nonzero hne =>
      refine absurd ?_ hne
      rw [← hsh, pool_counter (hr.tail hs hok)]
      unfold counted
      rw [hsh, hc]
      rfl
    | notifies h1 h2 =>
      subst h1
      have := waitingEnd_notified (pool_locks hr).endMtx (pool_waiter hr) ht h2 hd
      omega

/-- In a state with fewer than `2^32` outstanding tasks no signal is lost. -/
theorem not_signalLost (h : Runs ok v n m s) (hb : outstanding s < 2 ^ 32) :
    ¬ SignalLost settling s := by
  rintro ⟨⟨t, ht, hw⟩, hz, hno⟩
  obtain ⟨h0, hle, _⟩ := counted_bounds (pool_adding h)
  have hc := ofInt_eq_zero h0 (by omega) ((pool_counter h).symm.trans hz)
  obtain ⟨u, hu, hp⟩ := exists_of_tally_ind (pool_signalled h (tally_ind_pos ht hw) hc)
  rw [hno u hu] at hp
  cases hp

/-- With the fused test no worker reads `task_count` apart. -/
theorem pool_fused (hf : v.fused = true) (h : Runs ok v n m s) :
    Each (fun _ t => readingEnd t = false) s := by
  refine Reach.invariant (I := Each fun _ t => readingEnd t = false) ?_ ?_ h
  · intro j t ht
    rcases init_threads (List.mem_of_getElem? ht) with rfl | rfl | rfl | rfl <;> rfl
  · intro s a s' hi hs _
    refine each_step (step_inv hs) ?_ (fun _ _ _ _ j u _ _ _ hu => hi j u hu) (fun _ _ => rfl) (fun _ _ => rfl)
    intro t sh' t' sig ht hp
    cases hp with
    | worker h =>
      cases h with
      | countApart h => rw [hf] at h; cases h
      | _ => rfl
    | _ => rfl

/-! ## The laws -/

/-- **No lost completion signal in `threadpool.h`**, for any number of workers and submitters and
    every interleaving, while fewer than `2^32` tasks are outstanding: if the waiter has found the
    predicate false and is going to sleep or asleep and `task_count` is 0, some worker is between
    its `fetch_sub` that returned 1 and its `notify_one`. -/
theorem completion_signalled (n m : Nat) (s : Pool) (h : Runs anyStep threadpoolH n m s)
    (hb : outstanding s < 2 ^ 32) : ¬ SignalLost notifyingEnd s := by
  rintro ⟨hw, hz, hno⟩
  refine not_signalLost h hb ⟨hw, hz, fun t ht => ?_⟩
  unfold settling
  rw [(pool_fused rfl h).mem ht, hno t ht]
  rfl

/-- One task is submitted; the waiter (thread 3) falls asleep; the worker executes the task and
    counts it off. -/
def countedOff (v : Source) : List (Nat × Choice) :=
  submitOnce v ++ List.replicate 4 (3, .go) ++ List.replicate 6 (0, .go)

theorem completion_signalled_asleep :
    ¬ SignalLost notifyingEnd
      ((exec (step threadpoolH) (init 1 1) (countedOff threadpoolH)).get (by decide)) :=
  completion_signalled 1 1 _ (exec_reach_get (countedOff threadpoolH) (by decide)) (by decide)

/-- **No lost completion signal in the stand-alone pools**, in which other decrements and
    increments may fall between a worker's decrement and its read: if the waiter has found the
    predicate false and has not been woken and `task_count` is 0, some worker is between its own
    decrement and its read or its `notify_one`. -/
theorem completion_signalled_apart (n m : Nat) (s : Pool) (hb : outstanding s < 2 ^ 32) :
    (Runs anyStep threadPoolCpp n m s → ¬ SignalLost settling s) ∧
    (Runs anyStep threadPoolRetype n m s → ¬ SignalLost settling s) :=
  ⟨fun h => not_signalLost h hb, fun h => not_signalLost h hb⟩

theorem completion_signalled_apart_asleep :
    ¬ SignalLost settling
      ((exec (step threadPoolCpp) (init 1 1) (countedOff threadPoolCpp)).get (by decide)) :=
  (completion_signalled_apart 1 1 _ (by decide)).1
    (exec_reach_get (countedOff threadPoolCpp) (by decide))

/-! ## The width of the counter -/

/-- The waiter falls asleep after the first of any number of submissions. -/
theorem runs_asleep (k : Nat) : Runs anyStep v 1 1 (loaded .asleep (1 + k)) := by
  have hsleep : exec (step v) (loaded .idle 1) (List.replicate 4 (3, .go)) =
      some (loaded .asleep 1) := rfl
  exact ((runs_loaded 1).trans (exec_reach _ hsleep)).trans (reach_loaded .asleep 1 k)

theorem loaded_waiting (k : Nat) : ∃ t ∈ (loaded .asleep k).threads, waitingEnd t = true :=
  ⟨.waiter .asleep, List.mem_of_getElem? (i := 3) rfl, rfl⟩

theorem loaded_settled (w : Waiter) (k : Nat) : ∀ t ∈ (loaded w k).threads, settling t = false := by
  intro t ht
  rcases List.mem_cons.mp ht with rfl | ht
  · rfl
  rcases List.mem_cons.mp ht with rfl | ht
  · rfl
  rcases List.mem_cons.mp ht with rfl | ht
  · rfl
  rw [List.mem_singleton.mp ht]
  rfl

/-- After `2^32` submissions the counter is 0 again. -/
theorem lost_at_wrap : Runs anyStep v 1 1 (loaded .asleep (1 + (2 ^ 32 - 1))) ∧
    SignalLost settling (loaded .asleep (1 + (2 ^ 32 - 1))) := by
  refine ⟨runs_asleep _, loaded_waiting _, ?_, loaded_settled _ _⟩
  rw [loaded_count]
  decide

theorem signal_lost_at_wrap : ∃ s, Runs anyStep threadpoolH 1 1 s ∧ SignalLost notifyingEnd s := by
  obtain ⟨hr, hw, hz, hno⟩ := lost_at_wrap (v := threadpoolH)
  refine ⟨_, hr, hw, hz, fun t ht => ?_⟩
  have hs := hno t ht
  unfold settling at hs
  exact (Bool.or_eq_false_iff.mp hs).2

theorem signal_lost_apart_at_wrap :
    (∃ s, Runs anyStep threadPoolCpp 1 1 s ∧ SignalLost settling s) ∧
    ∃ s, Runs anyStep threadPoolRetype 1 1 s ∧ SignalLost settling s :=
  ⟨⟨_, lost_at_wrap⟩, ⟨_, lost_at_wrap⟩⟩

end CppBackend.ThreadPool
