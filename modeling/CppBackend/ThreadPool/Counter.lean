import CppBackend.ThreadPool.Locks

/-!
# The task counter

`task_count` is incremented under `mtx`, behind `emplace`, and decremented outside it, after the
task has run.  `pool_counter` ties it to the queue and to the workers' program points: it is the
number of queued tasks, plus the tasks popped and not yet counted off, minus the `submit` call
that stands between `emplace` and `fetch_add` — modulo `2^32`, because it is an
`std::atomic<int>`.

`pool_ledger` follows each task through the logs: a submitted task is in exactly one of the
places *in a `submit` call*, *rejected*, *accepted*; an accepted task is queued or dequeued, in
the order of acceptance; a dequeued task is held by one worker or has been started, a started
one is running or has finished.

`counter_conservation` states the law for the pool of `threadpool.h`.
-/

set_option autoImplicit false

namespace CppBackend.ThreadPool

open Library.Transition Library.Tally Library.Threads Library.Mutex

/-- Between `emplace` and `fetch_add`. -/
def adding : Thread → Bool := inSubmit fun c => c.pc == .add

/-- Inside the critical section of `submit`. -/
def inSection : Thread → Bool := inSubmit Call.inSection

/-- Has popped a task and not yet counted it off. -/
def uncounted : Thread → Bool
  | .worker (.popped _) | .worker (.run _ _) | .worker .count => true
  | _ => false

/-- The tasks queued, or popped and not yet counted off. -/
def outstanding (s : Pool) : Nat := s.shared.queue.length + s.threads.countP uncounted

variable {v : Source} {ok : Pool → Nat × Choice → Pool → Prop} {n m : Nat} {s : Pool}

/-- A predicate on `submit` calls does not see who is woken. -/
theorem blind_inSubmit (p : Call → Bool) : Blind (program v) (inSubmit p) := blind_of rfl rfl

theorem blind_adding : Blind (program v) adding := blind_inSubmit _

theorem blind_uncounted : Blind (program v) uncounted := blind_of rfl rfl

/-! ## The law of the counter -/

/-- A thread's share of the counter. -/
def share (t : Thread) : Int := ind uncounted t - ind adding t

/-- The value that the counter stands for. -/
def counted (s : Pool) : Int := s.shared.queue.length + tally share s.threads

theorem blind_share : WakeBlind (program v) share := by
  intro c t h
  unfold share
  rw [blind_uncounted.tally c t h, blind_adding.tally c t h]

theorem callSubmit_adding (sh : Shared) : ((callSubmit v sh).2.pc == .add) = false := by
  rcases callSubmit_pc (v := v) sh with h | h <;> rw [h] <;> rfl

/-- The counter moves with the queue and the moving thread's share. -/
def Counts (sh : Shared) (a : Int) (sh' : Shared) (b : Int) : Prop :=
  sh'.taskCount = sh.taskCount + Int32.ofInt (sh'.queue.length + b - (sh.queue.length + a))

theorem Counts.still {sh sh' : Shared} {a b : Int} (hc : sh'.taskCount = sh.taskCount)
    (hq : (sh'.queue.length : Int) + b = sh.queue.length + a) : Counts sh a sh' b := by
  unfold Counts
  rw [hc, hq, Int.sub_self]
  simp

theorem submit_counts {sh sh' : Shared} {c : Call} {c' : Option Call} {sig : Signal Cv}
    (h : SubmitStep sh c sh' c' sig) {f : Option Call → Thread} {k : Int} (hn : share (f none) = k)
    (hf : ∀ d, share (f (some d)) = k - if d.pc == .add then 1 else 0) :
    Counts sh (share (f (some c))) sh' (share (f c')) := by
  cases h with
  | add =>
    unfold Counts
    rw [hf, hf]
    have : (sh.queue.length : Int) + (k - 0) - (sh.queue.length + (k - 1)) = 1 := by omega
    simp only [beq_self_eq_true, if_true]
    exact congrArg (fun d => sh.taskCount + Int32.ofInt d) this.symm
  | emplace =>
    refine .still rfl ?_
    rw [hf, hf]
    simp
  | reject => exact .still rfl (by rw [hn, hf]; simp)
  | notify => exact .still rfl (by rw [hn, hf]; simp)
  | _ => exact .still rfl (by rw [hf, hf]; simp)

theorem thread_counts {sh sh' : Shared} {t t' : Thread} {sig : Signal Cv}
    (h : ThreadStep v sh t sh' t' sig) : Counts sh (share t) sh' (share t') := by
  have hcall : ∀ (f : Option Call → Thread) (k : Int), share (f none) = k →
      (∀ d, share (f (some d)) = k - if d.pc == .add then 1 else 0) →
      Counts sh (share (f none)) (callSubmit v sh).1 (share (f (some (callSubmit v sh).2))) := by
    intro f k hn hf
    refine .still rfl ?_
    rw [hn, hf, callSubmit_adding]
    simp [callSubmit]
  have hworker : ∀ (t : Nat) (d : Call),
      share (.worker (.run t (some d))) = 1 - if d.pc == .add then 1 else 0 := fun t d => rfl
  have hclient : ∀ d : Call, share (.client (some d)) = 0 - if d.pc == .add then 1 else 0 :=
    fun d => rfl
  have hcount : ∀ w, share (.worker w) = 0 →
      Counts sh (share (.worker .count)) { sh with taskCount := sh.taskCount - 1 }
        (share (.worker w)) := by
    intro w hw
    unfold Counts
    rw [hw, show share (.worker .count) = 1 from rfl]
    have : (sh.queue.length : Int) + 0 - (sh.queue.length + 1) = -1 := by omega
    have hneg : Int32.ofInt (-1) = -1 := by decide
    rw [this, hneg, Int32.sub_eq_add_neg]
  cases h with
  | worker h =>
    cases h with
    | @submit _ t _ _ _ h => exact submit_counts h (f := fun c => .worker (.run t c)) rfl (hworker t)
    | @call t => exact hcall (fun c => .worker (.run t c)) 1 rfl (hworker t)
    | pop hq =>
      refine .still rfl ?_
      simp only [hq, share, uncounted, adding, inSubmit, ind, List.length_cons]
      push_cast
      simp
    | countLast => exact hcount _ rfl
    | countMore => exact hcount _ rfl
    | countApart => exact hcount _ rfl
    | _ => exact .still rfl rfl
  | call => exact hcall .client 0 rfl hclient
  | submit h => exact submit_counts h (f := .client) rfl hclient
  | dtor h => cases h <;> exact .still rfl rfl
  | waiter h => cases h <;> exact .still rfl rfl

/-- The counter stands for the outstanding tasks, modulo `2^32`. -/
def Counted (s : Pool) : Prop := s.shared.taskCount = Int32.ofInt (counted s)

theorem counted_init (n m : Nat) : Counted (init n m) := by
  unfold Counted counted
  rw [tally_init rfl rfl rfl rfl n m]
  rfl

theorem counter_step {s' : Pool} {i : Nat} (h : Moves v s s' i) (hi : Counted s) : Counted s' := by
  obtain ⟨t, t', sig, ht, hp, hd⟩ := h
  have hc := thread_counts hp
  unfold Counted at hi ⊢
  unfold Counts at hc
  rw [hc, hi, ← Int32.ofInt_add]
  unfold counted
  rw [tally_moved blind_share ht hd]
  congr 1
  omega

/-- **The law of the counter.** -/
theorem pool_counter (h : Runs ok v n m s) : Counted s :=
  h.invariant (counted_init n m) fun _ _ _ hi hs _ => counter_step (step_inv hs) hi

/-- The task of the call that stands before its `fetch_add` is still in the queue: popping it
    needs `mtx`. -/
theorem thread_adding {sh sh' : Shared} {t t' : Thread} {sig : Signal Cv}
    (h : ThreadStep v sh t sh' t' sig) :
    (sh.queue.length - ind adding t ≤ sh'.queue.length - ind adding t' : Prop) ∨
      (t = .worker .check ∧ sh.queue.length = sh'.queue.length + 1 ∧ ind adding t' = 0) := by
  have hsub : ∀ {c : Call} {c' : Option Call}, SubmitStep sh c sh' c' sig →
      ∀ f : Option Call → Thread, ind adding (f none) = 0 →
      (∀ d, ind adding (f (some d)) = if d.pc == .add then 1 else 0) →
      (sh.queue.length - ind adding (f (some c)) ≤ sh'.queue.length - ind adding (f c') : Prop) := by
    intro c c' h f hn hf
    cases h <;> simp [hn, hf]
  cases h with
  | worker h =>
    cases h with
    | @submit _ t _ _ _ h => exact Or.inl (hsub h (fun c => .worker (.run t c)) rfl (fun _ => rfl))
    | pop hq => exact Or.inr ⟨rfl, by rw [hq]; rfl, rfl⟩
    | call =>
      refine Or.inl ?_
      show (sh.queue.length : Int) - 0 ≤ sh.queue.length - if (callSubmit v sh).2.pc == .add then 1 else 0
      rw [callSubmit_adding]
      simp
    | _ => exact Or.inl (le_refl _)
  | call =>
    refine Or.inl ?_
    show (sh.queue.length : Int) - 0 ≤ sh.queue.length - if (callSubmit v sh).2.pc == .add then 1 else 0
    rw [callSubmit_adding]
    simp
  | submit h => exact Or.inl (hsub h .client rfl (fun _ => rfl))
  | dtor h => cases h <;> exact Or.inl (le_refl _)
  | waiter h => cases h <;> exact Or.inl (le_refl _)

theorem inSubmit_mono {p q : Call → Bool} (h : ∀ c, p c = true → q c = true) {t : Thread}
    (ht : inSubmit p t = true) : inSubmit q t = true := by
  unfold inSubmit at ht ⊢
  split at ht
  · exact h _ ht
  · exact h _ ht
  · cases ht

theorem inSection_of_adding {t : Thread} (h : adding t = true) : inSection t = true := by
  refine inSubmit_mono (fun c hc => ?_) h
  unfold Call.inSection
  rw [hc]
  simp

theorem holdsMtx_of_inSection {t : Thread} (h : inSection t = true) : holdsMtx t = true := by
  unfold holdsMtx
  split <;> first | rfl | exact h

/-- Every call between `emplace` and `fetch_add` has its task in the queue. -/
def Added (s : Pool) : Prop := tally (ind adding) s.threads ≤ s.shared.queue.length

theorem added_init (n m : Nat) : Added (init n m) := by
  unfold Added
  rw [tally_init rfl rfl rfl rfl n m]
  exact Int.natCast_nonneg _

theorem adding_step {s' : Pool} {i : Nat} (h : Moves v s s' i) (hm : Exclusive Shared.mtx holdsMtx s)
    (hi : Added s) : Added s' := by
  obtain ⟨t, t', sig, ht, hp, hd⟩ := h
  unfold Added at hi ⊢
  rw [tally_moved blind_adding.tally ht hd]
  rcases thread_adding hp with hle | ⟨rfl, hq, h0⟩
  · omega
  · -- the worker that pops holds `mtx`, so no call stands before its `fetch_add`
    rw [hm.tally_eq_zero (fun _ h => holdsMtx_of_inSection (inSection_of_adding h))
      (List.mem_of_getElem? ht) rfl rfl, h0]
    show (0 : Int) - 0 + 0 ≤ _
    omega

theorem pool_adding (h : Runs ok v n m s) : Added s :=
  h.invariant_of (fun _ h => (pool_locks h).mtx) (added_init n m)
    fun _ _ _ hm hi hs _ => adding_step (step_inv hs) hm hi

theorem counted_eq (s : Pool) : counted s = s.shared.queue.length +
    (tally (ind uncounted) s.threads - tally (ind adding) s.threads) := by
  rw [← tally_sub]
  rfl

/-- The value that the counter stands for is never negative and at most the number of
    outstanding tasks; it is that number while no `submit` is in its critical section. -/
theorem counted_bounds (hadd : Added s) :
    0 ≤ counted s ∧ counted s ≤ outstanding s ∧
      (s.threads.countP inSection = 0 → counted s = outstanding s) := by
  unfold Added at hadd
  have h0 : 0 ≤ tally (ind adding) s.threads := tally_nonneg (ind_nonneg _)
  have hun : 0 ≤ tally (ind uncounted) s.threads := tally_nonneg (ind_nonneg _)
  have hc := counted_eq s
  have ho : (outstanding s : Int) = s.shared.queue.length + tally (ind uncounted) s.threads := by
    unfold outstanding
    push_cast
    rw [countP_eq_tally]
  refine ⟨by omega, by omega, fun hs => ?_⟩
  have hz : tally (ind adding) s.threads ≤ tally (ind inSection) s.threads :=
    tally_ind_mono fun _ => inSection_of_adding
  rw [← countP_eq_tally inSection, hs] at hz
  push_cast at hz
  omega

/-! ## The ledger of tasks -/

/-- In a `submit` call that has not enqueued `x` yet. -/
def Call.pending (x : Nat) (c : Call) : Bool :=
  c.task == x && (c.pc == .test || c.pc == .lock || c.pc == .emplace)

def pending (x : Nat) : Thread → Bool := inSubmit (Call.pending x)

/-- Has popped `x` and not yet called it. -/
def holding (x : Nat) : Thread → Bool
  | .worker (.popped t) => t == x
  | _ => false

def running (x : Nat) : Thread → Bool
  | .worker (.run t _) => t == x
  | _ => false

/-- Where the task `x` is. -/
structure Ledger (x : Nat) (s : Pool) : Prop where
  submitted : (s.shared.accepted.count x : Int) + s.shared.rejected.count x +
    tally (ind (pending x)) s.threads = if x < s.shared.next then 1 else 0
  dequeued : (s.shared.dequeued.count x : Int) =
    s.shared.started.count x + tally (ind (holding x)) s.threads
  started : (s.shared.started.count x : Int) =
    s.shared.finished.count x + tally (ind (running x)) s.threads

/-- Tasks leave the queue in the order in which they were accepted. -/
def Fifo (sh : Shared) : Prop := sh.accepted = sh.dequeued ++ sh.queue

/-- Every accepted task is queued or dequeued. -/
def Balanced (sh : Shared) : Prop := sh.accepted.Perm (sh.dequeued ++ sh.queue)

theorem Fifo.balanced {sh : Shared} (h : Fifo sh) : Balanced sh := List.Perm.of_eq h

theorem blind_holding (x : Nat) : Blind (program v) (holding x) := blind_of rfl rfl

theorem blind_running (x : Nat) : Blind (program v) (running x) := blind_of rfl rfl

/-- What a step does to the queue: nothing, a task accepted at its end, or one dequeued at its front. -/
theorem thread_queue {sh sh' : Shared} {t t' : Thread} {sig : Signal Cv}
    (h : ThreadStep v sh t sh' t' sig) :
    (sh'.queue = sh.queue ∧ sh'.accepted = sh.accepted ∧ sh'.dequeued = sh.dequeued) ∨
      (∃ x, sh'.queue = sh.queue ++ [x] ∧ sh'.accepted = sh.accepted ++ [x] ∧
        sh'.dequeued = sh.dequeued) ∨
      ∃ x, sh.queue = x :: sh'.queue ∧ sh'.accepted = sh.accepted ∧
        sh'.dequeued = sh.dequeued ++ [x] := by
  have hsub : ∀ {c : Call} {c' : Option Call}, SubmitStep sh c sh' c' sig →
      (sh'.queue = sh.queue ∧ sh'.accepted = sh.accepted ∧ sh'.dequeued = sh.dequeued) ∨
        ∃ x, sh'.queue = sh.queue ++ [x] ∧ sh'.accepted = sh.accepted ++ [x] ∧
          sh'.dequeued = sh.dequeued := by
    intro c c' h
    cases h with
    | @emplace t => exact Or.inr ⟨t, rfl, rfl, rfl⟩
    | _ => exact Or.inl ⟨rfl, rfl, rfl⟩
  cases h with
  | worker h =>
    cases h with
    | submit h => exact (hsub h).imp_right Or.inl
    | @pop t q hq => exact Or.inr (Or.inr ⟨t, hq, rfl, rfl⟩)
    | _ => exact Or.inl ⟨rfl, rfl, rfl⟩
  | call => exact Or.inl ⟨rfl, rfl, rfl⟩
  | submit h => exact (hsub h).imp_right Or.inl
  | dtor h => cases h <;> exact Or.inl ⟨rfl, rfl, rfl⟩
  | waiter h => cases h <;> exact Or.inl ⟨rfl, rfl, rfl⟩

theorem dequeued_kept {sh sh' : Shared} {t t' : Thread} {sig : Signal Cv}
    (h : ThreadStep v sh t sh' t' sig) (hle : sh.queue.length ≤ sh'.queue.length) :
    sh'.dequeued = sh.dequeued := by
  rcases thread_queue h with ⟨_, _, hd⟩ | ⟨_, _, _, hd⟩ | ⟨x, hq, _, _⟩
  · exact hd
  · exact hd
  · rw [hq, List.length_cons] at hle
    omega

theorem thread_fifo {sh sh' : Shared} {t t' : Thread} {sig : Signal Cv}
    (h : ThreadStep v sh t sh' t' sig) (hi : Fifo sh) : Fifo sh' := by
  unfold Fifo at hi ⊢
  rcases thread_queue h with ⟨hq, ha, hd⟩ | ⟨x, hq, ha, hd⟩ | ⟨x, hq, ha, hd⟩
  · rw [ha, hd, hq, hi]
  · rw [ha, hd, hq, hi, List.append_assoc]
  · rw [ha, hd, hi, hq, List.append_assoc, List.singleton_append]

theorem thread_balanced {sh sh' : Shared} {t t' : Thread} {sig : Signal Cv}
    (h : ThreadStep v sh t sh' t' sig) (hi : Balanced sh) : Balanced sh' := by
  unfold Balanced at hi ⊢
  rcases thread_queue h with ⟨hq, ha, hd⟩ | ⟨x, hq, ha, hd⟩ | ⟨x, hq, ha, hd⟩
  · rw [ha, hd, hq]
    exact hi
  · rw [ha, hd, hq, ← List.append_assoc]
    exact hi.append_right [x]
  · rw [ha, hd, List.append_assoc, List.singleton_append, ← hq]
    exact hi

theorem count_concat (l : List Nat) (t x : Nat) :
    ((l ++ [t]).count x : Int) = l.count x + if t == x then 1 else 0 := by
  rw [List.count_append, List.count_singleton]
  push_cast
  rfl

/-- A thread's share of the accounts of the task `x`: in a `submit` call, enqueued, rejected,
    not submitted yet. -/
def submitShare (x : Nat) (sh : Shared) : Int :=
  sh.accepted.count x + sh.rejected.count x - if x < sh.next then 1 else 0

theorem submit_submitted {x : Nat} {sh sh' : Shared} {c : Call} {c' : Option Call}
    {sig : Signal Cv} (h : SubmitStep sh c sh' c' sig) {f : Option Call → Thread}
    (hn : pending x (f none) = false) (hf : ∀ d, pending x (f (some d)) = d.pending x) :
    submitShare x sh' + ind (pending x) (f c') = submitShare x sh + ind (pending x) (f (some c)) := by
  cases h with
  | @reject t h =>
    unfold submitShare ind
    rw [count_concat, hn, hf]
    simp only [Call.pending, beq_self_eq_true, Bool.true_or, Bool.and_true, Bool.false_eq_true,
      if_false]
    ring
  | @emplace t =>
    unfold submitShare ind
    rw [count_concat, hf, hf]
    have hadd : Call.pending x ⟨t, .add⟩ = false := by simp [Call.pending]
    have hemp : Call.pending x ⟨t, .emplace⟩ = (t == x) := by simp [Call.pending]
    simp only [hadd, hemp, Bool.false_eq_true, if_false]
    ring
  | notify =>
    unfold ind
    rw [hn, hf]
    simp [Call.pending]
  | _ =>
    unfold ind
    rw [hf, hf]
    simp [Call.pending, submitShare]

theorem thread_submitted {x : Nat} {sh sh' : Shared} {t t' : Thread} {sig : Signal Cv}
    (h : ThreadStep v sh t sh' t' sig) :
    submitShare x sh' + ind (pending x) t' = submitShare x sh + ind (pending x) t := by
  have hcall : ∀ f : Option Call → Thread, pending x (f none) = false →
      (∀ d, pending x (f (some d)) = d.pending x) →
      submitShare x (callSubmit v sh).1 + ind (pending x) (f (some (callSubmit v sh).2)) =
        submitShare x sh + ind (pending x) (f none) := by
    intro f hn hf
    have hpc := callSubmit_pc (v := v) sh
    have hp : (callSubmit v sh).2.pending x = (sh.next == x) := by
      unfold Call.pending
      rcases hpc with h | h <;> rw [h] <;> simp [callSubmit]
    unfold ind
    rw [hn, hf, hp]
    simp only [submitShare, callSubmit, beq_iff_eq, Bool.false_eq_true, if_false]
    split_ifs <;> omega
  cases h with
  | worker h =>
    cases h with
    | @submit _ t _ _ _ h =>
      exact submit_submitted h (f := fun c => .worker (.run t c)) rfl (fun _ => rfl)
    | @call t => exact hcall (fun c => .worker (.run t c)) rfl (fun _ => rfl)
    | _ => rfl
  | call => exact hcall .client rfl (fun _ => rfl)
  | submit h => exact submit_submitted h (f := .client) rfl (fun _ => rfl)
  | dtor h => cases h <;> rfl
  | waiter h => cases h <;> rfl

theorem submit_logs {sh sh' : Shared} {c : Call} {c' : Option Call} {sig : Signal Cv}
    (h : SubmitStep sh c sh' c' sig) :
    sh'.dequeued = sh.dequeued ∧ sh'.started = sh.started ∧ sh'.finished = sh.finished := by
  cases h <;> exact ⟨rfl, rfl, rfl⟩

theorem thread_executed {x : Nat} {sh sh' : Shared} {t t' : Thread} {sig : Signal Cv}
    (h : ThreadStep v sh t sh' t' sig) :
    (sh'.started.count x - sh'.dequeued.count x : Int) + ind (holding x) t' =
        (sh.started.count x - sh.dequeued.count x : Int) + ind (holding x) t ∧
      (sh'.finished.count x - sh'.started.count x : Int) + ind (running x) t' =
        (sh.finished.count x - sh.started.count x : Int) + ind (running x) t := by
  have hsub : ∀ {c : Call} {c' : Option Call}, SubmitStep sh c sh' c' sig →
      ∀ f : Option Call → Thread, (holding x (f c') = holding x (f (some c))) →
      (running x (f c') = running x (f (some c))) →
      (sh'.started.count x - sh'.dequeued.count x : Int) + ind (holding x) (f c') =
          (sh.started.count x - sh.dequeued.count x : Int) + ind (holding x) (f (some c)) ∧
        (sh'.finished.count x - sh'.started.count x : Int) + ind (running x) (f c') =
          (sh.finished.count x - sh.started.count x : Int) + ind (running x) (f (some c)) := by
    intro c c' h f hh hr
    obtain ⟨hd, hst, hfi⟩ := submit_logs h
    unfold ind
    rw [hd, hst, hfi, hh, hr]
    exact ⟨rfl, rfl⟩
  cases h with
  | worker h =>
    cases h with
    | @submit _ t _ _ _ h => exact hsub h (fun c => .worker (.run t c)) rfl rfl
    | @pop t q hq =>
      refine ⟨?_, rfl⟩
      show (sh.started.count x - (sh.dequeued ++ [t]).count x : Int) + (if t == x then 1 else 0) =
        (sh.started.count x - sh.dequeued.count x : Int) + 0
      rw [count_concat]
      ring
    | @start t =>
      constructor
      · show ((sh.started ++ [t]).count x - sh.dequeued.count x : Int) + 0 =
          (sh.started.count x - sh.dequeued.count x : Int) + (if t == x then 1 else 0)
        rw [count_concat]
        ring
      · show (sh.finished.count x - (sh.started ++ [t]).count x : Int) + (if t == x then 1 else 0) =
          (sh.finished.count x - sh.started.count x : Int) + 0
        rw [count_concat]
        ring
    | @finish t =>
      refine ⟨rfl, ?_⟩
      show ((sh.finished ++ [t]).count x - sh.started.count x : Int) + 0 =
        (sh.finished.count x - sh.started.count x : Int) + (if t == x then 1 else 0)
      rw [count_concat]
      ring
    | _ => exact ⟨rfl, rfl⟩
  | call => exact ⟨rfl, rfl⟩
  | submit h => exact hsub h .client rfl rfl
  | dtor h => cases h <;> exact ⟨rfl, rfl⟩
  | waiter h => cases h <;> exact ⟨rfl, rfl⟩

/-- **Order of service.** -/
theorem pool_fifo (h : Runs ok v n m s) : Fifo s.shared := by
  refine Reach.invariant (I := fun s : Pool => Fifo s.shared) (show Fifo Shared.init from rfl) ?_ h
  intro s a s' hi hs _
  obtain ⟨t, t', sig, ht, hp, hd⟩ := step_inv hs
  exact thread_fifo hp hi

theorem ledger_init (x n m : Nat) : Ledger x (init n m) := by
  refine ⟨?_, ?_, ?_⟩
  · rw [tally_init rfl rfl rfl rfl n m]; simp [init, Shared.init]
  · rw [tally_init rfl rfl rfl rfl n m]; simp [init, Shared.init]
  · rw [tally_init rfl rfl rfl rfl n m]; simp [init, Shared.init]

theorem ledger_step {x : Nat} {s' : Pool} {i : Nat} (h : Moves v s s' i) (hi : Ledger x s) :
    Ledger x s' := by
  obtain ⟨t, t', sig, ht, hp, hd⟩ := h
  obtain ⟨hst, hfi⟩ := thread_executed (x := x) hp
  have h1 := sum_step (blind_inSubmit _).tally ht hd (thread_submitted (x := x) hp)
  have h2 := sum_step (g := fun sh => (sh.started.count x - sh.dequeued.count x : Int))
    (blind_holding x).tally ht hd hst
  have h3 := sum_step (g := fun sh => (sh.finished.count x - sh.started.count x : Int))
    (blind_running x).tally ht hd hfi
  obtain ⟨i1, i2, i3⟩ := hi
  unfold submitShare at h1
  refine ⟨?_, by omega, by omega⟩
  change _ + tally (ind (pending x)) _ = _ + tally (ind (pending x)) _ at h1
  omega

/-- **Each task is where the logs say.** -/
theorem pool_ledger (x : Nat) (h : Runs ok v n m s) : Ledger x s :=
  h.invariant (ledger_init x n m) fun _ _ _ hi hs _ => ledger_step (step_inv hs) hi

/-! ## Conservation -/

theorem toInt_ofInt_of_lt {z : Int} (h0 : 0 ≤ z) (h : z < 2 ^ 31) : (Int32.ofInt z).toInt = z :=
  Int32.toInt_ofInt_of_le (by omega) h

theorem ofInt_eq_zero {z : Int} (h0 : 0 ≤ z) (h : z < 2 ^ 32) (hz : Int32.ofInt z = 0) : z = 0 := by
  have hb : z.bmod (2 ^ 32) = 0 := by
    rw [Int32.ofInt_eq_iff_bmod_eq_toInt] at hz
    rw [hz]
    rfl
  have hd := Int.dvd_of_bmod_eq_zero hb
  omega

/-- When no worker is busy, every task that was popped has been started and has finished. -/
theorem dequeued_finished {x : Nat} (h : Ledger x s) (hun : tally (ind uncounted) s.threads = 0) :
    s.shared.dequeued.count x = s.shared.started.count x ∧
      s.shared.dequeued.count x = s.shared.finished.count x := by
  obtain ⟨_, hdeq, hsta⟩ := h
  have hhold : tally (ind (holding x)) s.threads ≤ tally (ind uncounted) s.threads := by
    refine tally_ind_mono fun t ht => ?_
    unfold holding at ht
    split at ht
    · rfl
    · cases ht
  have hrun : tally (ind (running x)) s.threads ≤ tally (ind uncounted) s.threads := by
    refine tally_ind_mono fun t ht => ?_
    unfold running at ht
    split at ht
    · rfl
    · cases ht
  have h1 : 0 ≤ tally (ind (holding x)) s.threads := tally_nonneg (ind_nonneg _)
  have h2 : 0 ≤ tally (ind (running x)) s.threads := tally_nonneg (ind_nonneg _)
  omega

/-- When nothing is outstanding, every accepted task has been started once and has finished. -/
theorem all_finished {x : Nat} (hl : Ledger x s) (hb : Balanced s.shared) (ho : outstanding s = 0)
    (hx : x ∈ s.shared.accepted) : s.shared.started.count x = 1 ∧ s.shared.finished.count x = 1 := by
  unfold outstanding at ho
  have hq : s.shared.queue = [] := List.eq_nil_of_length_eq_zero (by omega)
  have hun : tally (ind uncounted) s.threads = 0 := by
    rw [← countP_eq_tally]
    omega
  unfold Balanced at hb
  rw [hq, List.append_nil] at hb
  have hsub := hl.submitted
  have hfin := dequeued_finished hl hun
  have h3 : 0 ≤ tally (ind (pending x)) s.threads := tally_nonneg (ind_nonneg _)
  have hpos : 0 < s.shared.accepted.count x := List.count_pos_iff.mpr hx
  have heq : s.shared.accepted.count x = s.shared.dequeued.count x := hb.count_eq x
  split at hsub <;> omega

theorem count_of_outstanding (hc : Counted s) (ha : Added s) (hb : outstanding s < 2 ^ 31)
    (hs : s.threads.countP inSection = 0) : s.shared.taskCount.toInt = outstanding s := by
  obtain ⟨h0, _, heq⟩ := counted_bounds ha
  unfold Counted at hc
  rw [hc, heq hs, toInt_ofInt_of_lt (by omega) (by omega)]

theorem zero_of_outstanding (hc : Counted s) (ha : Added s) (ho : outstanding s = 0) :
    s.shared.taskCount = 0 := by
  obtain ⟨h0, hle, _⟩ := counted_bounds ha
  have hz : counted s = 0 := by omega
  unfold Counted at hc
  rw [hc, hz]
  rfl

theorem count_nonneg (h : Runs ok v n m s) (hb : outstanding s < 2 ^ 31) :
    0 ≤ s.shared.taskCount.toInt := by
  obtain ⟨h0, hle, _⟩ := counted_bounds (pool_adding h)
  have hc := pool_counter h
  unfold Counted at hc
  rw [hc, toInt_ofInt_of_lt h0 (by omega)]
  exact h0

theorem finished_of_zero (h : Runs ok v n m s) (hb : outstanding s < 2 ^ 32)
    (hs : s.threads.countP inSection = 0) (hz : s.shared.taskCount = 0) :
    ∀ x ∈ s.shared.accepted, s.shared.finished.count x = 1 := by
  obtain ⟨h0, hle, heq⟩ := counted_bounds (pool_adding h)
  have hc := ofInt_eq_zero h0 (by omega) ((pool_counter h).symm.trans hz)
  have ho : outstanding s = 0 := by have := heq hs; omega
  exact fun x hx => (all_finished (pool_ledger x h) (pool_fifo h).balanced ho hx).2

/-- In a `submit` call that has enqueued `x` and not counted it. -/
def counting (x : Nat) : Thread → Bool := inSubmit fun c => c.task == x && c.pc == .add

theorem accepted_mono {sh sh' : Shared} {t t' : Thread} {sig : Signal Cv}
    (h : ThreadStep v sh t sh' t' sig) {x : Nat} (hx : x ∈ sh.accepted) : x ∈ sh'.accepted := by
  have hsub : ∀ {c : Call} {c' : Option Call}, SubmitStep sh c sh' c' sig → x ∈ sh'.accepted := by
    intro c c' h
    cases h with
    | emplace => exact List.mem_append_left _ hx
    | _ => exact hx
  cases h with
  | worker h =>
    cases h with
    | submit h => exact hsub h
    | _ => exact hx
  | call => exact hx
  | submit h => exact hsub h
  | dtor h => cases h <;> exact hx
  | waiter h => cases h <;> exact hx

theorem finished_mono {s s' : Pool} {a : Nat × Choice} (h : step v s a = some s') {x : Nat}
    (hx : x ∈ s.shared.finished) : x ∈ s'.shared.finished := by
  obtain ⟨t, t', sig, _, hp, _⟩ := step_inv h
  generalize s'.shared = sh' at hp ⊢
  cases hp with
  | worker h =>
    cases h with
    | finish => exact List.mem_append_left _ hx
    | submit h => rw [(submit_logs h).2.2]; exact hx
    | _ => exact hx
  | call => exact hx
  | submit h => rw [(submit_logs h).2.2]; exact hx
  | dtor h => cases h <;> exact hx
  | waiter h => cases h <;> exact hx

/-- No `submit` call has yet to enqueue an accepted task. -/
theorem not_pending_of_accepted (h : Runs ok v n m s) {x : Nat} (hx : x ∈ s.shared.accepted)
    {t : Thread} (ht : t ∈ s.threads) : pending x t = false := by
  have hsub := (pool_ledger x h).submitted
  have hpos := List.count_pos_iff.mpr hx
  have hle : (if x < s.shared.next then 1 else 0 : Int) ≤ 1 := by split <;> decide
  cases hp : pending x t with
  | false => rfl
  | true =>
    have := tally_ind_pos ht hp
    omega

theorem submit_counting {x : Nat} {sh sh' : Shared} {c : Call} {c' : Option Call} {sig : Signal Cv}
    (h : SubmitStep sh c sh' c' sig) {f : Option Call → Thread} (hn : counting x (f none) = false)
    (hf : ∀ d, counting x (f (some d)) = (d.task == x && d.pc == .add))
    (hp : pending x (f (some c)) = false) (hpf : ∀ d, pending x (f (some d)) = d.pending x) :
    counting x (f c') = false := by
  cases h with
  | reject => exact hn
  | notify => exact hn
  | emplace =>
    rw [hpf] at hp
    rw [hf]
    simpa [Call.pending] using hp
  | _ => rw [hf]; simp

/-- An accepted task is counted once. -/
theorem counted_step {s' : Pool} {a : Nat × Choice} (h : Runs ok v n m s) (hs : step v s a = some s')
    {x : Nat} (hx : x ∈ s.shared.accepted) (hc : ∀ t ∈ s.threads, counting x t = false) :
    x ∈ s'.shared.accepted ∧ ∀ t ∈ s'.threads, counting x t = false := by
  refine ⟨?_, fun t ht => ?_⟩
  · obtain ⟨t, t', sig, _, hp, _⟩ := step_inv hs
    exact accepted_mono hp hx
  · refine Each.mem (Q := fun _ t => counting x t = false) ?_ ht
    refine each_step (step_inv hs) ?_ (fun _ _ _ _ j u _ _ _ hu => hc u (List.mem_of_getElem? hu))
      (fun _ _ => rfl) (fun _ _ => rfl)
    intro t sh' t' sig ht hp
    have hpend := not_pending_of_accepted h hx (List.mem_of_getElem? ht)
    cases hp with
    | worker h =>
      cases h with
      | @submit _ t _ _ _ h =>
        exact submit_counting h (f := fun c => .worker (.run t c)) rfl (fun _ => rfl) hpend
          (fun _ => rfl)
      | call => simp [counting, inSubmit, callSubmit_adding]
      | _ => rfl
    | call => simp [counting, inSubmit, callSubmit_adding]
    | submit h => exact submit_counting h (f := .client) rfl (fun _ => rfl) hpend (fun _ => rfl)
    | dtor => rfl
    | waiter => rfl

/-- When `task_count` is 0, no worker is busy, and what is queued is a task that its `submit` call
    has not counted yet. -/
theorem idle_of_zero (h : Runs ok v n m s) (hb : outstanding s < 2 ^ 32)
    (hz : s.shared.taskCount = 0) : tally (ind uncounted) s.threads = 0 ∧
      (s.shared.queue.length : Int) = tally (ind adding) s.threads := by
  obtain ⟨h0, hle, _⟩ := counted_bounds (pool_adding h)
  have hc := ofInt_eq_zero h0 (by omega) ((pool_counter h).symm.trans hz)
  have heq := counted_eq s
  have hadd : tally (ind adding) s.threads ≤ s.shared.queue.length := pool_adding h
  have hun : 0 ≤ tally (ind uncounted) s.threads := tally_nonneg (ind_nonneg _)
  omega

/-- When `task_count` is 0, every accepted task has finished, but for one that its `submit` call has
    not counted yet. -/
theorem executed_of_zero (h : Runs ok v n m s) (hb : outstanding s < 2 ^ 32)
    (hz : s.shared.taskCount = 0) {x : Nat} (hx : x ∈ s.shared.accepted) :
    x ∈ s.shared.finished ∨ ∃ t ∈ s.threads, counting x t = true := by
  obtain ⟨hun, hq⟩ := idle_of_zero h hb hz
  have hfifo : s.shared.accepted = s.shared.dequeued ++ s.shared.queue := pool_fifo h
  rw [hfifo, List.mem_append] at hx
  rcases hx with hx | hx
  · have hpos := List.count_pos_iff.mpr hx
    rw [(dequeued_finished (pool_ledger x h) hun).2] at hpos
    exact Or.inl (List.count_pos_iff.mp hpos)
  · have hlen := List.length_pos_of_mem hx
    obtain ⟨t, ht, hadd⟩ := exists_of_tally_ind (p := adding) (l := s.threads) (by omega)
    have hone : tally (ind adding) s.threads ≤ 1 :=
      (pool_locks h).mtx.tally_le_one fun _ ht => holdsMtx_of_inSection (inSection_of_adding ht)
    obtain ⟨y, hy⟩ := List.length_eq_one_iff.mp (show s.shared.queue.length = 1 by omega)
    rw [hy, List.mem_singleton] at hx
    subst hx
    refine Or.inr ⟨t, ht, ?_⟩
    have hend := (pool_atEnd h).mem ht
    unfold AtEnd at hend
    split at hend
    · rw [hy] at hend
      cases hend
      simp [counting, inSubmit]
    · rw [hy] at hend
      cases hend
      simp [counting, inSubmit]
    · rename_i hw hc
      unfold adding inSubmit at hadd
      split at hadd
      · rename_i r c
        obtain ⟨u, pc⟩ := c
        cases beq_iff_eq.mp hadd
        exact absurd rfl (hw r u)
      · rename_i c
        obtain ⟨u, pc⟩ := c
        cases beq_iff_eq.mp hadd
        exact absurd rfl (hc u)
      · cases hadd

/-- The wait on `end_cv` returns only when `task_count` is 0. -/
theorem zero_of_returned {s s' : Pool} {i : Nat} {ch : Choice}
    (h : step v s (i, ch) = some s') (hi : s.threads[i]? = some (.waiter .pred))
    (hr : s'.threads[i]? = some (.waiter .returned)) : s.shared.taskCount = 0 := by
  obtain ⟨t, t', sig, ht, hp, hd⟩ := step_inv h
  rw [hi, Option.some.injEq] at ht
  subst ht
  obtain ⟨hlt, _⟩ := List.getElem?_eq_some_iff.mp hi
  generalize s'.shared = sh', s'.threads = ts' at hp hd hr
  cases hp with
  | waiter hw =>
    cases hw with
    | zero hz => exact hz
    | nonzero =>
      cases hd
      rw [List.getElem?_set_self hlt] at hr
      cases hr

/-- **Conservation of the task counter** in `threadpool.h`, for any number of workers and
    submitting threads and every interleaving, as far as an `int` counts.  While no `submit` is
    in its critical section, `task_count` is the number of tasks queued or popped and not yet
    counted off; it is never negative; and when it is 0, every task accepted so far (by whichever
    thread or task it was submitted) has finished, in particular when the wait on `end_cv`
    returns. -/
theorem counter_conservation (n m : Nat) (s : Pool) (h : Runs anyStep threadpoolH n m s) :
    (outstanding s < 2 ^ 31 → s.threads.countP inSection = 0 →
      s.shared.taskCount.toInt = outstanding s) ∧
    (outstanding s < 2 ^ 31 → 0 ≤ s.shared.taskCount.toInt) ∧
    (outstanding s < 2 ^ 32 → s.threads.countP inSection = 0 → s.shared.taskCount = 0 →
      ∀ x ∈ s.shared.accepted, s.shared.finished.count x = 1) ∧
    ∀ (i : Nat) (ch : Choice) (s' : Pool), step threadpoolH s (i, ch) = some s' →
      s.threads[i]? = some (.waiter .pred) → s'.threads[i]? = some (.waiter .returned) →
      outstanding s < 2 ^ 32 → s.threads.countP inSection = 0 →
      ∀ x ∈ s.shared.accepted, s.shared.finished.count x = 1 :=
  ⟨count_of_outstanding (pool_counter h) (pool_adding h), count_nonneg h, finished_of_zero h,
    fun _ _ _ hst hi hr hb hs => finished_of_zero h hb hs (zero_of_returned hst hi hr)⟩

/-! ## The width of the counter -/

/-- One whole call of `submit` by thread 1, when nobody is asleep. -/
def submitOnce (v : Source) : List (Nat × Choice) :=
  List.replicate (if v.stopTest then 7 else 6) (1, .go)

/-- Two tasks are submitted; the worker (thread 0) pops the first and is inside it. -/
def twoTasks : List (Nat × Choice) :=
  submitOnce threadpoolH ++ submitOnce threadpoolH ++ List.replicate 4 (0, .go)

theorem counter_conservation_two :
    ((exec (step threadpoolH) (init 1 1) twoTasks).get (by decide)).shared.taskCount.toInt = 2 := by
  have h := (counter_conservation 1 1 _ (exec_reach_get twoTasks (by decide))).1
    (by decide) (by decide)
  rw [h]
  decide

/-- `k` tasks have been submitted; the worker has not been scheduled yet. -/
def loaded (w : Waiter) (k : Nat) : Pool :=
  ⟨{ Shared.init with queue := List.range k, taskCount := Int32.ofNat k, next := k,
                      accepted := List.range k },
    [.worker .top, .client none, .dtor .idle, .waiter w]⟩

theorem exec_submitOnce (w : Waiter) (k : Nat) :
    exec (step v) (loaded w k) (submitOnce v) = some (loaded w (k + 1)) := by
  have hsucc : loaded w (k + 1) =
      ⟨{ Shared.init with queue := List.range k ++ [k], taskCount := Int32.ofNat k + 1,
                          next := k + 1, accepted := List.range k ++ [k] },
        [.worker .top, .client none, .dtor .idle, .waiter w]⟩ := by
    unfold loaded
    rw [List.range_succ, Int32.ofNat_add]
    rfl
  rw [hsucc]
  obtain ⟨stopTest, fused⟩ := v
  cases stopTest <;> rfl

/-- Any number of tasks can be submitted before a worker is scheduled. -/
theorem reach_loaded (w : Waiter) (k : Nat) :
    ∀ d, Reach anyStep (step v) (loaded w k) (loaded w (k + d))
  | 0 => Reach.refl
  | d + 1 => (reach_loaded w k d).trans (exec_reach _ (exec_submitOnce w (k + d)))

theorem runs_loaded (k : Nat) : Runs anyStep v 1 1 (loaded .idle k) := by
  have h := reach_loaded (v := v) .idle 0 k
  rw [Nat.zero_add] at h
  exact h

theorem loaded_section (w : Waiter) (k : Nat) : (loaded w k).threads.countP inSection = 0 := rfl

theorem loaded_count (w : Waiter) (k : Nat) : (loaded w k).shared.taskCount = Int32.ofNat k := rfl

theorem loaded_outstanding (w : Waiter) (k : Nat) : outstanding (loaded w k) = k := by
  unfold outstanding loaded
  rw [List.length_range]
  rfl

theorem loaded_accepted (w : Waiter) {k x : Nat} (h : x < k) : x ∈ (loaded w k).shared.accepted :=
  List.mem_range.mpr h

theorem loaded_finished (w : Waiter) (k x : Nat) : x ∉ (loaded w k).shared.finished :=
  List.not_mem_nil

/-- The counter is an `int`: after `2^31` submissions it is negative, and after `2^32` it is 0
    although nothing has been executed; each time no `submit` is in progress. -/
theorem counter_wraps :
    (Runs anyStep threadpoolH 1 1 (loaded .idle (2 ^ 31)) ∧
      (loaded .idle (2 ^ 31)).threads.countP inSection = 0 ∧
      (loaded .idle (2 ^ 31)).shared.taskCount.toInt = -2 ^ 31 ∧
      outstanding (loaded .idle (2 ^ 31)) = 2 ^ 31) ∧
    (Runs anyStep threadpoolH 1 1 (loaded .idle (2 ^ 32)) ∧
      (loaded .idle (2 ^ 32)).threads.countP inSection = 0 ∧
      (loaded .idle (2 ^ 32)).shared.taskCount = 0 ∧
      0 ∈ (loaded .idle (2 ^ 32)).shared.accepted ∧
      0 ∉ (loaded .idle (2 ^ 32)).shared.finished) := by
  refine ⟨⟨runs_loaded _, loaded_section _ _, ?_, loaded_outstanding _ _⟩,
    ⟨runs_loaded _, loaded_section _ _, ?_, loaded_accepted _ (by norm_num),
      loaded_finished _ _ _⟩⟩
  · rw [loaded_count]
    decide
  · rw [loaded_count]
    decide

end CppBackend.ThreadPool
