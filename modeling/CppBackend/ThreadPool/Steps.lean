import CppBackend.ThreadPool.Model

/-!
# What one step of the pool can do

Inversion of the step functions, one constructor for each atomic operation of the source.  All
laws about the pool are checked on these constructors; none unfolds the step functions again.
-/

set_option autoImplicit false

namespace CppBackend.ThreadPool

open Library.Threads

/-- The operations of `submit`. -/
inductive SubmitStep : Shared → Call → Shared → Option Call → Signal Cv → Prop where
  | reject {sh : Shared} {t : Nat} (h : sh.stop = true) :
      SubmitStep sh ⟨t, .test⟩
        { sh with cerr := sh.cerr ++ [stoppedMessage], rejected := sh.rejected ++ [t] } none .quiet
  | pass {sh : Shared} {t : Nat} (h : sh.stop = false) :
      SubmitStep sh ⟨t, .test⟩ sh (some ⟨t, .lock⟩) .quiet
  | lock {sh : Shared} {t : Nat} (h : sh.mtx = false) :
      SubmitStep sh ⟨t, .lock⟩ { sh with mtx := true } (some ⟨t, .emplace⟩) .quiet
  | emplace {sh : Shared} {t : Nat} :
      SubmitStep sh ⟨t, .emplace⟩
        { sh with queue := sh.queue ++ [t], accepted := sh.accepted ++ [t] } (some ⟨t, .add⟩) .quiet
  | add {sh : Shared} {t : Nat} :
      SubmitStep sh ⟨t, .add⟩ { sh with taskCount := sh.taskCount + 1 } (some ⟨t, .unlock⟩) .quiet
  | unlock {sh : Shared} {t : Nat} :
      SubmitStep sh ⟨t, .unlock⟩ { sh with mtx := false } (some ⟨t, .notify⟩) .quiet
  | notify {sh : Shared} {t : Nat} {j : Option Nat} :
      SubmitStep sh ⟨t, .notify⟩ sh none (.one .cv j)

theorem submit_inv {sh sh' : Shared} {c : Call} {ch : Choice} {c' : Option Call} {sig : Signal Cv}
    (h : submit sh c ch = some (sh', c', sig)) : SubmitStep sh c sh' c' sig := by
  obtain ⟨t, pc⟩ := c
  cases pc <;> simp only [submit] at h
  case test =>
    split at h <;> cases h
    · exact .reject (by assumption)
    · exact .pass (by simpa using ‹¬sh.stop = true›)
  case lock =>
    split at h <;> cases h
    exact .lock (by simpa using ‹¬sh.mtx = true›)
  case emplace => cases h; exact .emplace
  case add => cases h; exact .add
  case unlock => cases h; exact .unlock
  case notify => cases h; exact .notify

/-- The operations of `NewThread`. -/
inductive WorkerStep (v : Source) : Shared → Worker → Shared → Worker → Signal Cv → Prop where
  | lock {sh : Shared} (h : sh.mtx = false) :
      WorkerStep v sh .top { sh with mtx := true } .pred .quiet
  | ready {sh : Shared} (h : sh.queue ≠ [] ∨ sh.stop = true) : WorkerStep v sh .pred sh .check .quiet
  | unready {sh : Shared} (hq : sh.queue = []) (hs : sh.stop = false) :
      WorkerStep v sh .pred sh .doze .quiet
  | sleep {sh : Shared} : WorkerStep v sh .doze { sh with mtx := false } .sleep .quiet
  | spurious {sh : Shared} : WorkerStep v sh .sleep sh .woken .quiet
  | relock {sh : Shared} (h : sh.mtx = false) :
      WorkerStep v sh .woken { sh with mtx := true } .pred .quiet
  | stop {sh : Shared} (hs : sh.stop = true) (hq : sh.queue = []) :
      WorkerStep v sh .check sh .leave .quiet
  | again {sh : Shared} (hq : sh.queue = []) :
      WorkerStep v sh .check { sh with mtx := false } .top .quiet
  | pop {sh : Shared} {t : Nat} {q : List Nat} (hq : sh.queue = t :: q) :
      WorkerStep v sh .check { sh with queue := q, dequeued := sh.dequeued ++ [t] } (.popped t) .quiet
  | start {sh : Shared} {t : Nat} :
      WorkerStep v sh (.popped t) { sh with mtx := false, started := sh.started ++ [t] }
        (.run t none) .quiet
  | finish {sh : Shared} {t : Nat} :
      WorkerStep v sh (.run t none) { sh with finished := sh.finished ++ [t] } .count .quiet
  | call {sh : Shared} {t : Nat} :
      WorkerStep v sh (.run t none) (callSubmit v sh).1 (.run t (some (callSubmit v sh).2)) .quiet
  | submit {sh sh' : Shared} {t : Nat} {c : Call} {c' : Option Call} {sig : Signal Cv}
      (h : SubmitStep sh c sh' c' sig) : WorkerStep v sh (.run t (some c)) sh' (.run t c') sig
  | countLast {sh : Shared} (hf : v.fused = true) (h : sh.taskCount = 1) :
      WorkerStep v sh .count { sh with taskCount := sh.taskCount - 1 } .endLock .quiet
  | countMore {sh : Shared} (hf : v.fused = true) (h : sh.taskCount ≠ 1) :
      WorkerStep v sh .count { sh with taskCount := sh.taskCount - 1 } .top .quiet
  | countApart {sh : Shared} (hf : v.fused = false) :
      WorkerStep v sh .count { sh with taskCount := sh.taskCount - 1 } .read .quiet
  | readZero {sh : Shared} (h : sh.taskCount = 0) : WorkerStep v sh .read sh .endLock .quiet
  | readMore {sh : Shared} (h : sh.taskCount ≠ 0) : WorkerStep v sh .read sh .top .quiet
  | endLock {sh : Shared} (h : sh.endMtx = false) :
      WorkerStep v sh .endLock { sh with endMtx := true } .endNotify .quiet
  | endNotify {sh : Shared} {j : Option Nat} :
      WorkerStep v sh .endNotify sh .endUnlock (.one .endCv j)
  | endUnlock {sh : Shared} : WorkerStep v sh .endUnlock { sh with endMtx := false } .top .quiet
  | leave {sh : Shared} : WorkerStep v sh .leave { sh with mtx := false } .exited .quiet

theorem newThread_inv {v : Source} {sh sh' : Shared} {w w' : Worker} {ch : Choice}
    {sig : Signal Cv} (h : newThread v sh w ch = some (sh', w', sig)) :
    WorkerStep v sh w sh' w' sig := by
  cases w <;> simp only [newThread] at h
  case top =>
    split at h <;> cases h
    exact .lock (by simpa using ‹¬sh.mtx = true›)
  case pred =>
    cases h
    split
    · rename_i hp; exact .ready (by simpa using hp)
    · rename_i hp
      simp only [Bool.or_eq_true, Bool.not_eq_true', not_or, Bool.not_eq_false,
        List.isEmpty_iff, Bool.not_eq_true] at hp
      exact .unready hp.1 hp.2
  case doze => cases h; exact .sleep
  case sleep => cases h; exact .spurious
  case woken =>
    split at h <;> cases h
    exact .relock (by simpa using ‹¬sh.mtx = true›)
  case check =>
    split at h
    · rename_i hs
      cases h
      simp only [Bool.and_eq_true, List.isEmpty_iff] at hs
      exact .stop hs.1 hs.2
    · split at h
      · rename_i hq; cases h; exact .again hq
      · rename_i t q hq; cases h; exact .pop hq
  case popped => cases h; exact .start
  case run t call =>
    cases call with
    | none =>
      simp only at h
      split at h <;> cases h
      · exact .finish
      · exact .call
    | some c =>
      simp only at h
      split at h <;> cases h
      rename_i hs
      exact .submit (submit_inv hs)
  case count =>
    cases h
    split
    · split
      · exact .countLast (by assumption) (by assumption)
      · exact .countMore (by assumption) (by assumption)
    · exact .countApart (by simpa using ‹¬v.fused = true›)
  case read =>
    cases h
    split
    · exact .readZero (by assumption)
    · exact .readMore (by assumption)
  case endLock =>
    split at h <;> cases h
    exact .endLock (by simpa using ‹¬sh.endMtx = true›)
  case endNotify => cases h; exact .endNotify
  case endUnlock => cases h; exact .endUnlock
  case leave => cases h; exact .leave
  case exited => cases h

/-- The operations of `~ThreadPool`. -/
inductive DtorStep : Shared → Dtor → Shared → Dtor → Signal Cv → Prop where
  | begin {sh : Shared} : DtorStep sh .idle sh .lock .quiet
  | lock {sh : Shared} (h : sh.mtx = false) : DtorStep sh .lock { sh with mtx := true } .store .quiet
  | store {sh : Shared} : DtorStep sh .store { sh with stop := true } .unlock .quiet
  | unlock {sh : Shared} : DtorStep sh .unlock { sh with mtx := false } .notify .quiet
  | notifyAll {sh : Shared} : DtorStep sh .notify sh .join (.all .cv)
  | join {sh : Shared} : DtorStep sh .join sh .done .quiet

theorem destroy_inv {sh sh' : Shared} {d d' : Dtor} {sig : Signal Cv}
    (h : destroy sh d = some (sh', d', sig)) : DtorStep sh d sh' d' sig := by
  cases d <;> simp only [destroy] at h
  case idle => cases h; exact .begin
  case lock =>
    split at h <;> cases h
    exact .lock (by simpa using ‹¬sh.mtx = true›)
  case store => cases h; exact .store
  case unlock => cases h; exact .unlock
  case notify => cases h; exact .notifyAll
  case join => cases h; exact .join
  case done => cases h

/-- The operations of the wait on `end_cv`. -/
inductive WaiterStep : Shared → Waiter → Shared → Waiter → Signal Cv → Prop where
  | begin {sh : Shared} : WaiterStep sh .idle sh .lock .quiet
  | lock {sh : Shared} (h : sh.endMtx = false) :
      WaiterStep sh .lock { sh with endMtx := true } .pred .quiet
  | zero {sh : Shared} (h : sh.taskCount = 0) : WaiterStep sh .pred sh .returned .quiet
  | nonzero {sh : Shared} (h : sh.taskCount ≠ 0) : WaiterStep sh .pred sh .tested .quiet
  | sleep {sh : Shared} : WaiterStep sh .tested { sh with endMtx := false } .asleep .quiet
  | spurious {sh : Shared} : WaiterStep sh .asleep sh .woken .quiet
  | relock {sh : Shared} (h : sh.endMtx = false) :
      WaiterStep sh .woken { sh with endMtx := true } .pred .quiet
  | leave {sh : Shared} : WaiterStep sh .returned { sh with endMtx := false } .idle .quiet

theorem waitEnd_inv {sh sh' : Shared} {w w' : Waiter} {sig : Signal Cv}
    (h : waitEnd sh w = some (sh', w', sig)) : WaiterStep sh w sh' w' sig := by
  cases w <;> simp only [waitEnd] at h
  case idle => cases h; exact .begin
  case lock =>
    split at h <;> cases h
    exact .lock (by simpa using ‹¬sh.endMtx = true›)
  case pred =>
    cases h
    split
    · exact .zero (by assumption)
    · exact .nonzero (by assumption)
  case tested => cases h; exact .sleep
  case asleep => cases h; exact .spurious
  case woken =>
    split at h <;> cases h
    exact .relock (by simpa using ‹¬sh.endMtx = true›)
  case returned => cases h; exact .leave

/-- The operations of any thread. -/
inductive ThreadStep (v : Source) : Shared → Thread → Shared → Thread → Signal Cv → Prop where
  | worker {sh sh' : Shared} {w w' : Worker} {sig : Signal Cv} (h : WorkerStep v sh w sh' w' sig) :
      ThreadStep v sh (.worker w) sh' (.worker w') sig
  | call {sh : Shared} :
      ThreadStep v sh (.client none) (callSubmit v sh).1 (.client (some (callSubmit v sh).2)) .quiet
  | submit {sh sh' : Shared} {c : Call} {c' : Option Call} {sig : Signal Cv}
      (h : SubmitStep sh c sh' c' sig) : ThreadStep v sh (.client (some c)) sh' (.client c') sig
  | dtor {sh sh' : Shared} {d d' : Dtor} {sig : Signal Cv} (h : DtorStep sh d sh' d' sig) :
      ThreadStep v sh (.dtor d) sh' (.dtor d') sig
  | waiter {sh sh' : Shared} {w w' : Waiter} {sig : Signal Cv} (h : WaiterStep sh w sh' w' sig) :
      ThreadStep v sh (.waiter w) sh' (.waiter w') sig

theorem threadStep_inv {v : Source} {sh sh' : Shared} {t t' : Thread} {ch : Choice}
    {sig : Signal Cv} (h : threadStep v sh t ch = some (sh', t', sig)) :
    ThreadStep v sh t sh' t' sig := by
  cases t with
  | worker w =>
    simp only [threadStep, Option.map_eq_some_iff] at h
    obtain ⟨⟨a, b, c⟩, hr, he⟩ := h
    cases he
    exact .worker (newThread_inv hr)
  | client c =>
    cases c with
    | none => cases h; exact .call
    | some c =>
      simp only [threadStep, Option.map_eq_some_iff] at h
      obtain ⟨⟨a, b, d⟩, hr, he⟩ := h
      cases he
      exact .submit (submit_inv hr)
  | dtor d =>
    simp only [threadStep, Option.map_eq_some_iff] at h
    obtain ⟨⟨a, b, c⟩, hr, he⟩ := h
    cases he
    exact .dtor (destroy_inv hr)
  | waiter w =>
    simp only [threadStep, Option.map_eq_some_iff] at h
    obtain ⟨⟨a, b, c⟩, hr, he⟩ := h
    cases he
    exact .waiter (waitEnd_inv hr)

theorem leave_of_exited {v : Source} {sh sh' : Shared} {t : Thread} {sig : Signal Cv}
    (h : ThreadStep v sh t sh' (.worker .exited) sig) : t = .worker .leave := by
  cases h with
  | worker h =>
    cases h with
    | leave => rfl

/-- Thread `i` makes one step. -/
def Moves (v : Source) (s s' : Pool) (i : Nat) : Prop :=
  ∃ t t' sig, s.threads[i]? = some t ∧ ThreadStep v s.shared t s'.shared t' sig ∧
    Delivered (program v) sig (s.threads.set i t') s'.threads

/-- **Inversion of a step of the pool.** -/
theorem step_inv {v : Source} {s s' : Pool} {a : Nat × Choice} (h : step v s a = some s') :
    Moves v s s' a.1 := by
  obtain ⟨t, t', sig, ht, hp, hd⟩ := Library.Threads.step_inv h
  exact ⟨t, t', sig, ht, threadStep_inv hp, hd⟩

/-- A thread that is asleep is a worker in `cv.wait` or the waiter in `end_cv.wait`. -/
theorem asleep_cases {v : Source} {c : Cv} {t : Thread} (h : (program v).asleep c t = true) :
    (c = .cv ∧ t = .worker .sleep) ∨ (c = .endCv ∧ t = .waiter .asleep) := by
  change asleep c t = true at h
  unfold asleep at h
  split at h
  · exact Or.inl ⟨rfl, rfl⟩
  · exact Or.inr ⟨rfl, rfl⟩
  · cases h

/-- The rule for laws between the members of the pool and each thread. -/
theorem each_step {v : Source} {Q : Shared → Thread → Prop} {s s' : Pool} {i : Nat}
    (h : Moves v s s' i)
    (own : ∀ t sh' t' sig, s.threads[i]? = some t → ThreadStep v s.shared t sh' t' sig → Q sh' t')
    (others : ∀ t sh' t' sig j u, s.threads[i]? = some t → ThreadStep v s.shared t sh' t' sig →
      j ≠ i → s.threads[j]? = some u → Q sh' u)
    (worker : ∀ sh, Q sh (.worker .sleep) → Q sh (.worker .woken))
    (waiter : ∀ sh, Q sh (.waiter .asleep) → Q sh (.waiter .woken)) : Each Q s' := by
  obtain ⟨t, t', sig, ht, hp, hd⟩ := h
  refine each_moved hd (own t _ t' sig ht hp) (fun j u => others t _ t' sig j u ht hp) ?_
  intro c sh t hs hq
  rcases asleep_cases hs with ⟨_, rfl⟩ | ⟨_, rfl⟩
  · exact worker sh hq
  · exact waiter sh hq

end CppBackend.ThreadPool
