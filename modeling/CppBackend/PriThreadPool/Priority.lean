import CppBackend.PriThreadPool.Steps

/-!
# Dispatch by priority

While a worker stands between its copy of `top()` and `pop()` it holds `mtx`, so the front of the queue is
still the task that it has copied; and the front is a task of the highest priority.  So no task is
popped while one of a higher priority is queued, whatever is submitted meanwhile
(`priority_dispatch`).
-/

set_option autoImplicit false

namespace CppBackend.PriThreadPool

open Library.Transition Library.Tally Library.Threads Library.Mutex Library.Priority
open ThreadPool (Shared Cv threadPoolCpp holdsMtx Laws)

variable {pri : Nat → Int32} {Q : TaskQueue pri}

/-! ## The copied task -/

/-- Only a thread that holds `mtx` changes the queue. -/
theorem thread_queue {sh sh' : Shared} {t t' : Thread} {sig : Signal Cv}
    (h : ThreadStep Q sh t sh' t' sig) (hn : holdsMtx t.plain = false) : sh'.queue = sh.queue := by
  cases h with
  | copy => rfl
  | pop => cases hn
  | throws => rfl
  | emplace h hx =>
    rw [(ThreadPool.thread_protected h hn).1] at hx
    simp at hx
  | plain h hq => exact hq

theorem copied_step {s s' : PriPool} {a : Nat × Choice} (h : step Q s a = some s')
    (hm : Exclusive Shared.mtx holdsMtx (plain s)) (hi : Each Copied s) : Each Copied s' := by
  obtain ⟨t, t', sig, ht, hp, hd⟩ := Library.Threads.step_inv h
  have hp := threadStep_inv hp
  refine each_moved hd ?_ ?_ ?_
  · -- the moving thread
    generalize s'.shared = sh' at hp
    cases hp with
    | copy hq =>
      show s.shared.queue.head? = some _
      rw [hq]
      rfl
    | _ => trivial
  · -- another worker with a copied task holds `mtx`, so the mover does not
    intro j u hj hu
    cases u with
    | pool u => trivial
    | copied x =>
      have hn : holdsMtx t.plain = false := hm.alone (plain_get hu) (plain_get ht) hj.symm rfl
      show s'.shared.queue.head? = some x
      rw [thread_queue hp hn]
      exact hi j _ hu
  · intro c sh t hs _
    cases t with
    | pool t => trivial
    | copied t => cases c <;> cases hs

theorem thread_ordered {sh sh' : Shared} {t t' : Thread} {sig : Signal Cv}
    (h : ThreadStep Q sh t sh' t' sig) (hi : Q.Ordered sh.queue) : Q.Ordered sh'.queue := by
  cases h with
  | copy => exact hi
  | pop => exact Q.ordered_pop hi
  | throws => exact hi
  | emplace => exact Q.ordered_push _ hi
  | plain h hq => rw [hq]; exact hi

/-- The laws of the pool, and what holds of its queue. -/
structure Sound (Q : TaskQueue pri) (n : Nat) (s : PriPool) : Prop where
  laws : Laws n (plain s)
  copied : Each Copied s
  ordered : Q.Ordered s.shared.queue

/-- The runs of a pool with `n` workers and `m` client threads. -/
abbrev Runs (ok : PriPool → Nat × Choice → PriPool → Prop) (Q : TaskQueue pri) (n m : Nat)
    (s : PriPool) : Prop :=
  Reach ok (step Q) (init n m) s

variable {ok : PriPool → Nat × Choice → PriPool → Prop} {n m : Nat} {s : PriPool}

theorem sound_init (n m : Nat) : Sound Q n (init n m) := by
  refine ⟨?_, ?_, Q.ordered_nil⟩
  · rw [plain_init]
    exact ThreadPool.laws_init n m
  · intro j t ht
    obtain ⟨u, _, rfl⟩ := List.mem_map.mp (List.mem_of_getElem? ht)
    trivial

theorem sound_step {s' : PriPool} {a : Nat × Choice} (h : step Q s a = some s') (hi : Sound Q n s) :
    Sound Q n s' := by
  refine ⟨?_, copied_step h hi.laws.locks.mtx hi.copied, ?_⟩
  · rcases step_plain h hi.copied with he | ⟨p, lines, hm, hq, he⟩
    · rw [he]
      exact hi.laws
    · rw [he]
      exact (hi.laws.moves hm).rearranged hq lines
  · obtain ⟨t, t', sig, _, hp, _⟩ := Library.Threads.step_inv h
    exact thread_ordered (threadStep_inv hp) hi.ordered

theorem pool_sound (h : Runs ok Q n m s) : Sound Q n s :=
  h.invariant (sound_init n m) fun _ _ _ hi hs _ => sound_step hs hi

/-! ## The order of dispatch -/

variable {a b : Nat}

theorem thread_leads {sh sh' : Shared} {t t' : Thread} {sig : Signal Cv}
    (h : ThreadStep Q sh t sh' t' sig) (hc : Copied sh t) (ho : Q.Ordered sh.queue)
    (hlt : compare (pri b) (pri a) = true) (hi : Leads a b sh.queue sh.dequeued) :
    Leads a b sh'.queue sh'.dequeued := by
  cases h with
  | copy => exact hi
  | @pop t =>
    obtain ⟨q, hq⟩ := List.head?_eq_some_iff.mp hc
    rw [hq] at hi ho ⊢
    exact hi.pop ho hlt
  | throws => exact hi
  | @emplace sh₁ _ _ x h hx =>
    have hle : sh.queue.length ≤ sh₁.queue.length := by
      rw [hx, List.length_append]
      omega
    rw [ThreadPool.dequeued_kept h hle]
    exact hi.push
  | plain h hq =>
    rw [ThreadPool.dequeued_kept h (le_of_eq (congrArg List.length hq).symm), hq]
    exact hi

theorem leads_step {s' : PriPool} {c : Nat × Choice} (h : step Q s c = some s') (hs : Sound Q n s)
    (hlt : compare (pri b) (pri a) = true) (hi : Leads a b s.shared.queue s.shared.dequeued) :
    Leads a b s'.shared.queue s'.shared.dequeued := by
  obtain ⟨t, t', sig, ht, hp, _⟩ := Library.Threads.step_inv h
  exact thread_leads (threadStep_inv hp) (hs.copied c.1 t ht) hs.ordered hlt hi

/-- **Priority dispatch never inverts**: when two tasks are queued at some moment, the one with the higher
    priority is popped before the other, for any number of workers and clients, and whatever is submitted
    afterwards. -/
theorem priority_dispatch (Q : TaskQueue pri) (n m : Nat) (s t : PriPool) (hs : Runs anyStep Q n m s)
    (ht : Reach anyStep (step Q) s t) (a b : Nat) (ha : a ∈ s.shared.queue) (hb : b ∈ s.shared.queue)
    (hlt : pri b < pri a) (hpop : b ∈ t.shared.dequeued) :
    ∃ xs ys, t.shared.dequeued = xs ++ a :: ys ∧ b ∉ xs := by
  have hcmp : compare (pri b) (pri a) = true := decide_eq_true hlt
  have hstart : Leads a b s.shared.queue s.shared.dequeued :=
    Or.inl ⟨ha, (pool_sound hs).laws.not_dequeued hb⟩
  have hend : Leads a b t.shared.queue t.shared.dequeued :=
    ht.keeps hs (fun _ _ _ hr hi hstep _ => leads_step hstep (pool_sound hr) hcmp hi) hstart
  rcases hend with ⟨_, hnot⟩ | hleft
  · exact absurd hpop hnot
  · exact hleft

/-- A queue that keeps its tasks in descending order of their priorities. -/
def sortedQueue (pri : Nat → Int32) : TaskQueue pri :=
  PriorityQueue.descending (fun t => (pri t).toInt) fun _ _ =>
    decide_eq_true_iff.trans Int32.lt_iff_toInt_lt

/-- One whole call of `submit` by thread 1, when nobody is asleep. -/
def submitOnce : List (Nat × Choice) := List.replicate 6 (1, .pool .go)

/-- The priorities of a first task, and of the later ones. -/
def laterFirst (t : Nat) : Int32 := if t = 0 then 1 else 2

/-- Two tasks have been submitted. -/
def bothQueued : PriPool :=
  (exec (step (sortedQueue laterFirst)) (init 1 1) (submitOnce ++ submitOnce)).get (by decide)

/-- The worker (thread 0) has executed the one and popped the other. -/
def bothPopped : PriPool :=
  (exec (step (sortedQueue laterFirst)) bothQueued (List.replicate 12 (0, .pool .go))).get (by decide)

theorem priority_dispatch_two : ∃ xs ys, bothPopped.shared.dequeued = xs ++ 1 :: ys ∧ 0 ∉ xs :=
  priority_dispatch (sortedQueue laterFirst) 1 1 bothQueued bothPopped
    (exec_reach_get _ (by decide)) (exec_reach_get _ (by decide)) 1 0 (by decide) (by decide) (by decide)
    (by decide)

end CppBackend.PriThreadPool
