import CppBackend.PriThreadPool.Model
import CppBackend.ThreadPool.Laws

/-!
# What one step of the priority pool can do

Inversion of the step functions, and what they come to: seen without the order of the queue (`plain`),
a step of the priority pool is no step, or one step of the pool of `ThreadPool.cpp` (`step_plain`).
A task that throws takes the step of a task that returns.  The one point that needs an argument is
`pop()`: it takes out the task that the worker has copied, because nobody has touched the queue
since (`Copied`).
-/

set_option autoImplicit false

namespace CppBackend.PriThreadPool

open Library.Transition Library.Tally Library.Threads Library.Mutex Library.Priority
open ThreadPool (Shared Call Worker Cv threadPoolCpp SubmitStep WorkerStep holdsMtx rearranged)

variable {pri : Nat → Int32} {Q : TaskQueue pri}

/-- The operations of any thread. -/
inductive ThreadStep (Q : TaskQueue pri) : Shared → Thread → Shared → Thread → Signal Cv → Prop where
  | copy {sh : Shared} {t : Nat} {q : List Nat} (hq : sh.queue = t :: q) :
      ThreadStep Q sh (.pool (.worker .check)) sh (.copied t) .quiet
  | pop {sh : Shared} {t : Nat} :
      ThreadStep Q sh (.copied t) { sh with queue := Q.pop sh.queue, dequeued := sh.dequeued ++ [t] }
        (.pool (.worker (.popped t))) .quiet
  | throws {sh : Shared} {t : Nat} {line : String} :
      ThreadStep Q sh (.pool (.worker (.run t none)))
        { sh with cerr := sh.cerr ++ [line], finished := sh.finished ++ [t] }
        (.pool (.worker .count)) .quiet
  | emplace {sh sh' : Shared} {t t' : ThreadPool.Thread} {x : Nat}
      (h : ThreadPool.ThreadStep threadPoolCpp sh t sh' t' .quiet) (hx : sh'.queue = sh.queue ++ [x]) :
      ThreadStep Q sh (.pool t) { sh' with queue := Q.push sh.queue x } (.pool t') .quiet
  | plain {sh sh' : Shared} {t t' : ThreadPool.Thread} {sig : Signal Cv}
      (h : ThreadPool.ThreadStep threadPoolCpp sh t sh' t' sig) (hq : sh'.queue = sh.queue) :
      ThreadStep Q sh (.pool t) sh' (.pool t') sig

/-- A call of `submit` takes the step of the pool without priorities, and where it enqueues, the queue is
    rearranged. -/
theorem submit_inv {sh sh' : Shared} {c : Call} {ch : ThreadPool.Choice} {c' : Option Call}
    {sig : Signal Cv} (h : submit Q sh c ch = some (sh', c', sig)) {t : ThreadPool.Thread}
    {f : Option Call → ThreadPool.Thread}
    (hf : ∀ {sh₁ c₁ sig₁}, SubmitStep sh c sh₁ c₁ sig₁ →
      ThreadPool.ThreadStep threadPoolCpp sh t sh₁ (f c₁) sig₁) :
    ThreadStep Q sh (.pool t) sh' (.pool (f c')) sig := by
  obtain ⟨x, pc⟩ := c
  unfold submit at h
  split at h
  · rename_i hpc
    cases hpc
    cases h
    exact .emplace (x := x) (hf .emplace) rfl
  · rename_i hpc
    have hstep := ThreadPool.submit_inv h
    refine .plain (hf hstep) ?_
    cases hstep with
    | emplace => exact absurd rfl hpc
    | _ => rfl

theorem newThread_inv {sh sh' : Shared} {w : Worker} {t' : Thread} {ch : Choice} {sig : Signal Cv}
    (h : newThread Q sh w ch = some (sh', t', sig)) :
    ThreadStep Q sh (.pool (.worker w)) sh' t' sig := by
  unfold newThread at h
  split at h
  · -- behind `cv.wait`
    split at h
    · rename_i hs
      cases h
      simp only [Bool.and_eq_true, List.isEmpty_iff] at hs
      exact .plain (.worker (.stop hs.1 hs.2)) rfl
    · split at h
      · rename_i hq
        cases h
        exact .plain (.worker (.again hq)) rfl
      · rename_i hq
        cases h
        exact .copy hq
  · cases h
    exact .throws
  · rename_i t c
    obtain ⟨⟨sh₁, c₁, sig₁⟩, hr, he⟩ := Option.map_eq_some_iff.mp h
    cases he
    exact submit_inv hr (f := fun c => .worker (.run t c)) fun hst => .worker (.submit hst)
  · rename_i hcheck hcall _
    obtain ⟨⟨sh₁, w₁, sig₁⟩, hr, he⟩ := Option.map_eq_some_iff.mp h
    cases he
    have hstep := ThreadPool.newThread_inv hr
    refine .plain (.worker hstep) ?_
    cases hstep with
    | pop => exact (hcheck rfl).elim
    | submit => exact (hcall _ _ rfl).elim
    | _ => rfl

theorem threadStep_inv {sh sh' : Shared} {t t' : Thread} {ch : Choice} {sig : Signal Cv}
    (h : threadStep Q sh t ch = some (sh', t', sig)) : ThreadStep Q sh t sh' t' sig := by
  unfold threadStep at h
  split at h
  · cases h
    exact .pop
  · exact newThread_inv h
  · obtain ⟨⟨sh₁, c₁, sig₁⟩, hr, he⟩ := Option.map_eq_some_iff.mp h
    cases he
    exact submit_inv hr (f := .client) fun hst => .submit hst
  · rename_i hworker hcall
    obtain ⟨⟨sh₁, t₁, sig₁⟩, hr, he⟩ := Option.map_eq_some_iff.mp h
    cases he
    have hstep := ThreadPool.threadStep_inv hr
    refine .plain hstep ?_
    cases hstep with
    | worker => exact (hworker _ rfl).elim
    | submit => exact (hcall _ rfl).elim
    | call => rfl
    | dtor h => cases h <;> rfl
    | waiter h => cases h <;> rfl

/-! ## The pool without the order of its queue -/

def plain (s : PriPool) : ThreadPool.Pool := ⟨s.shared, s.threads.map Thread.plain⟩

theorem plain_delivered {sig : Signal Cv} {ts ts' : List Thread} (h : Delivered (program Q) sig ts ts') :
    Delivered (ThreadPool.program threadPoolCpp) sig (ts.map Thread.plain) (ts'.map Thread.plain) := by
  refine h.map (f := Thread.plain) (fun _ _ => rfl) fun c t hs => ?_
  cases t with
  | pool t => rfl
  | copied t => cases c <;> cases hs

theorem plain_init (n m : Nat) : plain (init n m) = ThreadPool.init n m := by
  unfold plain init
  rw [List.map_map]
  exact congrArg (World.mk _) (List.map_id _)

theorem plain_get {s : PriPool} {i : Nat} {t : Thread} (h : s.threads[i]? = some t) :
    (plain s).threads[i]? = some t.plain := by
  show (s.threads.map Thread.plain)[i]? = some t.plain
  rw [List.getElem?_map, h]
  rfl

/-- The task that a worker has copied is the front of the queue. -/
def Copied (sh : Shared) : Thread → Prop
  | .copied t => sh.queue.head? = some t
  | .pool _ => True

/-- **One step, seen without the order of the queue.** -/
theorem step_plain {s s' : PriPool} {a : Nat × Choice} (h : step Q s a = some s') (hc : Each Copied s) :
    plain s' = plain s ∨ ∃ p lines, ThreadPool.Moves threadPoolCpp (plain s) p a.1 ∧
      s'.shared.queue.Perm p.shared.queue ∧ plain s' = rearranged p s'.shared.queue lines := by
  obtain ⟨t, t', sig, ht, hp, hd⟩ := Library.Threads.step_inv h
  have hp := threadStep_inv hp
  have hd' := plain_delivered hd
  rw [List.map_set] at hd'
  have ht' := plain_get ht
  have hcopied := hc a.1 t ht
  obtain ⟨sh', ts'⟩ := s'
  simp only at hp hd'
  cases hp with
  | copy hq =>
    refine Or.inl ?_
    have hself : (plain s).threads.set a.1 (.worker .check) = (plain s).threads := by
      obtain ⟨hlt, hget⟩ := List.getElem?_eq_some_iff.mp ht'
      rw [show ThreadPool.Thread.worker .check = (plain s).threads[a.1] from hget.symm]
      exact List.set_getElem_self hlt
    cases hd
    show World.mk s.shared ((s.threads.set a.1 (.copied _)).map Thread.plain) = _
    rw [List.map_set]
    exact congrArg (World.mk s.shared) hself
  | @pop t =>
    obtain ⟨q, hq⟩ : ∃ q, s.shared.queue = t :: q := by
      obtain ⟨q, hq⟩ := List.head?_eq_some_iff.mp hcopied
      exact ⟨q, hq⟩
    refine Or.inr ⟨⟨{ s.shared with queue := q, dequeued := s.shared.dequeued ++ [t] }, _⟩,
      s.shared.cerr, ⟨_, _, _, ht', .worker (.pop hq), hd'⟩, ?_, rfl⟩
    have hperm := Q.pop_perm s.shared.queue
    rw [hq] at hperm ⊢
    exact hperm
  | @throws t line =>
    refine Or.inr ⟨⟨{ s.shared with finished := s.shared.finished ++ [t] }, _⟩,
      s.shared.cerr ++ [line], ⟨_, _, _, ht', .worker .finish, hd'⟩, List.Perm.refl _, rfl⟩
  | @emplace sh₁ _ _ x hst hx =>
    refine Or.inr ⟨⟨sh₁, _⟩, sh₁.cerr, ⟨_, _, _, ht', hst, hd'⟩, ?_, rfl⟩
    show (Q.push s.shared.queue x).Perm sh₁.queue
    rw [hx]
    exact Q.push_perm _ x
  | plain hst hq =>
    exact Or.inr ⟨⟨sh', _⟩, sh'.cerr, ⟨_, _, _, ht', hst, hd'⟩, List.Perm.refl _, rfl⟩

end CppBackend.PriThreadPool
