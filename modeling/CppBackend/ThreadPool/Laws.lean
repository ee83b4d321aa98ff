import CppBackend.ThreadPool.Drain

/-!
# The laws of the pool in any order of service

What the laws of the pool say of the queue, they say of its length and of the tasks in it, not of
their order.  A pool that takes one step of the pool of this folder and then rearranges its queue
(`Alike`) keeps them all (`Laws`).
-/

set_option autoImplicit false

namespace CppBackend.ThreadPool

open Library.Transition Library.Tally Library.Threads Library.Mutex

structure Laws (n : Nat) (s : Pool) : Prop where
  locks : Locks s
  saw : Each Saw s
  counted : Counted s
  added : Added s
  ledger : ∀ x, Ledger x s
  balanced : Balanced s.shared
  workers : Workers n s

/-- The pool with the queue in another order, and other lines printed. -/
def rearranged (s : Pool) (q : List Nat) (lines : List String) : Pool :=
  { s with shared := { s.shared with queue := q, cerr := lines } }

variable {v : Source} {n : Nat} {s s' : Pool}

theorem laws_init (n m : Nat) : Laws n (init n m) :=
  ⟨locks_init n m, saw_init n m, counted_init n m, added_init n m, fun x => ledger_init x n m,
    List.Perm.refl _, workers_init n m⟩

/-- **A step keeps the laws.** -/
theorem Laws.moves {i : Nat} (h : Laws n s) (hm : Moves v s s' i) : Laws n s' where
  locks := locks_step hm h.locks
  saw := saw_step hm h.locks.mtx h.saw
  counted := counter_step hm h.counted
  added := adding_step hm h.locks.mtx h.added
  ledger x := ledger_step hm (h.ledger x)
  balanced := by
    obtain ⟨t, t', sig, _, hp, _⟩ := hm
    exact thread_balanced hp h.balanced
  workers := workers_step hm h.saw h.workers

theorem Saw.rearranged {sh : Shared} {t : Thread} (h : Saw sh t) {q : List Nat}
    (hq : q.Perm sh.queue) (lines : List String) : Saw { sh with queue := q, cerr := lines } t := by
  unfold Saw at h ⊢
  split
  · obtain ⟨hnil, hst⟩ := h
    exact ⟨(hnil ▸ hq).eq_nil, hst⟩
  · obtain ⟨hnil, hst⟩ := h
    exact ⟨(hnil ▸ hq).eq_nil, hst⟩
  · trivial

/-- **The laws do not see the order of the queue.** -/
theorem Laws.rearranged (h : Laws n s) {q : List Nat} (hq : q.Perm s.shared.queue)
    (lines : List String) : Laws n (rearranged s q lines) where
  locks := ⟨h.locks.mtx, h.locks.endMtx⟩
  saw j t ht := (h.saw j t ht).rearranged hq lines
  counted := by
    have hc := h.counted
    unfold Counted ThreadPool.counted ThreadPool.rearranged at *
    rw [hq.length_eq]
    exact hc
  added := by
    have ha := h.added
    unfold Added ThreadPool.rearranged at *
    rw [hq.length_eq]
    exact ha
  ledger x := ⟨(h.ledger x).submitted, (h.ledger x).dequeued, (h.ledger x).started⟩
  balanced := h.balanced.trans (hq.symm.append_left _)
  workers := ⟨h.workers.count, h.workers.exits, h.workers.stored⟩

/-- A queued task has not been dequeued. -/
theorem Laws.not_dequeued (h : Laws n s) {x : Nat} (hx : x ∈ s.shared.queue) : x ∉ s.shared.dequeued := by
  intro hd
  have hsub := (h.ledger x).submitted
  have hbal := List.Perm.count_eq h.balanced x
  rw [List.count_append] at hbal
  have h1 : 0 < s.shared.queue.count x := List.count_pos_iff.mpr hx
  have h2 : 0 < s.shared.dequeued.count x := List.count_pos_iff.mpr hd
  have h3 : 0 ≤ tally (ind (pending x)) s.threads := tally_nonneg (ind_nonneg _)
  split at hsub <;> omega

theorem Staffed.rearranged (h : Staffed s) {q : List Nat} (hq : q.Perm s.shared.queue)
    (lines : List String) : Staffed (rearranged s q lines) := by
  unfold Staffed ThreadPool.rearranged at *
  rw [hq.length_eq]
  exact h

/-! ## A pool whose `submit` does not test `stop` -/

def testing : Thread → Bool := inSubmit fun c => c.pc == .test

/-- No task is rejected. -/
structure Accepts (s : Pool) : Prop where
  untested : Each (fun _ t => testing t = false) s
  rejected : s.shared.rejected = []

theorem accepts_init (n m : Nat) : Accepts (init n m) := by
  refine ⟨fun j t ht => ?_, rfl⟩
  rcases init_threads (List.mem_of_getElem? ht) with rfl | rfl | rfl | rfl <;> rfl

theorem thread_untested (hv : v.stopTest = false) {sh sh' : Shared} {t t' : Thread} {sig : Signal Cv}
    (h : ThreadStep v sh t sh' t' sig) (ht : testing t = false) :
    testing t' = false ∧ sh'.rejected = sh.rejected := by
  have hcall : ((callSubmit v sh).2.pc == .test) = false := by
    unfold callSubmit
    rw [hv]
    rfl
  have hsub : ∀ {c : Call} {c' : Option Call}, SubmitStep sh c sh' c' sig → (c.pc == .test) = false →
      ∀ f : Option Call → Thread, testing (f none) = false →
      (∀ d, testing (f (some d)) = (d.pc == .test)) →
      testing (f c') = false ∧ sh'.rejected = sh.rejected := by
    intro c c' h hpc f hn hf
    cases h with
    | reject => cases hpc
    | notify => exact ⟨hn, rfl⟩
    | _ => exact ⟨hf _, rfl⟩
  cases h with
  | worker h =>
    cases h with
    | @submit _ t _ _ _ h => exact hsub h ht (fun c => .worker (.run t c)) rfl fun _ => rfl
    | call => exact ⟨hcall, rfl⟩
    | _ => exact ⟨rfl, rfl⟩
  | call => exact ⟨hcall, rfl⟩
  | submit h => exact hsub h ht .client rfl fun _ => rfl
  | dtor h => cases h <;> exact ⟨rfl, rfl⟩
  | waiter h => cases h <;> exact ⟨rfl, rfl⟩

theorem Accepts.moves {i : Nat} (hv : v.stopTest = false) (h : Accepts s) (hm : Moves v s s' i) :
    Accepts s' := by
  refine ⟨?_, ?_⟩
  · refine each_step hm ?_ (fun _ _ _ _ j u _ _ _ hu => h.untested j u hu) (fun _ _ => rfl)
      (fun _ _ => rfl)
    intro t sh' t' sig ht hp
    exact (thread_untested hv hp (h.untested i t ht)).1
  · obtain ⟨t, t', sig, ht, hp, _⟩ := hm
    exact (thread_untested hv hp (h.untested i t ht)).2.trans h.rejected

theorem Accepts.rearranged (h : Accepts s) (q : List Nat) (lines : List String) :
    Accepts (rearranged s q lines) :=
  ⟨h.untested, h.rejected⟩

end CppBackend.ThreadPool
