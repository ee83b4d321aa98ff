import CppBackend.ThreadPool.Steps
import CppBackend.Library.Mutex

/-!
# The two mutexes of the pool

`mtx` and `end_mtx` are held by exactly one thread when they are locked (`pool_locks`), at the
program points `holdsMtx` and `holdsEnd`.  What a worker saw under `mtx` therefore still stands
when it goes to sleep or leaves: nobody else has touched the queue or stored `stop` (`pool_saw`).
-/

set_option autoImplicit false

namespace CppBackend.ThreadPool

open Library.Transition Library.Tally Library.Threads Library.Mutex

/-- The thread is inside a `submit` call at a point that satisfies `p`. -/
def inSubmit (p : Call → Bool) : Thread → Bool
  | .worker (.run _ (some c)) => p c
  | .client (some c) => p c
  | _ => false

/-- Inside the block of `submit` that locks `mtx`. -/
def Call.inSection (c : Call) : Bool := c.pc == .emplace || c.pc == .add || c.pc == .unlock

def holdsMtx : Thread → Bool
  | .worker .pred | .worker .doze | .worker .check | .worker (.popped _) | .worker .leave => true
  | .dtor .store | .dtor .unlock => true
  | t => inSubmit Call.inSection t

def holdsEnd : Thread → Bool
  | .worker .endNotify | .worker .endUnlock => true
  | .waiter .pred | .waiter .tested | .waiter .returned => true
  | _ => false

variable {v : Source}

theorem callSubmit_pc (sh : Shared) :
    (callSubmit v sh).2.pc = .test ∨ (callSubmit v sh).2.pc = .lock := by
  unfold callSubmit
  split
  · exact Or.inl rfl
  · exact Or.inr rfl

theorem callSubmit_inSection (sh : Shared) : (callSubmit v sh).2.inSection = false := by
  unfold Call.inSection
  rcases callSubmit_pc (v := v) sh with h | h <;> rw [h] <;> rfl

/-- A predicate that does not tell the two kinds of sleepers from the same threads woken. -/
theorem blind_of {p : Thread → Bool} (hw : p (.worker .woken) = p (.worker .sleep))
    (he : p (.waiter .woken) = p (.waiter .asleep)) : Blind (program v) p := by
  intro c t h
  rcases asleep_cases h with ⟨_, rfl⟩ | ⟨_, rfl⟩
  · exact hw
  · exact he

theorem blind_holdsMtx : Blind (program v) holdsMtx := blind_of rfl rfl

theorem blind_holdsEnd : Blind (program v) holdsEnd := blind_of rfl rfl

/-- `submit` takes `mtx` at its lock and gives it back at the end of the block. -/
theorem submit_mtx {sh sh' : Shared} {c : Call} {c' : Option Call} {sig : Signal Cv}
    (h : SubmitStep sh c sh' c' sig) {f : Option Call → Thread}
    (hn : holdsMtx (f none) = false) (hf : ∀ d, holdsMtx (f (some d)) = d.inSection) :
    LockStep Shared.mtx holdsMtx sh (f (some c)) sh' (f c') := by
  cases h with
  | reject => exact .keep rfl (by rw [hn, hf]; rfl)
  | pass => exact .keep rfl (by rw [hf, hf]; rfl)
  | lock h => exact .acquire h rfl (by rw [hf]; rfl) (by rw [hf]; rfl)
  | emplace => exact .keep rfl (by rw [hf, hf]; rfl)
  | add => exact .keep rfl (by rw [hf, hf]; rfl)
  | unlock => exact .release rfl (by rw [hf]; rfl) (by rw [hf]; rfl)
  | notify => exact .keep rfl (by rw [hn, hf]; rfl)

theorem thread_mtx {sh sh' : Shared} {t t' : Thread} {sig : Signal Cv}
    (h : ThreadStep v sh t sh' t' sig) : LockStep Shared.mtx holdsMtx sh t sh' t' := by
  cases h with
  | worker h =>
    cases h with
    | lock h => exact .acquire h rfl rfl rfl
    | relock h => exact .acquire h rfl rfl rfl
    | sleep => exact .release rfl rfl rfl
    | again => exact .release rfl rfl rfl
    | start => exact .release rfl rfl rfl
    | leave => exact .release rfl rfl rfl
    | call => exact .keep rfl (callSubmit_inSection sh)
    | @submit _ t _ _ _ h =>
      exact submit_mtx h (f := fun c => .worker (.run t c)) rfl (fun _ => rfl)
    | _ => exact .keep rfl rfl
  | call => exact .keep rfl (callSubmit_inSection sh)
  | submit h => exact submit_mtx h (f := .client) rfl (fun _ => rfl)
  | dtor h =>
    cases h with
    | lock h => exact .acquire h rfl rfl rfl
    | unlock => exact .release rfl rfl rfl
    | _ => exact .keep rfl rfl
  | waiter h => cases h <;> exact .keep rfl rfl

theorem submit_endMtx {sh sh' : Shared} {c : Call} {c' : Option Call} {sig : Signal Cv}
    (h : SubmitStep sh c sh' c' sig) : sh'.endMtx = sh.endMtx := by
  cases h <;> rfl

theorem thread_endMtx {sh sh' : Shared} {t t' : Thread} {sig : Signal Cv}
    (h : ThreadStep v sh t sh' t' sig) : LockStep Shared.endMtx holdsEnd sh t sh' t' := by
  cases h with
  | worker h =>
    cases h with
    | endLock h => exact .acquire h rfl rfl rfl
    | endUnlock => exact .release rfl rfl rfl
    | submit h => exact .keep (submit_endMtx h) rfl
    | _ => exact .keep rfl rfl
  | call => exact .keep rfl rfl
  | submit h => exact .keep (submit_endMtx h) rfl
  | dtor h => cases h <;> exact .keep rfl rfl
  | waiter h =>
    cases h with
    | lock h => exact .acquire h rfl rfl rfl
    | relock h => exact .acquire h rfl rfl rfl
    | sleep => exact .release rfl rfl rfl
    | leave => exact .release rfl rfl rfl
    | _ => exact .keep rfl rfl

/-- Both mutexes are held by exactly one thread while locked, by none while free. -/
structure Locks (s : Pool) : Prop where
  mtx : Exclusive Shared.mtx holdsMtx s
  endMtx : Exclusive Shared.endMtx holdsEnd s

theorem init_threads {n m : Nat} {t : Thread} (h : t ∈ (init n m).threads) :
    t = .worker .top ∨ t = .client none ∨ t = .dtor .idle ∨ t = .waiter .idle := by
  simp only [init, List.mem_append, List.mem_replicate, List.mem_cons, List.not_mem_nil,
    or_false] at h
  rcases h with (⟨_, rfl⟩ | ⟨_, rfl⟩) | rfl | rfl
  · exact Or.inl rfl
  · exact Or.inr (Or.inl rfl)
  · exact Or.inr (Or.inr (Or.inl rfl))
  · exact Or.inr (Or.inr (Or.inr rfl))

/-- A weight that is 0 on every initial thread has tally 0 initially. -/
theorem tally_init {f : Thread → Int} (hw : f (.worker .top) = 0) (hc : f (.client none) = 0)
    (hd : f (.dtor .idle) = 0) (he : f (.waiter .idle) = 0) (n m : Nat) :
    tally f (init n m).threads = 0 := by
  simp [init, tally_replicate, hw, hc, hd, he]

/-- The runs of a pool with `n` workers and `m` client threads. -/
abbrev Runs (ok : Pool → Nat × Choice → Pool → Prop) (v : Source) (n m : Nat) (s : Pool) : Prop :=
  Reach ok (step v) (init n m) s

variable {ok : Pool → Nat × Choice → Pool → Prop} {n m : Nat} {s : Pool}

theorem locks_init (n m : Nat) : Locks (init n m) :=
  ⟨tally_init rfl rfl rfl rfl n m, tally_init rfl rfl rfl rfl n m⟩

theorem locks_step {s' : Pool} {i : Nat} (h : Moves v s s' i) (hi : Locks s) : Locks s' := by
  obtain ⟨t, t', sig, ht, hp, hd⟩ := h
  exact ⟨mutex_step blind_holdsMtx hi.mtx ht (thread_mtx hp) hd,
    mutex_step blind_holdsEnd hi.endMtx ht (thread_endMtx hp) hd⟩

/-- **Mutual exclusion.** -/
theorem pool_locks (h : Runs ok v n m s) : Locks s :=
  h.invariant (locks_init n m) fun _ _ _ hi hs _ => locks_step (step_inv hs) hi

/-- A step does not change how many threads are of a kind. -/
theorem kind_step {p : Thread → Bool}
    (hp : ∀ {sh t sh' t' sig}, ThreadStep v sh t sh' t' sig → p t' = p t)
    (hb : Blind (program v) p) {s' : Pool} {i : Nat} (h : Moves v s s' i) :
    tally (ind p) s'.threads = tally (ind p) s.threads := by
  obtain ⟨t, t', sig, ht, hst, hd⟩ := h
  have hkeep : ind p t' = ind p t := by unfold ind; rw [hp hst]
  rw [tally_moved hb.tally ht hd]
  omega

theorem pool_kind {p : Thread → Bool}
    (hp : ∀ {sh t sh' t' sig}, ThreadStep v sh t sh' t' sig → p t' = p t)
    (hb : Blind (program v) p) (h : Runs ok v n m s) :
    tally (ind p) s.threads = tally (ind p) (init n m).threads :=
  h.invariant (I := fun s : Pool => tally (ind p) s.threads = tally (ind p) (init n m).threads) rfl
    fun _ _ _ hi hs _ => (kind_step hp hb (step_inv hs)).trans hi

/-! ## What is protected by `mtx` -/

/-- The queue and `stop` are only changed by a thread that holds `mtx`. -/
theorem thread_protected {sh sh' : Shared} {t t' : Thread} {sig : Signal Cv}
    (h : ThreadStep v sh t sh' t' sig) (hn : holdsMtx t = false) :
    sh'.queue = sh.queue ∧ sh'.stop = sh.stop := by
  cases h with
  | worker h =>
    cases h with
    | submit h => cases h <;> first | exact ⟨rfl, rfl⟩ | cases hn
    | pop => cases hn
    | _ => exact ⟨rfl, rfl⟩
  | call => exact ⟨rfl, rfl⟩
  | submit h => cases h <;> first | exact ⟨rfl, rfl⟩ | cases hn
  | dtor h => cases h <;> first | exact ⟨rfl, rfl⟩ | cases hn
  | waiter h => cases h <;> exact ⟨rfl, rfl⟩

/-- What a worker knows about the queue and `stop` at the points where it acts on them. -/
def Saw (sh : Shared) : Thread → Prop
  | .worker .doze => sh.queue = [] ∧ sh.stop = false
  | .worker .leave => sh.queue = [] ∧ sh.stop = true
  | _ => True

theorem saw_of_not_holds {sh : Shared} {t : Thread} (h : holdsMtx t = false) : Saw sh t := by
  unfold Saw
  split
  · cases h
  · cases h
  · trivial

theorem saw_init (n m : Nat) : Each Saw (init n m) := by
  intro j t ht
  refine saw_of_not_holds ?_
  rcases init_threads (List.mem_of_getElem? ht) with rfl | rfl | rfl | rfl <;> rfl

theorem saw_step {s' : Pool} {i : Nat} (h : Moves v s s' i) (hm : Exclusive Shared.mtx holdsMtx s)
    (hi : Each Saw s) : Each Saw s' := by
  refine each_step h ?_ ?_ (fun _ _ => trivial) (fun _ _ => trivial)
  · -- the moving thread
    intro t sh' t' sig ht hp
    cases hp with
    | worker h =>
      cases h with
      | unready hq hs => exact ⟨hq, hs⟩
      | stop hs hq => exact ⟨hq, hs⟩
      | _ => trivial
    | _ => trivial
  · -- the others: the mover holds `mtx` or leaves the queue and `stop` alone
    intro t sh' t' sig j u ht hp hj hu
    cases hh : holdsMtx t with
    | true => exact saw_of_not_holds (hm.alone ht hu hj hh)
    | false =>
      obtain ⟨hq, hst⟩ := thread_protected hp hh
      have hu' := hi j u hu
      unfold Saw at hu' ⊢
      rw [hq, hst]
      exact hu'

/-- **What was seen under `mtx` still stands.** -/
theorem pool_saw (h : Runs ok v n m s) : Each Saw s :=
  h.invariant_of (fun _ h => (pool_locks h).mtx) (saw_init n m)
    fun _ _ _ hm hi hs _ => saw_step (step_inv hs) hm hi

/-- A `submit` call that is about to count its task has it at the end of the queue. -/
def AtEnd (sh : Shared) : Thread → Prop
  | .worker (.run _ (some ⟨t, .add⟩)) | .client (some ⟨t, .add⟩) => sh.queue.getLast? = some t
  | _ => True

theorem atEnd_of_not_holds {sh : Shared} {t : Thread} (h : holdsMtx t = false) : AtEnd sh t := by
  unfold AtEnd
  split
  · cases h
  · cases h
  · trivial

theorem submit_atEnd {sh sh' : Shared} {c : Call} {c' : Option Call} {sig : Signal Cv}
    (h : SubmitStep sh c sh' c' sig) {f : Option Call → Thread} (hn : AtEnd sh' (f none))
    (hf : ∀ t pc, pc ≠ .add → AtEnd sh' (f (some ⟨t, pc⟩)))
    (hadd : ∀ t, sh'.queue.getLast? = some t → AtEnd sh' (f (some ⟨t, .add⟩))) :
    AtEnd sh' (f c') := by
  cases h with
  | reject => exact hn
  | notify => exact hn
  | emplace => exact hadd _ List.getLast?_concat
  | pass => exact hf _ _ (fun h => (nomatch h))
  | lock => exact hf _ _ (fun h => (nomatch h))
  | add => exact hf _ _ (fun h => (nomatch h))
  | unlock => exact hf _ _ (fun h => (nomatch h))

theorem pool_atEnd (h : Runs ok v n m s) : Each AtEnd s := by
  refine Reach.invariant_of (fun s h => (pool_locks h).mtx) (I := Each AtEnd) ?_ ?_ h
  · intro j t ht
    refine atEnd_of_not_holds ?_
    rcases init_threads (List.mem_of_getElem? ht) with rfl | rfl | rfl | rfl <;> rfl
  · intro s a s' hm hi hs _
    refine each_step (step_inv hs) ?_ ?_ (fun _ _ => trivial) (fun _ _ => trivial)
    · intro t sh' t' sig ht hp
      have hcall : ∀ f : Option Call → Thread, (∀ t pc, pc ≠ .add → AtEnd sh' (f (some ⟨t, pc⟩))) →
          AtEnd sh' (f (some (callSubmit v s.shared).2)) := by
        intro f hf
        refine hf _ _ ?_
        rcases callSubmit_pc (v := v) s.shared with h | h
        · exact fun he => (nomatch h.symm.trans he)
        · exact fun he => (nomatch h.symm.trans he)
      cases hp with
      | worker h =>
        cases h with
        | @submit _ t _ _ _ h =>
          refine submit_atEnd h (f := fun c => .worker (.run t c)) trivial ?_ fun _ hl => hl
          intro t pc hne
          cases pc <;> trivial
        | @call t =>
          refine hcall (fun c => .worker (.run t c)) ?_
          intro t pc hne
          cases pc <;> trivial
        | _ => trivial
      | call =>
        refine hcall .client ?_
        intro t pc hne
        cases pc <;> trivial
      | submit h =>
        refine submit_atEnd h (f := .client) trivial ?_ fun _ hl => hl
        intro t pc hne
        cases pc <;> trivial
      | dtor => trivial
      | waiter => trivial
    · intro t sh' t' sig j u ht hp hj hu
      cases hh : holdsMtx t with
      | true => exact atEnd_of_not_holds (hm.alone ht hu hj hh)
      | false =>
        have hu' := hi j u hu
        unfold AtEnd at hu' ⊢
        rw [(thread_protected hp hh).1]
        exact hu'

end CppBackend.ThreadPool
