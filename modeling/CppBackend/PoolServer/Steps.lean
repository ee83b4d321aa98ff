import CppBackend.PoolServer.Model
import CppBackend.ThreadPool.Counter
import CppBackend.Library.Slots

/-!
# What one step of a pool server can do

Inversion of the step functions, one constructor for each step of the source.  The pool of a server
makes a step of `ThreadPool`, or none, in each of them: so its part of a run is a run of
the pool (`pool_runs`), and the laws of the pool hold in every server.
-/

set_option autoImplicit false

namespace CppBackend.PoolServer

open Library.Transition Library.Descriptors Library.Threads Library.Slots Library.Tally ThreadPool

/-- The steps of the lambda. -/
inductive TaskStep (v : Server) (t : Nat) (h : Host) (j : Job) (ok : Bool) : Host → Job → Prop where
  | pass (hpc : j.pc = .test) (hr : h.isRunning = true) :
      TaskStep v t h j ok h { j with pc := if v.sendLock then .lock else .send }
  | skip (hpc : j.pc = .test) (hr : h.isRunning = false) :
      TaskStep v t h j ok h { j with pc := .skipped }
  | lock (hpc : j.pc = .lock) (hm : h.mtx = false) :
      TaskStep v t h j ok { h with mtx := true } { j with pc := .send }
  | send (hpc : j.pc = .send) (hopen : ok = true → h.table.conn j.fd ≠ none) :
      TaskStep v t h j ok
        { h with acts := h.acts ++ [⟨t, .send, h.table.conn j.fd,
            if ok then v.response (j.parts.map Chunk.data) else []⟩] }
        { j with pc := afterSend v ok }
  | closeLock (hpc : j.pc = .closeLock) (hm : h.mtx = false) :
      TaskStep v t h j ok { h with mtx := true } { j with pc := .close }
  | close (hpc : j.pc = .close) :
      TaskStep v t h j ok
        { h with table := h.table.close j.fd
                 acts := h.acts ++ [⟨t, .close, h.table.conn j.fd, []⟩] }
        { j with pc := .unlock }
  | unlock (hpc : j.pc = .unlock) : TaskStep v t h j ok { h with mtx := false } { j with pc := .done }

theorem task_inv {v : Server} {t : Nat} {h h' : Host} {j j' : Job} {ok : Bool}
    (hs : task v t h j ok = some (h', j')) : TaskStep v t h j ok h' j' := by
  unfold task at hs
  split at hs
  · rename_i hpc
    cases hs
    split
    · exact .pass hpc (by assumption)
    · exact .skip hpc (by simpa using ‹¬h.isRunning = true›)
  · rename_i hpc
    split at hs <;> cases hs
    exact .lock hpc (by simpa using ‹¬h.mtx = true›)
  · rename_i hpc
    split at hs <;> cases hs
    rename_i hopen
    refine .send hpc fun hok hnone => hopen ?_
    rw [hok, hnone]
    rfl
  · rename_i hpc
    split at hs <;> cases hs
    exact .closeLock hpc (by simpa using ‹¬h.mtx = true›)
  · rename_i hpc
    cases hs
    exact .close hpc
  · rename_i hpc
    cases hs
    exact .unlock hpc
  · cases hs
  · cases hs

/-- The steps of an event loop outside `submit`. -/
inductive LoopStep (v : Server) (k : Nat) (h : Host) : LoopPc → Event → Host → LoopPc → Prop where
  | accept {fd : Nat} (hv : v.acceptor = false) (hfree : h.table.conn fd = none) :
      LoopStep v k h .top (.accept fd) { h with table := h.table.accept fd } (.newLock fd)
  | ready {fd : Nat} (hk : handles v k h.table fd = true) :
      LoopStep v k h .top (.ready fd) h (.recv fd [])
  | hangUp {fd : Nat} (hv : v.epoll = false) : LoopStep v k h .top (.hangUp fd) h (.closeLock fd)
  | newLock {fd : Nat} (hm : h.mtx = false) :
      LoopStep v k h (.newLock fd) .go { h with mtx := true } (.newAdd fd)
  | add {fd : Nat} : LoopStep v k h (.newAdd fd) .go h .newUnlock
  | refused {fd : Nat} (hv : v.epoll = true) :
      LoopStep v k h (.newAdd fd) .refused { h with table := h.table.close fd } .newUnlock
  | newUnlock : LoopStep v k h .newUnlock .go { h with mtx := false } .top
  | data {fd c : Nat} {parts : List Chunk} {chunk : List UInt8} (hc : h.table.conn fd = some c)
      (hlen : 0 < chunk.length ∧ chunk.length ≤ v.bufferSize) :
      LoopStep v k h (.recv fd parts) (.data chunk)
        { h with received := h.received ++ [⟨c, chunk⟩] }
        (if v.drain then .recv fd (parts ++ [⟨c, chunk⟩]) else .submit fd (parts ++ [⟨c, chunk⟩]))
  | drained {fd : Nat} {parts : List Chunk} (hv : v.drain = true) (hb : blank parts = false) :
      LoopStep v k h (.recv fd parts) (.noData true) h (.submit fd parts)
  | delete {fd : Nat} {parts : List Chunk} {again : Bool} (hv : v.acceptor = true) :
      LoopStep v k h (.recv fd parts) (.noData again) { h with table := h.table.close fd } .top
  | ended {fd : Nat} {parts : List Chunk} {again : Bool} (hv : v.acceptor = false) :
      LoopStep v k h (.recv fd parts) (.noData again) h (.closeLock fd)
  | closeLock {fd : Nat} (hm : h.mtx = false) :
      LoopStep v k h (.closeLock fd) .go { h with mtx := true } (.closeFd fd)
  | closeFd {fd : Nat} :
      LoopStep v k h (.closeFd fd) .go { h with table := h.table.close fd } .closeUnlock
  | closeUnlock : LoopStep v k h .closeUnlock .go { h with mtx := false } .top

theorem loop_inv {v : Server} {k : Nat} {h h' : Host} {l l' : LoopPc} {e : Event}
    (hs : loop v k h l e = some (h', l')) : LoopStep v k h l e h' l' := by
  unfold loop at hs
  split at hs
  · split at hs
    · cases hs
    · rename_i hv
      split at hs <;> cases hs
      exact .accept (by simpa using hv) (by assumption)
  · split at hs <;> cases hs
    exact .ready (by assumption)
  · split at hs <;> cases hs
    exact .hangUp (by simpa using ‹¬v.epoll = true›)
  · split at hs <;> cases hs
    exact .newLock (by simpa using ‹¬h.mtx = true›)
  · cases hs
    exact .add
  · split at hs <;> cases hs
    exact .refused (by assumption)
  · cases hs
    exact .newUnlock
  · split at hs
    · cases hs
    · split at hs <;> cases hs
      exact .data (by assumption) (by assumption)
  · split at hs
    · rename_i hd
      cases hs
      simp only [Bool.and_eq_true, Bool.not_eq_true'] at hd
      obtain ⟨⟨hv, rfl⟩, hb⟩ := hd
      exact .drained hv hb
    · split at hs <;> cases hs
      · exact .delete (by assumption)
      · exact .ended (by simpa using ‹¬v.acceptor = true›)
  · split at hs <;> cases hs
    exact .closeLock (by simpa using ‹¬h.mtx = true›)
  · cases hs
    exact .closeFd
  · cases hs
    exact .closeUnlock
  · cases hs

/-- A step of the pool by the thread `i`. -/
def Pools (p : Pool) (i : Nat) (p' : Pool) : Prop :=
  ∃ ch, ThreadPool.step threadpoolH p (i, ch) = some p'

/-- The steps of a server. -/
inductive Moves (v : Server) (w : World) : Action → World → Prop where
  | worker {i : Nat} {ch : Choice} {x : Worker} {p : Pool}
      (hi : w.pool.threads[i]? = some (.worker x)) (hx : ∀ t c, x ≠ .run t c)
      (hp : Pools w.pool i p) : Moves v w (.worker i ch) { w with pool := p }
  | finish {i t : Nat} {ch : Choice} {p : Pool}
      (hi : w.pool.threads[i]? = some (.worker (.run t none))) (ht : isOver w.jobs t = true)
      (hp : Pools w.pool i p)
      (he : p = ⟨{ w.pool.shared with finished := w.pool.shared.finished ++ [t] },
        w.pool.threads.set i (.worker .count)⟩) : Moves v w (.worker i ch) { w with pool := p }
  | task {i t : Nat} {ok : Bool} {j j' : Job} {h : Host}
      (hi : w.pool.threads[i]? = some (.worker (.run t none))) (hj : w.jobs[t]? = some j)
      (hs : TaskStep v t w.host j ok h j') :
      Moves v w (.task i ok) { w with host := h, jobs := w.jobs.set t j' }
  | loop {k : Nat} {e : Event} {l l' : LoopPc} {h : Host}
      (hk : w.pool.threads[v.loopThread k]? = some (.client none)) (hl : w.loops[k]? = some l)
      (hs : LoopStep v k w.host l e h l') :
      Moves v w (.loop k e) { w with host := h, loops := w.loops.set k l' }
  | call {k fd : Nat} {parts : List Chunk} {p : Pool}
      (hk : w.pool.threads[v.loopThread k]? = some (.client none))
      (hl : w.loops[k]? = some (.submit fd parts)) (hp : Pools w.pool (v.loopThread k) p) :
      Moves v w (.call k) { w with pool := p
                                   jobs := w.jobs ++ [⟨fd, parts, entry v⟩]
                                   loops := w.loops.set k .top }
  | submit {k : Nat} {ch : Choice} {c : ThreadPool.Call} {p : Pool}
      (hk : w.pool.threads[v.loopThread k]? = some (.client (some c)))
      (hp : Pools w.pool (v.loopThread k) p) : Moves v w (.submit k ch) { w with pool := p }
  | accept {fd : Nat} (hv : v.acceptor = true) (hfree : w.host.table.conn fd = none) :
      Moves v w (.accept fd) { w with host := { w.host with table := w.host.table.accept fd } }
  | stop {p : Pool} (hstop : w.stop = .idle)
      (hi : w.pool.threads[v.stopThread]? = some (.waiter .idle))
      (hp : Pools w.pool v.stopThread p) :
      Moves v w .stop
        { w with pool := p, host := { w.host with isRunning := false }, stop := .waiting }
  | wait {x : Waiter} {p : Pool} (hstop : w.stop = .waiting)
      (hi : w.pool.threads[v.stopThread]? = some (.waiter x)) (hp : Pools w.pool v.stopThread p) :
      Moves v w .wait { w with pool := p, stop := if x = .returned then .returned else .waiting }

variable {v : Server} {w w' : World}

theorem poolStep_inv {i : Nat} {ch : Choice} (h : w.poolStep i ch = some w') :
    ∃ p, ThreadPool.step threadpoolH w.pool (i, ch) = some p ∧ w' = { w with pool := p } := by
  obtain ⟨p, hp, he⟩ := Option.map_eq_some_iff.mp h
  exact ⟨p, hp, he.symm⟩

theorem finish_eq {p p' : Pool} {i t : Nat} (hi : p.threads[i]? = some (.worker (.run t none)))
    (h : ThreadPool.step threadpoolH p (i, .go) = some p') :
    p' = ⟨{ p.shared with finished := p.shared.finished ++ [t] }, p.threads.set i (.worker .count)⟩ := by
  unfold ThreadPool.step World.step at h
  rw [hi] at h
  cases h
  rfl

/-- **Inversion of a step of a server.** -/
theorem step_inv {a : Action} (h : step v w a = some w') : Moves v w a w' := by
  cases a with
  | worker i ch =>
    simp only [step] at h
    split at h
    · rename_i t hi
      split at h
      · rename_i hc
        simp only [Bool.and_eq_true, beq_iff_eq] at hc
        obtain ⟨p, hp, rfl⟩ := poolStep_inv h
        exact .finish hi hc.1 ⟨ch, hp⟩ (finish_eq hi (hc.2 ▸ hp))
      · cases h
    · cases h
    · rename_i x hx hcall hi
      obtain ⟨p, hp, rfl⟩ := poolStep_inv h
      refine .worker hi (fun t c he => ?_) ⟨ch, hp⟩
      cases c with
      | none => exact hx t he
      | some c => exact hcall t c he
    · cases h
  | task i ok =>
    simp only [step] at h
    split at h
    · rename_i t hi
      split at h
      · cases h
      · rename_i j hj
        obtain ⟨⟨h', j'⟩, hs, he⟩ := Option.map_eq_some_iff.mp h
        cases he
        exact .task hi hj (task_inv hs)
    · cases h
  | loop k e =>
    simp only [step] at h
    split at h
    · rename_i l hk hl
      obtain ⟨⟨h', l'⟩, hs, he⟩ := Option.map_eq_some_iff.mp h
      cases he
      exact .loop hk hl (loop_inv hs)
    · cases h
  | call k =>
    simp only [step] at h
    split at h
    · rename_i fd parts hk hl
      obtain ⟨p, hp, rfl⟩ := poolStep_inv h
      exact .call hk hl ⟨_, hp⟩
    · cases h
  | submit k ch =>
    simp only [step] at h
    split at h
    · rename_i c hk
      obtain ⟨p, hp, rfl⟩ := poolStep_inv h
      exact .submit hk ⟨ch, hp⟩
    · cases h
  | accept fd =>
    simp only [step] at h
    split at h
    · rename_i hv
      split at h
      · rename_i hfree
        cases h
        exact .accept hv hfree
      · cases h
    · cases h
  | stop =>
    simp only [step] at h
    split at h
    · rename_i hstop hi
      obtain ⟨p, hp, rfl⟩ := poolStep_inv h
      exact .stop hstop hi ⟨_, hp⟩
    · cases h
  | wait =>
    simp only [step] at h
    split at h
    · rename_i x hstop hi
      obtain ⟨p, hp, rfl⟩ := poolStep_inv h
      simp only [beq_iff_eq]
      exact .wait hstop hi ⟨_, hp⟩
    · cases h

/-- The pool makes a step of its own, or none. -/
theorem Moves.pool {a : Action} (h : Moves v w a w') : w'.pool = w.pool ∨ ∃ i, Pools w.pool i w'.pool := by
  cases h with
  | worker _ _ hp => exact Or.inr ⟨_, hp⟩
  | finish _ _ hp => exact Or.inr ⟨_, hp⟩
  | task => exact Or.inl rfl
  | loop => exact Or.inl rfl
  | call _ _ hp => exact Or.inr ⟨_, hp⟩
  | submit _ hp => exact Or.inr ⟨_, hp⟩
  | accept => exact Or.inl rfl
  | stop _ _ hp => exact Or.inr ⟨_, hp⟩
  | wait _ _ hp => exact Or.inr ⟨_, hp⟩

/-- The runs of a server. -/
abbrev Serves (ok : World → Action → World → Prop) (v : Server) (w : World) : Prop :=
  Reach ok (step v) (init v) w

variable {ok : World → Action → World → Prop}

/-- **The pool of a server is a pool.** -/
theorem pool_runs (h : Serves ok v w) : Runs anyStep threadpoolH v.workers v.loops w.pool := by
  refine Reach.map (f := World.pool) (fun w a w' hs _ => ?_) h
  rcases (step_inv hs).pool with he | ⟨i, ch, hp⟩
  · exact Or.inl he
  · exact Or.inr ⟨(i, ch), hp, trivial⟩

/-! ## The threads of the pool -/

/-- What a thread is there for. -/
inductive Role where
  | worker
  | client
  | dtor
  | waiter
  deriving DecidableEq, Repr

def role : Thread → Role
  | .worker _ => .worker
  | .client _ => .client
  | .dtor _ => .dtor
  | .waiter _ => .waiter

theorem role_wake (c : Cv) (t : Thread) (h : (program threadpoolH).asleep c t = true) :
    role ((program threadpoolH).wake t) = role t := by
  rcases asleep_cases h with ⟨_, rfl⟩ | ⟨_, rfl⟩ <;> rfl

/-- A thread keeps its role. -/
theorem pool_roles {ok : Pool → Nat × Choice → Pool → Prop} {n m : Nat} {p : Pool}
    (h : Runs ok threadpoolH n m p) : p.threads.map role = (ThreadPool.init n m).threads.map role := by
  refine Reach.invariant
    (I := fun p : Pool => p.threads.map role = (ThreadPool.init n m).threads.map role) rfl ?_ h
  intro p a p' hi hs _
  obtain ⟨t, t', sig, ht, hp, hd⟩ := ThreadPool.step_inv hs
  have hrole : role t' = role t := by
    generalize p'.shared = sh' at hp
    cases hp <;> rfl
  rw [hd.map_eq role_wake, List.map_set, hrole, set_eq_of_get, hi]
  rw [List.getElem?_map, ht]
  rfl

theorem role_at {k : Nat} {r : Role} (h : Serves ok v w)
    (hk : ((ThreadPool.init v.workers v.loops).threads.map role)[k]? = some r) :
    ∃ t, w.pool.threads[k]? = some t ∧ role t = r := by
  rw [← pool_roles (pool_runs h), List.getElem?_map, Option.map_eq_some_iff] at hk
  exact hk

/-- Behind the workers, the first threads of the pool run the loops. -/
theorem client_at {k : Nat} (h : Serves ok v w) (hk : k < v.loops) :
    ∃ c, w.pool.threads[v.loopThread k]? = some (.client c) := by
  obtain ⟨t, ht, hr⟩ := role_at (k := v.loopThread k) (r := .client) h (by
    simp [ThreadPool.init, Server.loopThread, List.getElem?_append, hk, role])
  cases t with
  | client c => exact ⟨c, ht⟩
  | _ => cases hr

theorem client_lt {k : Nat} {c : Option ThreadPool.Call} (h : Serves ok v w)
    (hk : w.pool.threads[v.loopThread k]? = some (.client c)) : k < v.loops := by
  have hrole : (w.pool.threads.map role)[v.loopThread k]? = some .client := by
    rw [List.getElem?_map, hk]
    rfl
  rw [pool_roles (pool_runs h)] at hrole
  by_contra hge
  obtain ⟨d, hd⟩ := Nat.exists_eq_add_of_le (Nat.le_of_not_lt hge)
  have hat : v.loopThread k = v.workers + v.loops + d := by unfold Server.loopThread; omega
  simp only [ThreadPool.init, List.map_append, List.map_replicate] at hrole
  rw [hat, List.getElem?_append_right (by simp)] at hrole
  simp only [List.length_append, List.length_replicate, Nat.add_sub_cancel_left] at hrole
  cases d with
  | zero => cases hrole
  | succ d => cases d <;> cases hrole

theorem worker_lt {i : Nat} {x : Worker} (h : Serves ok v w)
    (hi : w.pool.threads[i]? = some (.worker x)) : i < v.workers := by
  have hrole : (w.pool.threads.map role)[i]? = some .worker := by
    rw [List.getElem?_map, hi]
    rfl
  rw [pool_roles (pool_runs h)] at hrole
  by_contra hge
  simp only [ThreadPool.init, List.map_append, List.map_replicate, List.append_assoc] at hrole
  rw [List.getElem?_append_right (by simpa using hge)] at hrole
  have hmem := List.mem_of_getElem? hrole
  simp [role] at hmem

section Threads

variable {p p' : Pool} {i k : Nat} {u : Thread}

/-- A step of a thread leaves another one, which is not asleep, as it is. -/
theorem Pools.stays (hp : Pools p i p') (hne : k ≠ i) (hk : p.threads[k]? = some u)
    (hu : ∀ c, asleep c u = false) : p'.threads[k]? = some u := by
  obtain ⟨ch, hs⟩ := hp
  obtain ⟨t, t', sig, ht, hst, hd⟩ := ThreadPool.step_inv hs
  exact hd.stays (by rw [List.getElem?_set_ne (Ne.symm hne), hk]) hu

theorem client_awake (c : Option ThreadPool.Call) (e : Cv) : asleep e (.client c) = false := by
  cases e <;> rfl

/-- A step of a loop that is in `submit`. -/
theorem Pools.submit {c : ThreadPool.Call} (hp : Pools p i p')
    (hi : p.threads[i]? = some (.client (some c))) :
    ∃ c' sig, SubmitStep p.shared c p'.shared c' sig ∧ p'.threads[i]? = some (.client c') := by
  obtain ⟨ch, hs⟩ := hp
  obtain ⟨t, t', sig, ht, hst, hd⟩ := ThreadPool.step_inv hs
  rw [hi, Option.some.injEq] at ht
  subst ht
  generalize p'.shared = sh' at hst
  cases hst with
  | @submit _ _ c' _ hsub =>
    refine ⟨c', sig, hsub, hd.stays ?_ (client_awake c')⟩
    rw [List.getElem?_set_self (List.getElem?_eq_some_iff.mp hi).1]

/-- A loop calls `submit`. -/
theorem Pools.call (hp : Pools p i p') (hi : p.threads[i]? = some (.client none)) :
    p'.shared = { p.shared with next := p.shared.next + 1 } ∧
      p'.threads[i]? = some (.client (some ⟨p.shared.next, .test⟩)) := by
  obtain ⟨ch, hs⟩ := hp
  obtain ⟨t, t', sig, ht, hst, hd⟩ := ThreadPool.step_inv hs
  rw [hi, Option.some.injEq] at ht
  subst ht
  generalize p'.shared = sh' at hst
  cases hst with
  | call =>
    refine ⟨rfl, hd.stays ?_ (client_awake _)⟩
    rw [List.getElem?_set_self (List.getElem?_eq_some_iff.mp hi).1]
    rfl

/-- A step of a worker. -/
theorem Pools.worker {x : Worker} (hp : Pools p i p') (hi : p.threads[i]? = some (.worker x)) :
    ∃ x' sig, WorkerStep threadpoolH p.shared x p'.shared x' sig ∧
      Delivered (program threadpoolH) sig (p.threads.set i (.worker x')) p'.threads := by
  obtain ⟨ch, hs⟩ := hp
  obtain ⟨t, t', sig, ht, hst, hd⟩ := ThreadPool.step_inv hs
  rw [hi, Option.some.injEq] at ht
  subst ht
  generalize p'.shared = sh' at hst
  cases hst with
  | @worker _ _ x' _ hw => exact ⟨x', sig, hw, hd⟩

/-- A step of the wait in `stop()`. -/
theorem Pools.waiter {x : Waiter} (hp : Pools p i p') (hi : p.threads[i]? = some (.waiter x)) :
    ∃ x' sig, WaiterStep p.shared x p'.shared x' sig ∧
      Delivered (program threadpoolH) sig (p.threads.set i (.waiter x')) p'.threads := by
  obtain ⟨ch, hs⟩ := hp
  obtain ⟨t, t', sig, ht, hst, hd⟩ := ThreadPool.step_inv hs
  rw [hi, Option.some.injEq] at ht
  subst ht
  generalize p'.shared = sh' at hst
  cases hst with
  | @waiter _ _ x' _ hw => exact ⟨x', sig, hw, hd⟩

/-- The wait changes nothing but its mutex. -/
theorem Pools.waiter_shared {x : Waiter} (hp : Pools p i p')
    (hi : p.threads[i]? = some (.waiter x)) : ∃ b, p'.shared = { p.shared with endMtx := b } := by
  obtain ⟨x', sig, hw, -⟩ := hp.waiter hi
  refine ⟨p'.shared.endMtx, ?_⟩
  generalize p'.shared = sh' at hw
  cases hw <;> rfl

end Threads

/-- Only a call of `submit` by the loop `k` moves the thread of the loop in the pool. -/
theorem client_stays {a : Action} (h : Serves ok v w) (hm : Moves v w a w') {k : Nat}
    (hk : k < v.loops) (hcall : a ≠ .call k) (hsubmit : ∀ ch, a ≠ .submit k ch) :
    w'.pool.threads[v.loopThread k]? = w.pool.threads[v.loopThread k]? := by
  obtain ⟨c, hc⟩ := client_at h hk
  have hother : ∀ {i : Nat} {t : Thread} {p : Pool}, w.pool.threads[i]? = some t →
      t ≠ .client c → Pools w.pool i p →
      p.threads[v.loopThread k]? = w.pool.threads[v.loopThread k]? := by
    intro i t p hi hne hp
    rw [hc]
    refine hp.stays ?_ hc (client_awake c)
    rintro rfl
    rw [hi, Option.some.injEq] at hc
    exact hne hc
  have hapart : ∀ {j : Nat} {p : Pool}, j ≠ k → Pools w.pool (v.loopThread j) p →
      p.threads[v.loopThread k]? = w.pool.threads[v.loopThread k]? := by
    intro j p hj hp
    rw [hc]
    refine hp.stays (fun he => hj ?_) hc (client_awake c)
    exact (Nat.add_left_cancel he).symm
  cases hm with
  | worker hi _ hp => exact hother hi (fun he => (nomatch he)) hp
  | finish hi _ hp => exact hother hi (fun he => (nomatch he)) hp
  | task => rfl
  | loop => rfl
  | call _ _ hp => exact hapart (fun he => hcall (by rw [he])) hp
  | submit _ hp => exact hapart (fun he => hsubmit _ (by rw [he])) hp
  | accept => rfl
  | stop _ hi hp => exact hother hi (fun he => (nomatch he)) hp
  | wait _ hi hp => exact hother hi (fun he => (nomatch he)) hp

/-- A loop that is in `submit` is at the top of its own code. -/
def AtTop (v : Server) (w : World) : Prop :=
  ∀ k, k < v.loops → ∀ c, w.pool.threads[v.loopThread k]? = some (.client (some c)) →
    w.loops[k]? = some .top

theorem atTop_step {a : Action} (h : Serves ok v w) (hi : AtTop v w) (hm : Moves v w a w') :
    AtTop v w' := by
  intro k hk c hc
  by_cases hcall : a = .call k
  · subst hcall
    cases hm with
    | call _ hl => exact List.getElem?_set_self (List.getElem?_eq_some_iff.mp hl).1
  · by_cases hsubmit : ∃ ch, a = .submit k ch
    · obtain ⟨ch, rfl⟩ := hsubmit
      cases hm with
      | submit hold => exact hi k hk _ hold
    · have hold := hc
      rw [client_stays h hm hk hcall fun ch he => hsubmit ⟨ch, he⟩] at hold
      have htop := hi k hk c hold
      cases hm with
      | @loop k' _ _ _ _ hk' =>
        rw [List.getElem?_set_ne, htop]
        rintro rfl
        rw [hold] at hk'
        cases hk'
      | @call k' _ _ _ hk' =>
        rw [List.getElem?_set_ne, htop]
        rintro rfl
        rw [hold] at hk'
        cases hk'
      | _ => exact htop

theorem atTop (h : Serves ok v w) : AtTop v w := by
  refine h.invariant_of (K := Serves ok v) (fun _ h => h) ?_
    fun _ _ _ hr hi hs _ => atTop_step hr hi (step_inv hs)
  intro k _ c hc
  rcases init_threads (List.mem_of_getElem? hc) with h | h | h | h <;> cases h

/-! ## Tasks and jobs -/

theorem worker_next {sh sh' : Shared} {x x' : Worker} {sig : Signal Cv}
    (h : WorkerStep threadpoolH sh x sh' x' sig) (hx : ∀ t c, x ≠ .run t c) :
    sh'.stop = sh.stop ∧ sh'.next = sh.next ∧ sh'.accepted = sh.accepted := by
  cases h with
  | finish => exact absurd rfl (hx _ _)
  | call => exact absurd rfl (hx _ _)
  | submit => exact absurd rfl (hx _ _)
  | _ => exact ⟨rfl, rfl, rfl⟩

/-- The pool is never stopped, and each call of `submit` has its job. -/
structure Serving (w : World) : Prop where
  stop : w.pool.shared.stop = false
  jobs : w.jobs.length = w.pool.shared.next

theorem Serving.same (hi : Serving w) (hstop : w'.pool.shared.stop = w.pool.shared.stop)
    (hnext : w'.pool.shared.next = w.pool.shared.next) (hj : w'.jobs = w.jobs) : Serving w' := by
  refine ⟨hstop.trans hi.stop, ?_⟩
  rw [hnext, hj]
  exact hi.jobs

theorem serving_step {a : Action} (hi : Serving w) (h : Moves v w a w') : Serving w' := by
  cases h with
  | worker hi' hx hp =>
    obtain ⟨x', sig, hw, _⟩ := hp.worker hi'
    obtain ⟨hstop, hnext, _⟩ := worker_next hw hx
    exact hi.same hstop hnext rfl
  | finish _ _ _ he =>
    rw [he]
    exact hi.same rfl rfl rfl
  | task => exact ⟨hi.stop, (List.length_set ..).trans hi.jobs⟩
  | loop => exact hi.same rfl rfl rfl
  | call hk _ hp =>
    obtain ⟨hsh, _⟩ := hp.call hk
    refine ⟨?_, ?_⟩
    · rw [hsh]
      exact hi.stop
    · rw [hsh, List.length_append, hi.jobs]
      rfl
  | @submit k ch c p hk hp =>
    obtain ⟨c', sig, hs, _⟩ := hp.submit hk
    have hsame : p.shared.stop = w.pool.shared.stop ∧ p.shared.next = w.pool.shared.next := by
      generalize p.shared = sh' at hs
      cases hs <;> exact ⟨rfl, rfl⟩
    exact hi.same hsame.1 hsame.2 rfl
  | accept => exact hi.same rfl rfl rfl
  | stop _ hi' hp =>
    obtain ⟨b, hsh⟩ := hp.waiter_shared hi'
    exact hi.same (by rw [hsh]) (by rw [hsh]) rfl
  | wait _ hi' hp =>
    obtain ⟨b, hsh⟩ := hp.waiter_shared hi'
    exact hi.same (by rw [hsh]) (by rw [hsh]) rfl

theorem serving (h : Serves ok v w) : Serving w :=
  h.invariant ⟨rfl, rfl⟩ fun _ _ _ hi hs _ => serving_step hi (step_inv hs)

/-- A task in the queue, or dequeued, has its job. -/
theorem job_of_accepted (h : Serves ok v w) {t : Nat} (ht : t ∈ w.pool.shared.accepted) :
    ∃ j, w.jobs[t]? = some j := by
  have hl := (pool_ledger t (pool_runs h)).submitted
  have hpos := List.count_pos_iff.mpr ht
  have hnn := tally_nonneg (l := w.pool.threads) (ind_nonneg (pending t))
  have hlt : t < w.jobs.length := by
    rw [(serving h).jobs]
    by_contra hge
    rw [if_neg hge] at hl
    omega
  exact ⟨_, List.getElem?_eq_getElem hlt⟩

theorem fifo (h : Serves ok v w) :
    w.pool.shared.accepted = w.pool.shared.dequeued ++ w.pool.shared.queue := pool_fifo (pool_runs h)

/-- A task that was popped has left the queue, and no `submit` call has yet to enqueue it. -/
theorem left_queue (h : Serves ok v w) {t : Nat} (ht : t ∈ w.pool.shared.dequeued) :
    t ∉ w.pool.shared.queue ∧ ∀ u ∈ w.pool.threads, ThreadPool.pending t u = false := by
  have hl := (pool_ledger t (pool_runs h)).submitted
  rw [fifo h, List.count_append] at hl
  have hpos := List.count_pos_iff.mpr ht
  have hnn := tally_nonneg (l := w.pool.threads) (ind_nonneg (pending t))
  have hle : (if t < w.pool.shared.next then 1 else 0 : Int) ≤ 1 := by split <;> decide
  refine ⟨fun hq => ?_, fun u hu => not_pending_of_accepted (pool_runs h) ?_ hu⟩
  · have := List.count_pos_iff.mpr hq
    omega
  · rw [fifo h]
    exact List.mem_append_left _ ht

theorem dequeued_of_running (h : Serves ok v w) {t : Nat} {c : Option ThreadPool.Call}
    (hu : Thread.worker (.run t c) ∈ w.pool.threads) : t ∈ w.pool.shared.dequeued := by
  have hl := pool_ledger t (pool_runs h)
  have hrun := tally_ind_pos (p := running t) hu (by simp [running])
  have hst := hl.started
  have hde := hl.dequeued
  have hnn := tally_nonneg (l := w.pool.threads) (ind_nonneg (holding t))
  exact List.count_pos_iff.mp (by omega)

end CppBackend.PoolServer
