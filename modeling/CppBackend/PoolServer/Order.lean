import CppBackend.PoolServer.Tasks
import CppBackend.SubReactors.Rotation

/-!
# The order of the echoes

In `multithread_reactor.cpp` the chunks of one connection become tasks that the workers take from
the queue in the order in which the chunks were received, but two workers may run two of them at the
same time: the later one may be sent first (`echo_overtaken`).  As long as no worker takes a
chunk of a connection while an earlier chunk of it is in another worker's hands, the echoes of each
connection are a prefix of what was received on it (`echo_in_order`).

The chunks received on a connection are those sent, those queued or in a worker's hands, and at most
one in the hands of its sub-reactor, in this order (`Echo`).
-/

set_option autoImplicit false

namespace CppBackend.PoolServer

open Library.Transition Library.Descriptors Library.Threads Library.Tally ThreadPool
open SubReactors (subReactor subReactor_lt)

def Chunk.on (c : Nat) (p : Chunk) : Option (List UInt8) := if p.conn = c then some p.data else none

/-- What was received on the connection, one entry for each `recv`. -/
def receivedOn (c : Nat) (received : List Chunk) : List (List UInt8) := received.filterMap (Chunk.on c)

def Act.on (c : Nat) (a : Act) : Option (List UInt8) :=
  if a.call = .send ∧ a.hit = some c then some a.data else none

/-- What was sent on the connection, one entry for each `send`. -/
def sentOn (c : Nat) (acts : List Act) : List (List UInt8) := acts.filterMap (Act.on c)

/-- A worker has taken a message of the connection from the queue and not dealt with it. -/
def Unsent (w : World) (c : Nat) : Prop :=
  ∃ t ∈ w.pool.shared.dequeued, ∃ j ∈ w.jobs[t]?, j.pc.isOver = false ∧ ∃ p ∈ j.parts, p.conn = c

instance (w : World) (c : Nat) : Decidable (Unsent w c) :=
  inferInstanceAs (Decidable (∃ t ∈ w.pool.shared.dequeued, ∃ j ∈ w.jobs[t]?, _ ∧ ∃ p ∈ j.parts, _))

/-- No worker takes a message of a connection from the queue while another worker has one of the same
connection in its hands. -/
def inTurn (w : World) (a : Action) (_ : World) : Prop :=
  match a with
  | .worker i _ => w.pool.threads[i]? = some (.worker .check) →
    ∀ t ∈ w.pool.shared.queue.head?, ∀ j ∈ w.jobs[t]?, ∀ p ∈ j.parts, ¬ Unsent w p.conn
  | _ => True

instance (w : World) (a : Action) (w' : World) : Decidable (inTurn w a w') :=
  match a with
  | .worker i _ => inferInstanceAs (Decidable (w.pool.threads[i]? = some (.worker .check) → _))
  | .task _ _ | .loop _ _ | .call _ | .submit _ _ | .accept _ | .stop | .wait => isTrue trivial

/-- Each send writes all its bytes, and connections stay open. -/
def kept (_ : World) (a : Action) (_ : World) : Prop :=
  match a with
  | .task _ ok => ok = true
  | .loop _ (.noData _) => False
  | _ => True

instance (w : World) (a : Action) (w' : World) : Decidable (kept w a w') :=
  match a with
  | .task _ ok => inferInstanceAs (Decidable (ok = true))
  | .loop _ (.noData _) => isFalse id
  | .worker _ _ | .call _ | .submit _ _ | .accept _ | .stop | .wait => isTrue trivial
  | .loop _ (.accept _) | .loop _ (.ready _) | .loop _ (.hangUp _) | .loop _ (.data _)
  | .loop _ .refused | .loop _ .go => isTrue trivial

/-- The chunk that the task `t` has yet to echo, if it is one of the connection `c`. -/
def owed (jobs : List Job) (c t : Nat) : Option (List UInt8) :=
  match jobs[t]? with
  | some ⟨_, [p], .send⟩ => p.on c
  | _ => none

/-- The chunk of the connection `c` in the hands of a loop: read, or in a call of `submit` that has
not enqueued it. -/
def flight (jobs : List Job) (c : Nat) : Option Thread → Option LoopPc → List (List UInt8)
  | some (.client (some call)), _ => if call.pending call.task then (owed jobs c call.task).toList else []
  | some (.client none), some (.submit _ parts) => parts.filterMap (Chunk.on c)
  | _, _ => []

/-! ## The reactor -/

/-- The connection in the hands of the loop `k` is one of its own. -/
def OnLoop (v : Server) (t : Table) (k : Nat) : LoopPc → Prop
  | .top => True
  | .recv fd parts => parts = [] ∧ ∃ c, t.conn fd = some c ∧ subReactor v.loops c = k
  | .submit fd parts => ∃ p, parts = [p] ∧ t.conn fd = some p.conn ∧ subReactor v.loops p.conn = k
  | _ => False

/-- The task has one chunk, and its number still refers to the connection of the chunk. -/
def Single (t : Table) (j : Job) : Prop :=
  ∃ p, j.parts = [p] ∧ t.conn j.fd = some p.conn ∧ (j.pc = .send ∨ j.pc = .done)

structure Lanes (v : Server) (w : World) : Prop where
  loops : ∀ k l, w.loops[k]? = some l → OnLoop v w.host.table k l
  jobs : ∀ j ∈ w.jobs, Single w.host.table j
  calls : ∀ k, k < v.loops → ∀ call,
    w.pool.threads[v.loopThread k]? = some (.client (some call)) →
    ∃ j p, w.jobs[call.task]? = some j ∧ j.parts = [p] ∧ subReactor v.loops p.conn = k

variable {v : Server} {n m : Nat} {w w' : World} {t t' : Table}

theorem loops_pos : 0 < (multithreadReactor n m).loops := Nat.le_max_right m 1

/-- No open number changes its connection. -/
def Table.Keeps (t t' : Table) : Prop := ∀ fd c, t.conn fd = some c → t'.conn fd = some c

theorem OnLoop.keeps {v : Server} {k : Nat} {l : LoopPc} (h : OnLoop v t k l) (ht : Table.Keeps t t') :
    OnLoop v t' k l := by
  cases l with
  | recv fd parts =>
    obtain ⟨hparts, c, hc, hk⟩ := h
    exact ⟨hparts, c, ht fd c hc, hk⟩
  | submit fd parts =>
    obtain ⟨p, hparts, hc, hk⟩ := h
    exact ⟨p, hparts, ht fd _ hc, hk⟩
  | _ => exact h

theorem Single.keeps {j : Job} (h : Single t j) (ht : Table.Keeps t t') : Single t' j := by
  obtain ⟨p, hparts, hc, hpc⟩ := h
  exact ⟨p, hparts, ht _ _ hc, hpc⟩

/-- What a loop of the reactor does while connections stay open. -/
inductive ReactorStep (v : Server) (k : Nat) (h : Host) : LoopPc → Host → LoopPc → Prop where
  | ready {fd c : Nat} (hc : h.table.conn fd = some c) (hk : subReactor v.loops c = k) :
      ReactorStep v k h .top h (.recv fd [])
  | data {fd c : Nat} {chunk : List UInt8} (hc : h.table.conn fd = some c) (hk : subReactor v.loops c = k) :
      ReactorStep v k h (.recv fd []) { h with received := h.received ++ [⟨c, chunk⟩] }
        (.submit fd [⟨c, chunk⟩])

theorem reactor_loop {k : Nat} {h h' : Host} {l l' : LoopPc} {e : Event}
    (hs : LoopStep (multithreadReactor n m) k h l e h' l')
    (hl : OnLoop (multithreadReactor n m) h.table k l) (he : ∀ again, e ≠ .noData again) :
    ReactorStep (multithreadReactor n m) k h l h' l' := by
  cases hs with
  | accept hv => cases hv
  | @ready fd hk =>
    unfold handles at hk
    rw [if_pos (show (multithreadReactor n m).acceptor = true from rfl)] at hk
    split at hk
    · cases hk
    · rename_i c hc
      exact .ready hc (beq_iff_eq.mp hk)
  | hangUp hv => cases hv
  | @data fd c parts chunk hc =>
    obtain ⟨rfl, c', hc', hk⟩ := hl
    rw [hc, Option.some.injEq] at hc'
    subst hc'
    exact .data hc hk
  | drained hv => cases hv
  | delete => exact absurd rfl (he _)
  | ended hv => cases hv
  | newLock => exact hl.elim
  | add => exact hl.elim
  | refused => exact hl.elim
  | newUnlock => exact hl.elim
  | closeLock => exact hl.elim
  | closeFd => exact hl.elim
  | closeUnlock => exact hl.elim

/-- The task of the reactor only sends. -/
theorem reactor_task {i : Nat} {h h' : Host} {j j' : Job} {ok : Bool}
    (hs : TaskStep (multithreadReactor n m) i h j ok h' j') (hj : Single h.table j) :
    ∃ p, j = ⟨j.fd, [p], .send⟩ ∧ j' = ⟨j.fd, [p], .done⟩ ∧
      h' = { h with acts := h.acts ++ [⟨i, .send, some p.conn, if ok then p.data else []⟩] } := by
  obtain ⟨p, hparts, hc, hpc⟩ := hj
  obtain ⟨fd, parts, pc⟩ := j
  change parts = [p] at hparts
  change h.table.conn fd = some p.conn at hc
  change pc = .send ∨ pc = .done at hpc
  subst hparts
  have hnot : pc ≠ .test ∧ pc ≠ .lock ∧ pc ≠ .closeLock ∧ pc ≠ .close ∧ pc ≠ .unlock := by
    rcases hpc with rfl | rfl <;> decide
  cases hs with
  | send hsend =>
    change pc = .send at hsend
    subst hsend
    refine ⟨p, rfl, rfl, ?_⟩
    show ({ h with acts := h.acts ++ [⟨i, .send, h.table.conn fd, _⟩] } : Host) = _
    rw [hc]
    simp [multithreadReactor]
  | pass hpc' => exact absurd hpc' hnot.1
  | skip hpc' => exact absurd hpc' hnot.1
  | lock hpc' => exact absurd hpc' hnot.2.1
  | closeLock hpc' => exact absurd hpc' hnot.2.2.1
  | close hpc' => exact absurd hpc' hnot.2.2.2.1
  | unlock hpc' => exact absurd hpc' hnot.2.2.2.2

/-- A call of `submit` stays one of its task. -/
theorem submit_task {sh sh' : Shared} {c d : ThreadPool.Call} {sig : Signal Cv}
    (h : SubmitStep sh c sh' (some d) sig) : d.task = c.task := by
  cases h <;> rfl

variable {ok : World → Action → World → Prop} {c : Nat}

/-- A worker sends the chunk of its task. -/
theorem lanes_task {v : Server} {t fd : Nat} {p : Chunk} {acts : List Act} (hi : Lanes v w)
    (hj : w.jobs[t]? = some ⟨fd, [p], .send⟩) :
    Lanes v { w with host := { w.host with acts := acts }
                     jobs := w.jobs.set t ⟨fd, [p], .done⟩ } := by
  obtain ⟨q, hq, hconn, -⟩ := hi.jobs _ (List.mem_of_getElem? hj)
  refine ⟨hi.loops, fun j hm => ?_, fun k hk call hc => ?_⟩
  · rcases List.mem_or_eq_of_mem_set hm with hm | rfl
    · exact hi.jobs j hm
    · exact ⟨q, hq, hconn, Or.inr rfl⟩
  · obtain ⟨j, r, hj', hr, hk'⟩ := hi.calls k hk call hc
    by_cases het : t = call.task
    · subst het
      rw [hj, Option.some.injEq] at hj'
      subst hj'
      exact ⟨_, r, List.getElem?_set_self (List.getElem?_eq_some_iff.mp hj).1, hr, hk'⟩
    · exact ⟨j, r, by rw [List.getElem?_set_ne het, hj'], hr, hk'⟩

/-- A loop of the reactor finds its descriptor ready, or reads a chunk. -/
theorem lanes_loop {v : Server} {k : Nat} {h : Host} {l l' : LoopPc} (hi : Lanes v w)
    (hs : ReactorStep v k w.host l h l') :
    Lanes v { w with host := h, loops := w.loops.set k l' } := by
  have hon : h.table = w.host.table ∧ OnLoop v w.host.table k l' := by
    cases hs with
    | ready hc hk => exact ⟨rfl, rfl, _, hc, hk⟩
    | data hc hk => exact ⟨rfl, _, rfl, hc, hk⟩
  refine ⟨fun k' l'' hl => ?_, fun j hj => ?_, hi.calls⟩
  · show OnLoop _ h.table k' l''
    rw [hon.1]
    rw [List.getElem?_set] at hl
    split at hl
    · rename_i heq
      split at hl <;> cases hl
      exact heq ▸ hon.2
    · exact hi.loops k' l'' hl
  · show Single h.table j
    rw [hon.1]
    exact hi.jobs j hj

/-- A step of one loop in the pool leaves the threads of the others where they are. -/
theorem other_stays {k k' : Nat} {p : Pool} (hr : Serves ok v w) (hp : Pools w.pool (v.loopThread k) p)
    (hk' : k' < v.loops) (hne : k' ≠ k) :
    p.threads[v.loopThread k']? = w.pool.threads[v.loopThread k']? := by
  obtain ⟨o, ho⟩ := client_at hr hk'
  rw [ho]
  exact hp.stays (fun heq => hne (Nat.add_left_cancel heq)) ho (client_awake o)

/-- A sub-reactor calls `submit` with the chunk `q`. -/
theorem lanes_call {k fd : Nat} {q : Chunk} {p : Pool} (hr : Serves ok v w) (hi : Lanes v w)
    (hk : w.pool.threads[v.loopThread k]? = some (.client none))
    (hl : w.loops[k]? = some (.submit fd [q])) (hp : Pools w.pool (v.loopThread k) p) :
    Lanes v { w with pool := p
                     jobs := w.jobs ++ [⟨fd, [q], .send⟩]
                     loops := w.loops.set k .top } := by
  obtain ⟨q', hq, hconn, hqk⟩ := hi.loops k _ hl
  obtain rfl : q = q' := by simpa using hq
  obtain ⟨-, hth⟩ := hp.call hk
  refine ⟨fun k' l hl' => ?_, fun j hj => ?_, fun k' hk' call hc => ?_⟩
  · rw [List.getElem?_set] at hl'
    split at hl'
    · split at hl' <;> cases hl'
      trivial
    · exact hi.loops k' l hl'
  · rcases List.mem_append.mp hj with hj | hj
    · exact hi.jobs j hj
    · rw [List.mem_singleton.mp hj]
      exact ⟨q, rfl, hconn, Or.inl rfl⟩
  · by_cases hkk : k' = k
    · subst hkk
      rw [hth] at hc
      cases hc
      refine ⟨⟨fd, [q], .send⟩, q, ?_, rfl, hqk⟩
      rw [← (serving hr).jobs, List.getElem?_append_right (Nat.le_refl _), Nat.sub_self]
      rfl
    · -- another loop stays in its call, whose job is older
      rw [other_stays hr hp hk' hkk] at hc
      obtain ⟨j, q', hj, hq', hk''⟩ := hi.calls k' hk' call hc
      exact ⟨j, q', by rw [List.getElem?_append_left (List.getElem?_eq_some_iff.mp hj).1, hj],
        hq', hk''⟩

/-- A sub-reactor moves on in `submit`. -/
theorem lanes_submit {k : Nat} {call : ThreadPool.Call} {p : Pool} (hr : Serves ok v w)
    (hi : Lanes v w) (hk : w.pool.threads[v.loopThread k]? = some (.client (some call)))
    (hp : Pools w.pool (v.loopThread k) p) : Lanes v { w with pool := p } := by
  refine ⟨hi.loops, hi.jobs, fun k' hk' call' hc => ?_⟩
  by_cases hkk : k' = k
  · subst hkk
    obtain ⟨c', sig, hs, hth⟩ := hp.submit hk
    rw [hth] at hc
    cases hc
    rw [submit_task hs]
    exact hi.calls k' hk' call hk
  · rw [other_stays hr hp hk' hkk] at hc
    exact hi.calls k' hk' call' hc

/-- The table is only added to, and neither the jobs nor the loops move. -/
theorem lanes_same {v : Server} (hi : Lanes v w) (ht : Table.Keeps w.host.table w'.host.table)
    (hloops : w'.loops = w.loops) (hjobs : w'.jobs = w.jobs)
    (hthreads : ∀ k, k < v.loops →
      w'.pool.threads[v.loopThread k]? = w.pool.threads[v.loopThread k]?) : Lanes v w' := by
  refine ⟨fun k l hl => ?_, fun j hj => ?_, fun k hk call hc => ?_⟩
  · rw [hloops] at hl
    exact (hi.loops k l hl).keeps ht
  · rw [hjobs] at hj
    exact (hi.jobs j hj).keeps ht
  · rw [hthreads k hk] at hc
    rw [hjobs]
    exact hi.calls k hk call hc

/-- **One step** keeps the chunks on their loops, while connections stay open. -/
theorem lanes_step {a : Action} (hr : Serves ok (multithreadReactor n m) w)
    (hi : Lanes (multithreadReactor n m) w) (hm : Moves (multithreadReactor n m) w a w')
    (hkept : kept w a w') : Lanes (multithreadReactor n m) w' := by
  have hstay : (∀ k, a ≠ .call k) → (∀ k ch, a ≠ .submit k ch) →
      ∀ k, k < (multithreadReactor n m).loops →
        w'.pool.threads[(multithreadReactor n m).loopThread k]? =
          w.pool.threads[(multithreadReactor n m).loopThread k]? :=
    fun h1 h2 k hk => client_stays hr hm hk (h1 k) (h2 k)
  cases hm with
  | worker =>
    exact lanes_same hi (fun _ _ h => h) rfl rfl
      (hstay (fun _ h => (nomatch h)) (fun _ _ h => (nomatch h)))
  | finish =>
    exact lanes_same hi (fun _ _ h => h) rfl rfl
      (hstay (fun _ h => (nomatch h)) (fun _ _ h => (nomatch h)))
  | stop =>
    exact lanes_same hi (fun _ _ h => h) rfl rfl
      (hstay (fun _ h => (nomatch h)) (fun _ _ h => (nomatch h)))
  | wait =>
    exact lanes_same hi (fun _ _ h => h) rfl rfl
      (hstay (fun _ h => (nomatch h)) (fun _ _ h => (nomatch h)))
  | accept hv hfree =>
    exact lanes_same hi (fun fd c hc => accept_open hfree hc) rfl rfl
      (hstay (fun _ h => (nomatch h)) (fun _ _ h => (nomatch h)))
  | @task i t ok j j' h hi' hj hts =>
    obtain ⟨p, hj1, rfl, rfl⟩ := reactor_task hts (hi.jobs j (List.mem_of_getElem? hj))
    rw [hj1] at hj
    exact lanes_task hi hj
  | @loop k e l l' h hk hl hls =>
    refine lanes_loop hi (reactor_loop hls (hi.loops k l hl) fun again heq => ?_)
    rw [heq] at hkept
    exact hkept
  | call hk hl hp =>
    obtain ⟨q, rfl, -, -⟩ := hi.loops _ _ hl
    exact lanes_call hr hi hk hl hp
  | submit hk hp => exact lanes_submit hr hi hk hp

theorem lanes_init : Lanes (multithreadReactor n m) (init (multithreadReactor n m)) where
  loops k l hl := by
    rw [List.eq_of_mem_replicate (List.mem_of_getElem? hl)]
    trivial
  jobs _ hj := nomatch hj
  calls k hk call hc := by
    rcases init_threads (List.mem_of_getElem? hc) with h | h | h | h <;> cases h

/-! ## The chunks of one connection -/

/-- The sub-reactor of the connection `c`, and its thread in the pool. -/
def lane (v : Server) (w : World) (c : Nat) : List (List UInt8) :=
  flight w.jobs c w.pool.threads[v.loopThread (subReactor v.loops c)]? w.loops[subReactor v.loops c]?

/-- What was received is what was sent, what waits in the order of the queue, and what the sub-reactor
    holds; the workers hold one chunk at most. -/
structure Echo (v : Server) (w : World) (c : Nat) : Prop where
  order : receivedOn c w.host.received =
    sentOn c w.host.acts ++ w.pool.shared.accepted.filterMap (owed w.jobs c) ++ lane v w c
  one : (w.pool.shared.dequeued.filterMap (owed w.jobs c)).length ≤ 1

theorem owed_some {jobs : List Job} {c t : Nat} {d : List UInt8} (h : owed jobs c t = some d) :
    ∃ fd, jobs[t]? = some ⟨fd, [⟨c, d⟩], .send⟩ := by
  unfold owed at h
  split at h
  · rename_i fd p hj
    unfold Chunk.on at h
    split at h
    · rename_i hc
      cases h
      exact ⟨fd, hc ▸ hj⟩
    · cases h
  · cases h

theorem owed_append {jobs : List Job} {c t : Nat} (ht : t < jobs.length) (j : Job) :
    owed (jobs ++ [j]) c t = owed jobs c t := by
  unfold owed
  rw [List.getElem?_append_left ht]

theorem owed_done {jobs : List Job} {c t fd : Nat} {p : Chunk} (ht : t < jobs.length) (x : Nat) :
    owed (jobs.set t ⟨fd, [p], .done⟩) c x = if x = t then none else owed jobs c x := by
  by_cases hx : x = t
  · rw [if_pos hx, hx]
    unfold owed
    rw [List.getElem?_set_self ht]
  · rw [if_neg hx]
    unfold owed
    rw [List.getElem?_set_ne (Ne.symm hx)]

theorem sentOn_send (c : Nat) (acts : List Act) (t : Nat) (p : Chunk) :
    sentOn c (acts ++ [⟨t, .send, some p.conn, p.data⟩]) = sentOn c acts ++ (p.on c).toList := by
  unfold sentOn
  rw [List.filterMap_append]
  by_cases hc : p.conn = c <;> simp [Act.on, Chunk.on, hc]

/-- Of the chunks that the workers hold, at most one, this one is sent. -/
theorem filterMap_served {β : Type} {f g : Nat → Option β} {t : Nat} {d : β}
    (hg : ∀ x, g x = if x = t then none else f x) (hf : f t = some d) :
    ∀ {l : List Nat}, t ∈ l → (l.filterMap f).length ≤ 1 →
      l.filterMap f = [d] ∧ l.filterMap g = []
  | x :: l, ht, hlen => by
    have hnone : ∀ {l : List Nat}, l.filterMap f = [] → l.filterMap g = [] := by
      intro l h
      rw [List.filterMap_eq_nil_iff] at h ⊢
      intro y hy
      rw [hg]
      split
      · rfl
      · exact h y hy
    by_cases hx : x = t
    · subst hx
      rw [List.filterMap_cons_some hf, List.length_cons] at hlen
      have hnil := List.eq_nil_of_length_eq_zero (Nat.le_zero.mp (Nat.le_of_succ_le_succ hlen))
      refine ⟨by rw [List.filterMap_cons_some hf, hnil], ?_⟩
      rw [List.filterMap_cons_none (by rw [hg, if_pos rfl]), hnone hnil]
    · have htl : t ∈ l := by
        rcases List.mem_cons.mp ht with he | hm
        · exact absurd he.symm hx
        · exact hm
      cases hfx : f x with
      | none =>
        have hgx : g x = none := by rw [hg, if_neg hx, hfx]
        rw [List.filterMap_cons_none hfx] at hlen ⊢
        rw [List.filterMap_cons_none hgx]
        exact filterMap_served hg hf htl hlen
      | some e =>
        rw [List.filterMap_cons_some hfx, List.length_cons] at hlen
        have hnil := List.eq_nil_of_length_eq_zero (Nat.le_zero.mp (Nat.le_of_succ_le_succ hlen))
        rw [List.filterMap_eq_nil_iff] at hnil
        rw [hnil t htl] at hf
        cases hf

theorem filterMap_kept {β : Type} {f g : Nat → Option β} {t : Nat}
    (hg : ∀ x, g x = if x = t then none else f x) {l : List Nat} (ht : t ∉ l) :
    l.filterMap g = l.filterMap f := by
  refine List.filterMap_congr fun x hx => ?_
  rw [hg, if_neg]
  rintro rfl
  exact ht hx

/-- Nothing that concerns the connection has changed. -/
theorem Echo.same {v : Server} {c : Nat} (he : Echo v w c)
    (hreceived : receivedOn c w'.host.received = receivedOn c w.host.received)
    (hsent : w'.host.acts = w.host.acts) (hjobs : w'.jobs = w.jobs)
    (haccepted : w'.pool.shared.accepted = w.pool.shared.accepted)
    (hdequeued : w'.pool.shared.dequeued = w.pool.shared.dequeued)
    (hlane : lane v w' c = lane v w c) : Echo v w' c := by
  refine ⟨?_, ?_⟩
  · rw [hreceived, hsent, hjobs, haccepted, hlane, he.order]
  · rw [hjobs, hdequeued]
    exact he.one

theorem worker_dequeued {sh sh' : Shared} {x x' : Worker} {sig : Signal Cv}
    (h : WorkerStep threadpoolH sh x sh' x' sig) : sh'.dequeued = sh.dequeued ∨
      (x = .check ∧ ∃ t q, sh.queue = t :: q ∧ sh'.dequeued = sh.dequeued ++ [t]) := by
  cases h with
  | pop hq => exact Or.inr ⟨rfl, _, _, hq, rfl⟩
  | submit h => exact Or.inl (submit_logs h).1
  | _ => exact Or.inl rfl

/-- A worker moves in `NewThread`: it may take a task from the queue. -/
theorem echo_worker {v : Server} {i : Nat} {ch : Choice} {x : Worker} {p : Pool} (he : Echo v w c)
    (hi : w.pool.threads[i]? = some (.worker x)) (hx : ∀ t c, x ≠ .run t c) (hp : Pools w.pool i p)
    (hturn : inTurn w (.worker i ch) { w with pool := p })
    (hlane : lane v { w with pool := p } c = lane v w c) : Echo v { w with pool := p } c := by
  obtain ⟨x', sig, hw, _⟩ := hp.worker hi
  have hacc := (worker_next hw hx).2.2
  rcases worker_dequeued hw with hdeq | ⟨rfl, t, q, hq, hdeq⟩
  · exact he.same rfl rfl rfl hacc hdeq hlane
  · refine ⟨?_, ?_⟩
    · rw [hlane]
      show _ = _ ++ p.shared.accepted.filterMap _ ++ _
      rw [hacc]
      exact he.order
    · show (p.shared.dequeued.filterMap (owed w.jobs c)).length ≤ 1
      rw [hdeq, List.filterMap_append]
      cases ho : owed w.jobs c t with
      | none =>
        simp only [List.filterMap_cons, ho, List.filterMap_nil, List.append_nil]
        exact he.one
      | some d =>
        have hnone : w.pool.shared.dequeued.filterMap (owed w.jobs c) = [] := by
          rw [List.filterMap_eq_nil_iff]
          intro y hy
          by_contra hsome
          obtain ⟨d', hd'⟩ := Option.ne_none_iff_exists'.mp hsome
          obtain ⟨fd, hj⟩ := owed_some ho
          obtain ⟨fd', hj'⟩ := owed_some hd'
          exact hturn hi t (by rw [hq]; rfl) _ hj ⟨c, d⟩ (List.mem_singleton_self _)
            ⟨y, hy, _, hj', rfl, ⟨c, d'⟩, List.mem_singleton_self _, rfl⟩
        rw [hnone]
        simp [ho]

/-- A worker sends the chunk `p`: of its connection, it is the first that waits. -/
theorem echo_task {v : Server} {i t fd : Nat} {p : Chunk} (hr : Serves ok v w) (he : Echo v w c)
    (hi : w.pool.threads[i]? = some (.worker (.run t none)))
    (hj : w.jobs[t]? = some ⟨fd, [p], .send⟩) :
    Echo v { w with host := { w.host with acts := w.host.acts ++ [⟨t, .send, some p.conn, p.data⟩] }
                    jobs := w.jobs.set t ⟨fd, [p], .done⟩ } c := by
  have hlt := (List.getElem?_eq_some_iff.mp hj).1
  have hg : ∀ x, owed (w.jobs.set t ⟨fd, [p], .done⟩) c x = if x = t then none else owed w.jobs c x :=
    owed_done hlt
  have hdeq := dequeued_of_running hr (List.mem_of_getElem? hi)
  obtain ⟨hqueue, hpending⟩ := left_queue hr hdeq
  have hlane : flight (w.jobs.set t ⟨fd, [p], .done⟩) c w.pool.threads[v.loopThread (subReactor v.loops c)]?
      w.loops[subReactor v.loops c]? = lane v w c := by
    unfold lane flight
    split
    · rename_i call hth
      split
      · rename_i hp
        rw [hg, if_neg]
        rintro rfl
        have := hpending _ (List.mem_of_getElem? hth)
        exact absurd hp (by rw [show call.pending call.task = false from this]; decide)
      · rfl
    · rfl
    · rfl
  have howed : owed w.jobs c t = p.on c := by
    unfold owed
    rw [hj]
  -- the chunk leaves the head of what waits, if it is one of the connection
  have hwaits : w.pool.shared.accepted.filterMap (owed w.jobs c) =
      (p.on c).toList ++ w.pool.shared.accepted.filterMap (owed (w.jobs.set t ⟨fd, [p], .done⟩) c) ∧
      (w.pool.shared.dequeued.filterMap (owed (w.jobs.set t ⟨fd, [p], .done⟩) c)).length ≤ 1 := by
    cases hc : p.on c with
    | some d =>
      obtain ⟨hone, hnil⟩ := filterMap_served hg (howed.trans hc) hdeq he.one
      rw [fifo hr, List.filterMap_append, List.filterMap_append, hone, hnil, filterMap_kept hg hqueue]
      exact ⟨rfl, Nat.zero_le 1⟩
    | none =>
      have hsame : owed (w.jobs.set t ⟨fd, [p], .done⟩) c = owed w.jobs c := by
        funext x
        rw [hg]
        split
        · rename_i hx
          rw [hx, howed, hc]
        · rfl
      rw [hsame]
      exact ⟨rfl, he.one⟩
  refine ⟨?_, hwaits.2⟩
  show receivedOn c w.host.received = sentOn c (w.host.acts ++ [⟨t, .send, some p.conn, p.data⟩]) ++
    w.pool.shared.accepted.filterMap (owed (w.jobs.set t ⟨fd, [p], .done⟩) c) ++
    flight (w.jobs.set t ⟨fd, [p], .done⟩) c w.pool.threads[v.loopThread (subReactor v.loops c)]?
      w.loops[subReactor v.loops c]?
  rw [hlane, he.order, hwaits.1, sentOn_send]
  simp only [List.append_assoc]

/-- A loop of the reactor finds its descriptor ready, or reads a chunk. -/
theorem echo_loop {v : Server} {k : Nat} {h : Host} {l l' : LoopPc} (he : Echo v w c)
    (hk : w.pool.threads[v.loopThread k]? = some (.client none)) (hl : w.loops[k]? = some l)
    (hs : ReactorStep v k w.host l h l') :
    Echo v { w with host := h, loops := w.loops.set k l' } c := by
  have hother : k ≠ subReactor v.loops c →
      lane v { w with host := h, loops := w.loops.set k l' } c = lane v w c := by
    intro hne
    show flight w.jobs c _ (w.loops.set k l')[subReactor v.loops c]? = _
    rw [List.getElem?_set_ne hne]
    rfl
  have hown : k = subReactor v.loops c → lane v w c = flight w.jobs c (some (.client none)) (some l) ∧
      lane v { w with host := h, loops := w.loops.set k l' } c =
        flight w.jobs c (some (.client none)) (some l') := by
    rintro rfl
    refine ⟨?_, ?_⟩
    · unfold lane
      rw [hk, hl]
    · show flight w.jobs c _ (w.loops.set _ l')[subReactor v.loops c]? = _
      rw [hk, List.getElem?_set_self (List.getElem?_eq_some_iff.mp hl).1]
  cases hs with
  | ready hc hmod =>
    refine he.same rfl rfl rfl rfl rfl ?_
    by_cases hkc : k = subReactor v.loops c
    · rw [(hown hkc).1, (hown hkc).2]
      rfl
    · exact hother hkc
  | @data fd c' chunk hc hmod =>
    refine ⟨?_, he.one⟩
    show receivedOn c (w.host.received ++ [⟨c', chunk⟩]) = _ ++ _ ++ lane v _ c
    unfold receivedOn
    rw [List.filterMap_append]
    change receivedOn c w.host.received ++ _ = _
    rw [he.order]
    by_cases hkc : k = subReactor v.loops c
    · rw [(hown hkc).1, (hown hkc).2]
      simp [flight]
    · have hne : c' ≠ c := by
        rintro rfl
        exact hkc hmod.symm
      rw [hother hkc]
      simp [Chunk.on, hne]

theorem mem_accepted_of_dequeued (hr : Serves ok v w) {t : Nat}
    (ht : t ∈ w.pool.shared.dequeued) : t ∈ w.pool.shared.accepted := by
  rw [fifo hr]
  exact List.mem_append_left _ ht

/-- A new job is behind those of the accepted tasks. -/
theorem owed_new {c : Nat} (hr : Serves ok v w) (j : Job) {l : List Nat}
    (hl : ∀ t ∈ l, t ∈ w.pool.shared.accepted) :
    l.filterMap (owed (w.jobs ++ [j]) c) = l.filterMap (owed w.jobs c) := by
  refine List.filterMap_congr fun t ht => ?_
  obtain ⟨j', hj'⟩ := job_of_accepted hr (hl t ht)
  exact owed_append (List.getElem?_eq_some_iff.mp hj').1 j

/-- A sub-reactor calls `submit` with the chunk `q`. -/
theorem echo_call {k fd : Nat} {q : Chunk} {p : Pool} (hr : Serves ok v w) (he : Echo v w c)
    (hi : Lanes v w) (hpos : 0 < v.loops)
    (hk : w.pool.threads[v.loopThread k]? = some (.client none))
    (hl : w.loops[k]? = some (.submit fd [q])) (hp : Pools w.pool (v.loopThread k) p) :
    Echo v { w with pool := p
                    jobs := w.jobs ++ [⟨fd, [q], .send⟩]
                    loops := w.loops.set k .top } c := by
  obtain ⟨hsh, hth⟩ := hp.call hk
  have hlane : flight (w.jobs ++ [⟨fd, [q], .send⟩]) c p.threads[v.loopThread (subReactor v.loops c)]?
      (w.loops.set k .top)[subReactor v.loops c]? = lane v w c := by
    by_cases hkc : k = subReactor v.loops c
    · subst hkc
      have hnew : owed (w.jobs ++ [⟨fd, [q], .send⟩]) c w.pool.shared.next = q.on c := by
        unfold owed
        rw [← (serving hr).jobs, List.getElem?_append_right (Nat.le_refl _), Nat.sub_self]
        rfl
      unfold lane
      rw [hk, hl, hth]
      simp only [flight, ThreadPool.Call.pending, hnew]
      cases hq : q.on c <;> simp [hq]
    · obtain ⟨o, ho⟩ := client_at hr (subReactor_lt hpos c)
      unfold lane
      rw [other_stays hr hp (subReactor_lt hpos c) (Ne.symm hkc), ho, List.getElem?_set_ne hkc]
      cases o with
      | none =>
        cases w.loops[subReactor v.loops c]? with
        | none => rfl
        | some l => cases l <;> rfl
      | some call =>
        obtain ⟨j, _, hj, _⟩ := hi.calls _ (subReactor_lt hpos c) call ho
        simp only [flight]
        rw [owed_append (List.getElem?_eq_some_iff.mp hj).1]
  refine ⟨?_, ?_⟩
  · show receivedOn c w.host.received = sentOn c w.host.acts ++
      p.shared.accepted.filterMap (owed (w.jobs ++ [⟨fd, [q], .send⟩]) c) ++
        flight (w.jobs ++ [⟨fd, [q], .send⟩]) c p.threads[v.loopThread (subReactor v.loops c)]?
          (w.loops.set k .top)[subReactor v.loops c]?
    rw [hlane, hsh]
    show _ = _ ++ w.pool.shared.accepted.filterMap _ ++ _
    rw [owed_new hr _ fun _ ht => ht]
    exact he.order
  · show (p.shared.dequeued.filterMap (owed (w.jobs ++ [⟨fd, [q], .send⟩]) c)).length ≤ 1
    rw [hsh]
    show (w.pool.shared.dequeued.filterMap _).length ≤ 1
    rw [owed_new hr _ fun _ ht => mem_accepted_of_dequeued hr ht]
    exact he.one

/-- A sub-reactor moves on in `submit`: it may enqueue its chunk. -/
theorem echo_submit {k : Nat} {call : ThreadPool.Call} {p : Pool} (hr : Serves ok v w)
    (he : Echo v w c) (hi : Lanes v w) (hpos : 0 < v.loops)
    (hk : w.pool.threads[v.loopThread k]? = some (.client (some call)))
    (hp : Pools w.pool (v.loopThread k) p) : Echo v { w with pool := p } c := by
  obtain ⟨call', sig, hs, hth⟩ := hp.submit hk
  have hother : k ≠ subReactor v.loops c → lane v { w with pool := p } c = lane v w c := by
    intro hkc
    show flight w.jobs c p.threads[v.loopThread (subReactor v.loops c)]? _ = _
    rw [other_stays hr hp (subReactor_lt hpos c) (Ne.symm hkc)]
    rfl
  have hown : k = subReactor v.loops c →
      lane v w c = flight w.jobs c (some (.client (some call))) w.loops[subReactor v.loops c]? ∧
        lane v { w with pool := p } c =
          flight w.jobs c (some (.client call')) w.loops[subReactor v.loops c]? := by
    rintro rfl
    refine ⟨?_, ?_⟩
    · unfold lane
      rw [hk]
    · show flight w.jobs c p.threads[v.loopThread (subReactor v.loops c)]? _ = _
      rw [hth]
  have hkeep : p.shared.accepted = w.pool.shared.accepted → p.shared.dequeued = w.pool.shared.dequeued →
      (k = subReactor v.loops c → flight w.jobs c (some (.client call')) w.loops[subReactor v.loops c]? =
        flight w.jobs c (some (.client (some call))) w.loops[subReactor v.loops c]?) →
      Echo v { w with pool := p } c := by
    intro hacc hdeq hfl
    refine he.same rfl rfl rfl hacc hdeq ?_
    by_cases hkc : k = subReactor v.loops c
    · rw [(hown hkc).1, (hown hkc).2, hfl hkc]
    · exact hother hkc
  have htop := atTop hr k (client_lt hr hk) call hk
  obtain ⟨j, q, hj, hq, hmod⟩ := hi.calls k (client_lt hr hk) call hk
  generalize hsh : p.shared = sh' at hs hkeep
  cases hs with
  | reject hstop =>
    rw [(serving hr).stop] at hstop
    cases hstop
  | pass => exact hkeep rfl rfl fun _ => by simp [flight, ThreadPool.Call.pending]
  | lock => exact hkeep rfl rfl fun _ => by simp [flight, ThreadPool.Call.pending]
  | add => exact hkeep rfl rfl fun _ => by simp [flight, ThreadPool.Call.pending]
  | unlock => exact hkeep rfl rfl fun _ => by simp [flight, ThreadPool.Call.pending]
  | notify =>
    refine hkeep rfl rfl fun hkc => ?_
    rw [← hkc, htop]
    simp [flight, ThreadPool.Call.pending]
  | @emplace t =>
    refine ⟨?_, ?_⟩
    · show receivedOn c w.host.received =
        sentOn c w.host.acts ++ p.shared.accepted.filterMap (owed w.jobs c) ++ lane v _ c
      rw [hsh]
      show _ = _ ++ (w.pool.shared.accepted ++ [t]).filterMap (owed w.jobs c) ++ _
      rw [he.order, List.filterMap_append]
      by_cases hkc : k = subReactor v.loops c
      · rw [(hown hkc).1, (hown hkc).2]
        simp only [flight, ThreadPool.Call.pending]
        cases ho : owed w.jobs c t <;> simp [ho]
      · rw [hother hkc]
        have hnone : owed w.jobs c t = none := by
          cases ho : owed w.jobs c t with
          | none => rfl
          | some d =>
            obtain ⟨fd, hj'⟩ := owed_some ho
            rw [hj, Option.some.injEq] at hj'
            rw [hj'] at hq
            cases hq
            exact absurd hmod.symm hkc
        simp [hnone]
    · show (p.shared.dequeued.filterMap (owed w.jobs c)).length ≤ 1
      rw [hsh]
      exact he.one

/-- **One step**: a worker takes a chunk only in its turn, each send writes all its bytes, connections
    stay open. -/
theorem echo_step {a : Action} (hr : Serves ok (multithreadReactor n m) w)
    (hi : Lanes (multithreadReactor n m) w) (he : Echo (multithreadReactor n m) w c)
    (hs : step (multithreadReactor n m) w a = some w') (hkept : kept w a w')
    (hturn : inTurn w a w') : Echo (multithreadReactor n m) w' c := by
  have hm := step_inv hs
  have hlane : (∀ k, a ≠ .call k) → (∀ k ch, a ≠ .submit k ch) → w'.jobs = w.jobs →
      w'.loops = w.loops →
      lane (multithreadReactor n m) w' c = lane (multithreadReactor n m) w c := by
    intro h1 h2 hj hl
    unfold lane
    rw [client_stays hr hm (subReactor_lt loops_pos c) (h1 _) (h2 _), hj, hl]
  cases hm with
  | worker hi' hx hp =>
    exact echo_worker he hi' hx hp hturn
      (hlane (fun _ h => (nomatch h)) (fun _ _ h => (nomatch h)) rfl rfl)
  | finish _ _ _ heq =>
    refine he.same rfl rfl rfl ?_ ?_
      (hlane (fun _ h => (nomatch h)) (fun _ _ h => (nomatch h)) rfl rfl)
    · rw [heq]
    · rw [heq]
  | @task i t ok j j' h hi' hj hts =>
    obtain ⟨p, hj1, rfl, rfl⟩ := reactor_task hts (hi.jobs j (List.mem_of_getElem? hj))
    rw [show ok = true from hkept, if_pos rfl]
    rw [hj1] at hj
    exact echo_task hr he hi' hj
  | @loop k e l l' h hk hl hls =>
    refine echo_loop he hk hl (reactor_loop hls (hi.loops k l hl) fun again heq => ?_)
    rw [heq] at hkept
    exact hkept
  | call hk hl hp =>
    obtain ⟨q, rfl, -, -⟩ := hi.loops _ _ hl
    exact echo_call hr he hi loops_pos hk hl hp
  | submit hk hp => exact echo_submit hr he hi loops_pos hk hp
  | accept =>
    exact he.same rfl rfl rfl rfl rfl
      (hlane (fun _ h => (nomatch h)) (fun _ _ h => (nomatch h)) rfl rfl)
  | stop _ hi' hp =>
    obtain ⟨b, hsh⟩ := hp.waiter_shared hi'
    exact he.same rfl rfl rfl (by rw [hsh]) (by rw [hsh])
      (hlane (fun _ h => (nomatch h)) (fun _ _ h => (nomatch h)) rfl rfl)
  | wait _ hi' hp =>
    obtain ⟨b, hsh⟩ := hp.waiter_shared hi'
    exact he.same rfl rfl rfl (by rw [hsh]) (by rw [hsh])
      (hlane (fun _ h => (nomatch h)) (fun _ _ h => (nomatch h)) rfl rfl)

theorem echo_init : Echo (multithreadReactor n m) (init (multithreadReactor n m)) c := by
  have hlane : lane (multithreadReactor n m) (init (multithreadReactor n m)) c = [] := by
    unfold lane flight
    split
    · rename_i hth
      rcases init_threads (List.mem_of_getElem? hth) with h | h | h | h <;> cases h
    · rename_i hl
      cases List.eq_of_mem_replicate (List.mem_of_getElem? hl)
    · rfl
  refine ⟨?_, Nat.zero_le 1⟩
  rw [hlane]
  rfl

/-- The steps of the runs in question. -/
def orderly (w : World) (a : Action) (w' : World) : Prop := kept w a w' ∧ inTurn w a w'

instance (w : World) (a : Action) (w' : World) : Decidable (orderly w a w') :=
  inferInstanceAs (Decidable (_ ∧ _))

/-- **The echoes of each connection are in order**: at every moment what was sent on a connection is
    a prefix of what was received on it, chunk by chunk and byte by byte, for any number of workers
    and sub-reactors and every interleaving in which the workers take the chunks of one connection
    in turn. -/
theorem echo_in_order (hr : Serves orderly (multithreadReactor n m) w) (c : Nat) :
    sentOn c w.host.acts <+: receivedOn c w.host.received ∧
      (sentOn c w.host.acts).flatten <+: (receivedOn c w.host.received).flatten := by
  have hlanes : ∀ w, Serves orderly (multithreadReactor n m) w → Lanes (multithreadReactor n m) w := by
    intro w hr
    exact hr.invariant_of (fun w h => h) lanes_init fun w a w' hr hi hs hok =>
      lanes_step hr hi (step_inv hs) hok.1
  have he : Echo (multithreadReactor n m) w c :=
    hr.invariant_of (K := fun w => Serves orderly (multithreadReactor n m) w)
      (I := fun w => Echo (multithreadReactor n m) w c) (fun w h => h) echo_init
      fun w a w' hr he hs hok => echo_step hr (hlanes w hr) he hs hok.1 hok.2
  have hpre : sentOn c w.host.acts <+: receivedOn c w.host.received := by
    rw [he.order, List.append_assoc]
    exact List.prefix_append _ _
  refine ⟨hpre, ?_⟩
  obtain ⟨rest, hrest⟩ := hpre
  rw [← hrest, List.flatten_append]
  exact List.prefix_append _ _

/-- With one worker the chunks of a connection are taken in turn: the worker has dealt with a task before
    it takes the next one. -/
theorem inTurn_of_one_worker {a : Action} (hr : Serves ok (multithreadReactor 1 m) w) :
    inTurn w a w' := by
  cases a with
  | worker i ch =>
    rintro hcheck t - j - p - ⟨t', hdeq, j', hj', hpc, -⟩
    have hover : isOver w.jobs t' = false := (isOver_of_get hj').trans hpc
    obtain ⟨k, x, hk, hx⟩ := in_hands hr hdeq hover
    -- both numbers are that of the only worker
    have h0 := worker_lt hr hcheck
    have h1 := worker_lt hr hk
    obtain rfl : i = k := by
      change i < 1 at h0
      change k < 1 at h1
      omega
    rw [hcheck, Option.some.injEq, Thread.worker.injEq] at hk
    rcases hx with rfl | ⟨c, rfl⟩ <;> cases hk
  | _ => trivial

/-- The loop reads a chunk on number 5 and submits it. -/
def readAndSubmit (chunk : List UInt8) : List Action :=
  [.loop 0 (.ready 5), .loop 0 (.data chunk), .call 0] ++ List.replicate 6 (.submit 0 .go)

/-- One worker echoes the first chunk and takes the second one. -/
def inOrder : List Action :=
  [.accept 5] ++ readAndSubmit [65] ++ readAndSubmit [66] ++ List.replicate 4 (.worker 0 .go) ++
    [.task 0 true] ++ List.replicate 6 (.worker 0 .go)

theorem echo_in_order_two :
    ∃ w, Serves orderly (multithreadReactor 1 1) w ∧ sentOn 0 w.host.acts = [[65]] ∧
      sentOn 0 w.host.acts <+: receivedOn 0 w.host.received :=
  have hr : Serves orderly (multithreadReactor 1 1)
      ((exec (guarded orderly (step (multithreadReactor 1 1))) (init (multithreadReactor 1 1))
        inOrder).get rfl) := exec_guarded_get inOrder rfl
  ⟨_, hr, rfl, (echo_in_order hr 0).1⟩

/-- Two workers take the two chunks of a connection, and the second one is sent first. -/
def overtaking : List Action :=
  [.accept 5] ++ readAndSubmit [65] ++ readAndSubmit [66] ++ List.replicate 4 (.worker 0 .go) ++
    List.replicate 4 (.worker 1 .go) ++ [.task 1 true]

/-- Every send has written all its bytes and the connection is open, and what was sent is not a
    prefix of what was received. -/
theorem echo_overtaken : ∃ w, Serves kept (multithreadReactor 2 1) w ∧
    ¬ (sentOn 0 w.host.acts).flatten <+: (receivedOn 0 w.host.received).flatten :=
  ⟨_, exec_guarded_get overtaking rfl, by decide⟩

end CppBackend.PoolServer
