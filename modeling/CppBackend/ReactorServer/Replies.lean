import CppBackend.ReactorServer.Steps
import CppBackend.PoolServer.Tasks
import CppBackend.Library.Slots

/-!
# Whom the answers reach

A lambda captures the number of its connection, not the object.  The handler may delete the object before the lambda
calls `send`, and the number may be handed out again: so an answer reaches the connection of its message or, when
that has been closed, nobody or a connection that has been accepted later (`Answers`).  When the pool has
counted down to zero, each message that has been submitted has been answered once (`echo_replies`).
-/

set_option autoImplicit false

namespace CppBackend.ReactorServer

open Library.Transition Library.Descriptors Library.Threads Library.Tally Library.Slots ThreadPool PoolServer

/-- Each answer is one to its message, and reaches the connection of the message or a later one. -/
structure Answers (t : Table) (jobs : List Job) (hand : Option (Nat × Chunk)) (sends : List Send) : Prop where
  sent : ∀ i, (sends.map Send.task).count i = if isSent jobs i then 1 else 0
  waiting : ∀ j ∈ jobs, j.sent = false → OrLater t (t.conn j.fd) j.msg.conn
  hand : ∀ fd msg, hand = some (fd, msg) → OrLater t (t.conn fd) msg.conn
  sends : ∀ a ∈ sends, ∃ j, jobs[a.task]? = some j ∧ a.data <+: j.msg.data ∧ OrLater t a.hit j.msg.conn

variable {workers listenFd epfd : Nat} {acceptor : Library.Storage.Addr} {w w' : World} {a : Action} {t t' : Table}
  {jobs : List Job} {hand : Option (Nat × Chunk)} {sends : List Send}

theorem isSent_set {i : Nat} {j j' : Job} (hj : jobs[i]? = some j) (u : Nat) :
    isSent (jobs.set i j') u = if u = i then j'.sent else isSent jobs u := by
  unfold isSent
  by_cases hu : u = i
  · subst hu
    rw [List.getElem?_set_self (List.getElem?_eq_some_iff.mp hj).1, if_pos rfl]
  · rw [List.getElem?_set_ne (Ne.symm hu), if_neg hu]

theorem isSent_append {j : Job} (hj : j.sent = false) (u : Nat) : isSent (jobs ++ [j]) u = isSent jobs u := by
  unfold isSent
  by_cases hu : u < jobs.length
  · rw [List.getElem?_append_left hu]
  · rw [List.getElem?_append_right (Nat.le_of_not_lt hu), List.getElem?_eq_none (Nat.le_of_not_lt hu)]
    cases hk : [j][u - jobs.length]? with
    | none => rfl
    | some j' =>
      rw [List.mem_singleton.mp (List.mem_of_getElem? hk)]
      exact hj

/-- The task `i` calls `send`. -/
theorem Answers.task {i : Nat} {j : Job} {data : List UInt8} (hi : Answers t jobs hand sends) (hj : jobs[i]? = some j)
    (hsent : j.sent = false) (hd : data <+: j.msg.data) :
    Answers t (jobs.set i { j with sent := true }) hand (sends ++ [⟨i, t.conn j.fd, data⟩]) := by
  have hnot : isSent jobs i = false := by
    unfold isSent
    rw [hj]
    exact hsent
  refine ⟨fun u => ?_, fun k hk hks => ?_, hi.hand, fun a ha => ?_⟩
  · rw [List.map_append, List.count_append, hi.sent u, isSent_set hj]
    by_cases hu : u = i
    · subst hu
      simp [hnot]
    · simp [hu, Ne.symm hu]
  · rcases List.mem_or_eq_of_mem_set hk with hold | rfl
    · exact hi.waiting k hold hks
    · cases hks
  · have hold : ∃ k, jobs[a.task]? = some k ∧ a.data <+: k.msg.data ∧ OrLater t a.hit k.msg.conn := by
      rcases List.mem_append.mp ha with ha | ha
      · exact hi.sends a ha
      · rw [List.mem_singleton.mp ha]
        exact ⟨j, hj, hd, hi.waiting j (List.mem_of_getElem? hj) hsent⟩
    obtain ⟨k, hk, hrest⟩ := hold
    by_cases hta : i = a.task
    · subst hta
      rw [hj, Option.some.injEq] at hk
      subst hk
      exact ⟨_, List.getElem?_set_self (List.getElem?_eq_some_iff.mp hj).1, hrest⟩
    · exact ⟨k, by rw [List.getElem?_set_ne hta, hk], hrest⟩

/-- The loop changes the descriptors, in a way that keeps what numbers may refer to. -/
theorem Answers.moved (hi : Answers t jobs none sends)
    (hh : ∀ fd msg, hand = some (fd, msg) → OrLater t' (t'.conn fd) msg.conn)
    (hnow : ∀ fd c, OrLater t (t.conn fd) c → OrLater t' (t'.conn fd) c)
    (hthen : ∀ hit c, OrLater t hit c → OrLater t' hit c) : Answers t' jobs hand sends where
  sent := hi.sent
  waiting j hj hjs := hnow _ _ (hi.waiting j hj hjs)
  hand := hh
  sends a hm := by
    obtain ⟨j, hj, hd, hhit⟩ := hi.sends a hm
    exact ⟨j, hj, hd, hthen _ _ hhit⟩

theorem answers_loop {s s' : SingleReactor.Server} {a : SingleReactor.Action}
    (hi : Answers s.process.table jobs none sends)
    (hinv : SingleReactor.Inv s) (hs : SingleReactor.step s a = some s') :
    Answers s'.process.table jobs (taken s a) sends := by
  have hnow : ∀ fd c, OrLater s.process.table (s.process.table.conn fd) c →
      OrLater s'.process.table (s'.process.table.conn fd) c := by
    intro fd c ho
    rcases loop_table hs with ht | ⟨f, hfree, ht⟩ | ⟨f, ht⟩ <;> rw [ht]
    · exact ho
    · exact orLater_accept ho hfree
    · exact orLater_close ho
  refine hi.moved (fun fd msg ht => hnow fd _ ?_) hnow fun hit c ho => ?_
  · obtain ⟨this, hcell⟩ := taken_conn ht
    exact Or.inl (hinv.live this fd msg.conn hcell).1
  · rcases loop_table hs with ht | ⟨f, hfree, ht⟩ | ⟨f, ht⟩ <;> rw [ht]
    · exact ho
    · exact ho.accept f
    · exact ho.close f

variable {ok : World → Action → World → Prop}

theorem answers_run (hr : Serves ok workers listenFd epfd acceptor w) :
    Answers w.server.process.table w.jobs w.hand w.sends := by
  refine hr.invariant_of (K := Serves ok workers listenFd epfd acceptor)
    (I := fun w => Answers w.server.process.table w.jobs w.hand w.sends) (fun _ h => h) ?_ fun w a w' hr hi hs _ => ?_
  · refine ⟨fun i => by simp [isSent, init], fun _ hj => ?_, fun _ _ he => ?_, fun _ ha => ?_⟩
    · cases hj
    · cases he
    · cases ha
  · cases step_inv hs with
    | worker | finish | submit => exact hi
    | task _ hj hts =>
      cases hts with
      | send hsent hd => exact hi.task hj hsent hd
    | loop _ hh hloop =>
      rw [hh] at hi
      exact answers_loop hi (SingleReactor.reach_inv (server_runs hr)) hloop
    | @call fd msg p hk hh hp =>
      refine ⟨fun i => ?_, fun j hj hjs => ?_, fun _ _ he => (by cases he), fun a ha => ?_⟩
      · show _ = if isSent (w.jobs ++ [⟨fd, msg, false⟩]) i then 1 else 0
        rw [isSent_append rfl, hi.sent i]
      · rcases List.mem_append.mp hj with hold | hnew
        · exact hi.waiting j hold hjs
        · rw [List.mem_singleton.mp hnew]
          exact hi.hand fd msg hh
      · obtain ⟨j, hj, hrest⟩ := hi.sends a ha
        exact ⟨j, by rw [List.getElem?_append_left (List.getElem?_eq_some_iff.mp hj).1, hj], hrest⟩

/-- Messages are submitted in the order in which they have been received. -/
theorem received_run (hr : Serves ok workers listenFd epfd acceptor w) :
    received w.server.process.ops = w.jobs.map Job.msg ++ w.hand.toList.map Prod.snd := by
  refine hr.invariant
    (I := fun w => received w.server.process.ops = w.jobs.map Job.msg ++ w.hand.toList.map Prod.snd) rfl
    fun w a w' hi hs _ => ?_
  cases step_inv hs with
  | worker | finish | submit => exact hi
  | @task i t accepted j j' w'' _ hj hts =>
    cases hts with
    | send =>
      have hmsgs : (w.jobs.set t { j with sent := true }).map Job.msg = w.jobs.map Job.msg := by
        rw [List.map_set, set_eq_of_get (by rw [List.getElem?_map, hj]; rfl)]
      exact hi.trans (congrArg (· ++ _) hmsgs.symm)
  | loop _ hh hloop =>
    rw [hh] at hi
    rw [loop_received hloop, hi]
    simp
  | @call fd msg p hk hh hp =>
    rw [hh] at hi
    show received w.server.process.ops = (w.jobs ++ [(⟨fd, msg, false⟩ : Job)]).map Job.msg ++ []
    rw [hi]
    simp

/-! ## The pool of the server -/

/-- Only the thread of the loop submits. -/
theorem client_index {p : Pool} {k : Nat} {c : Option ThreadPool.Call} (hp : Runs anyStep threadpoolH workers 1 p)
    (hk : p.threads[k]? = some (.client c)) : k = workers := by
  have hrole : (p.threads.map role)[k]? = some .client := by
    rw [List.getElem?_map, hk]
    rfl
  rw [pool_roles hp] at hrole
  simp only [ThreadPool.init, List.map_append, List.map_replicate, List.append_assoc] at hrole
  rcases Nat.lt_trichotomy k workers with hlt | heq | hgt
  · rw [List.getElem?_append_left (by simpa using hlt)] at hrole
    have hmem := List.mem_of_getElem? hrole
    simp [role] at hmem
  · exact heq
  · obtain ⟨d, rfl⟩ := Nat.exists_eq_add_of_lt hgt
    rw [List.getElem?_append_right (by simp; omega)] at hrole
    simp only [List.length_replicate, show workers + d + 1 - workers = d + 1 by omega] at hrole
    cases d with
    | zero => cases hrole
    | succ d => cases d <;> cases hrole

/-- What holds of the pool because the lambdas do not submit and nobody destroys it. -/
structure Serving (w : World) : Prop where
  stop : w.pool.shared.stop = false
  rejected : w.pool.shared.rejected = []
  jobs : w.jobs.length = w.pool.shared.next
  ended : ∀ t ∈ w.pool.shared.finished, isSent w.jobs t = true
  calls : ∀ t c, Thread.worker (.run t (some c)) ∉ w.pool.threads

theorem worker_serving {sh sh' : Shared} {x x' : Worker} {sig : Signal Cv}
    (h : WorkerStep threadpoolH sh x sh' x' sig) (hx : ∀ t c, x ≠ .run t c) :
    sh'.rejected = sh.rejected ∧ ∀ t c, x' ≠ .run t (some c) := by
  cases h with
  | finish => exact absurd rfl (hx _ _)
  | call => exact absurd rfl (hx _ _)
  | submit => exact absurd rfl (hx _ _)
  | _ => simp

/-- A step of a thread that runs no lambda. -/
theorem calls_step {p p' : Pool} {i : Nat} {u : Thread} (hc : ∀ t c, Thread.worker (.run t (some c)) ∉ p.threads)
    (hi : p.threads[i]? = some u) (hu : ∀ t c, u ≠ .worker (.run t c)) (hp : Pools p i p') :
    ∀ t c, Thread.worker (.run t (some c)) ∉ p'.threads := by
  obtain ⟨ch, hs⟩ := hp
  have heach : Each (fun _ x => ∀ t c, x ≠ .worker (.run t (some c))) p' := by
    refine ThreadPool.each_step (ThreadPool.step_inv hs) ?_ ?_ (fun _ _ => by simp) (fun _ _ => by simp)
    · intro x sh' x' sig hx hst
      rw [hi, Option.some.injEq] at hx
      subst hx
      cases hst with
      | worker hw =>
        intro t c he
        cases he
        exact (worker_serving hw fun t c he => hu t c (by rw [he])).2 _ _ rfl
      | call | submit | dtor | waiter => simp
    · intro x sh' x' sig j y _ _ _ hy t c he
      exact hc t c (he ▸ List.mem_of_getElem? hy)
  exact fun t c hmem => Each.mem heach hmem t c rfl

theorem Serving.same (hi : Serving w) (hstop : w'.pool.shared.stop = w.pool.shared.stop)
    (hrej : w'.pool.shared.rejected = w.pool.shared.rejected) (hnext : w'.pool.shared.next = w.pool.shared.next)
    (hfin : w'.pool.shared.finished = w.pool.shared.finished) (hj : w'.jobs = w.jobs)
    (hc : ∀ t c, Thread.worker (.run t (some c)) ∉ w'.pool.threads) : Serving w' := by
  refine ⟨hstop.trans hi.stop, hrej.trans hi.rejected, ?_, fun t ht => ?_, hc⟩
  · rw [hnext, hj]
    exact hi.jobs
  · rw [hfin] at ht
    rw [hj]
    exact hi.ended t ht

theorem serving_step (hi : Serving w) (hm : Moves workers w a w') : Serving w' := by
  cases hm with
  | worker hk hx hp =>
    obtain ⟨x', sig, hw, -⟩ := hp.worker hk
    obtain ⟨hstop, hnext, -⟩ := worker_next hw hx
    exact hi.same hstop (worker_serving hw hx).1 hnext (worker_logs hw hx).1 rfl
      (calls_step hi.calls hk (fun t c he => hx t c (by simpa using he)) hp)
  | @finish i t ch p hk ht hp he =>
    subst he
    refine ⟨hi.stop, hi.rejected, hi.jobs, fun u hu => ?_, fun u c hmem => ?_⟩
    · rcases List.mem_append.mp hu with hu | hu
      · exact hi.ended u hu
      · rw [List.mem_singleton.mp hu]
        exact ht
    · rcases List.mem_or_eq_of_mem_set hmem with hold | hnew
      · exact hi.calls u c hold
      · cases hnew
  | @task i t accepted j j' w'' hk hj hs =>
    cases hs with
    | send hsent hd =>
      refine ⟨hi.stop, hi.rejected, (List.length_set ..).trans hi.jobs, fun u hu => ?_, hi.calls⟩
      show isSent (w.jobs.set t { j with sent := true }) u = true
      rw [isSent_set hj, hi.ended u hu]
      split <;> rfl
  | loop => exact hi.same rfl rfl rfl rfl rfl hi.calls
  | @call fd msg p hk hh hp =>
    obtain ⟨hsh, -⟩ := hp.call hk
    have hcalls := calls_step hi.calls hk (by simp) hp
    refine ⟨?_, ?_, ?_, fun u hu => ?_, hcalls⟩
    · rw [hsh]
      exact hi.stop
    · rw [hsh]
      exact hi.rejected
    · rw [hsh, List.length_append, hi.jobs]
      rfl
    · rw [hsh] at hu
      exact (isSent_append rfl u).trans (hi.ended u hu)
  | @submit ch c p hk hp =>
    obtain ⟨c', sig, hs, -⟩ := hp.submit hk
    have hsame : p.shared.stop = w.pool.shared.stop ∧ p.shared.next = w.pool.shared.next ∧
        p.shared.rejected = w.pool.shared.rejected := by
      have hstop := hi.stop
      generalize p.shared = sh' at hs
      cases hs with
      | reject hst =>
        rw [hstop] at hst
        cases hst
      | _ => exact ⟨rfl, rfl, rfl⟩
    exact hi.same hsame.1 hsame.2.2 hsame.2.1 (submit_logs hs).2.2 rfl (calls_step hi.calls hk (by simp) hp)

theorem serving (hr : Serves ok workers listenFd epfd acceptor w) : Serving w := by
  refine hr.invariant ⟨rfl, rfl, rfl, fun _ ht => (by cases ht), fun t c hmem => ?_⟩ fun _ _ _ hi hs _ =>
    serving_step hi (step_inv hs)
  rcases init_threads hmem with h | h | h | h <;> cases h

/-- While the loop is in its own code, nobody is in `submit`. -/
theorem not_inSubmit (hr : Serves ok workers listenFd epfd acceptor w)
    (hk : w.pool.threads[workers]? = some (.client none)) (p : ThreadPool.Call → Bool) :
    ∀ u ∈ w.pool.threads, inSubmit p u = false := by
  intro u hu
  cases u with
  | worker x =>
    cases x with
    | run t c =>
      cases c with
      | none => rfl
      | some c => exact absurd hu ((serving hr).calls t c)
    | top | pred | doze | sleep | woken | check | popped | count | read | endLock | endNotify | endUnlock | leave
    | exited => rfl
  | client c =>
    cases c with
    | none => rfl
    | some c =>
      obtain ⟨k, hget⟩ := List.mem_iff_getElem?.mp hu
      have heq := client_index (pool_runs hr) hget
      rw [heq, show w.pool.threads[workers]? = some (.client none) from hk] at hget
      cases hget
  | dtor | waiter => rfl

/-- **The answers of the server.**  Each is a beginning of its message, no message is answered twice, and an answer
    reaches the connection of its message or, once that is closed, nobody or a later one.  When the pool is at
    zero and the loop is not in `submit`, every message that has been submitted has been answered. -/
theorem echo_replies (workers listenFd epfd : Nat) (acceptor : Library.Storage.Addr) (w : World)
    (hr : Serves anyStep workers listenFd epfd acceptor w) :
    (∀ a ∈ w.sends, ∃ j, w.jobs[a.task]? = some j ∧ a.data <+: j.msg.data ∧
      OrLater w.server.process.table a.hit j.msg.conn) ∧
    (w.sends.map Send.task).Nodup ∧
    received w.server.process.ops = w.jobs.map Job.msg ++ w.hand.toList.map Prod.snd ∧
    (w.pool.threads[workers]? = some (.client none) → outstanding w.pool < 2 ^ 32 → w.pool.shared.taskCount = 0 →
      ∀ t < w.jobs.length, t ∈ w.sends.map Send.task) := by
  have hans := answers_run hr
  refine ⟨hans.sends, List.nodup_iff_count_le_one.mpr fun t => ?_, received_run hr, fun hk hb hz t ht => ?_⟩
  · rw [hans.sent t]
    split <;> omega
  · have hserve := serving hr
    have hpool := pool_runs hr
    have hsub := (pool_ledger t hpool).submitted
    have hnone : tally (ind (pending t)) w.pool.threads = 0 :=
      tally_eq_zero fun u hu => ind_of_false (not_inSubmit hr hk (Call.pending t) u hu)
    rw [hserve.rejected, hnone, if_pos (hserve.jobs ▸ ht)] at hsub
    have hacc : t ∈ w.pool.shared.accepted := List.count_pos_iff.mp (by simp at hsub; omega)
    have hsection : w.pool.threads.countP inSection = 0 :=
      List.countP_eq_zero.mpr fun u hu => by simp [inSection, not_inSubmit hr hk _ u hu]
    have hfin := finished_of_zero hpool hb hsection hz t hacc
    have hsent := hserve.ended t (List.count_pos_iff.mp (by omega))
    refine List.count_pos_iff.mp ?_
    rw [hans.sent t, if_pos hsent]
    exact Nat.one_pos

/-- A message on number 5 is submitted; the client leaves, the next one gets number 5 and the same address, and only
    then the worker executes the lambda. -/
def late : List Action :=
  ([.test, .wait (some [⟨3, 100, ⟨true, false, false⟩, some (.acceptor 3)⟩]), .dispatch, .accept 5 200, .acceptFails,
    .dispatch, .test, .wait (some [⟨5, 200, ⟨true, false, false⟩, some (.connection 5 0)⟩]), .dispatch,
    .recv [65]].map .loop) ++ .call :: List.replicate 6 (.submit .go) ++
    ([.dispatch, .test, .wait (some [⟨5, 200, ⟨true, false, true⟩, some (.connection 5 0)⟩,
        ⟨3, 100, ⟨true, false, false⟩, some (.acceptor 3)⟩]), .dispatch, .recv [], .dispatch, .accept 5 200,
      .acceptFails].map .loop) ++ List.replicate 4 (.worker 0 .go) ++ [.task 0 (some 1)]

theorem echo_replies_late :
    let w := (exec (step 1) (init 1 3 4 100) late).get (by rfl)
    (∀ a ∈ w.sends, ∃ j, w.jobs[a.task]? = some j ∧ a.data <+: j.msg.data ∧
      OrLater w.server.process.table a.hit j.msg.conn) ∧
    (w.sends.map Send.task).Nodup ∧
    received w.server.process.ops = w.jobs.map Job.msg ++ w.hand.toList.map Prod.snd ∧
    (w.pool.threads[1]? = some (.client none) → outstanding w.pool < 2 ^ 32 → w.pool.shared.taskCount = 0 →
      ∀ t < w.jobs.length, t ∈ w.sends.map Send.task) :=
  echo_replies 1 3 4 100 _ (exec_reach_get late rfl)

/-- The answer has reached the other client. -/
example : ((exec (step 1) (init 1 3 4 100) late).map fun w => w.sends) = some [⟨0, some 1, [65]⟩] := rfl

end CppBackend.ReactorServer
