import CppBackend.ReactorServer.Model

/-!
# What one step of the reactor can do

Inversion of the step functions, one constructor for each step, and what a step of the loop does to the descriptors
(`loop_table`).  The parts of a run are a run of the pool (`pool_runs`) and one of the loop (`server_runs`).
-/

set_option autoImplicit false

namespace CppBackend.ReactorServer

open Library.Transition Library.Descriptors Library.Calls ThreadPool PoolServer

/-- The lambda calls `send`, which takes the first bytes, or none. -/
inductive TaskStep (t : Nat) (w : World) (j : Job) : World → Job → Prop where
  | send {data : List UInt8} (hs : j.sent = false) (hd : data <+: j.msg.data) :
      TaskStep t w j { w with sends := w.sends ++ [⟨t, w.server.process.table.conn j.fd, data⟩] }
        { j with sent := true }

theorem task_inv {t : Nat} {w w' : World} {j j' : Job} {accepted : Option Nat}
    (hs : task t w j accepted = some (w', j')) :
    TaskStep t w j w' j' := by
  unfold task at hs
  simp only at hs
  split at hs
  · cases hs
  · rename_i hn
    have hsent : j.sent = false := by simpa using hn
    cases accepted with
    | none => cases hs; exact .send hsent List.nil_prefix
    | some n =>
      simp only at hs
      split at hs <;> cases hs
      exact .send hsent (List.take_prefix _ _)

/-- The steps of the server. -/
inductive Moves (workers : Nat) (w : World) : Action → World → Prop where
  | worker {i : Nat} {ch : Choice} {x : Worker} {p : Pool} (hi : w.pool.threads[i]? = some (.worker x))
      (hx : ∀ t c, x ≠ .run t c) (hp : Pools w.pool i p) : Moves workers w (.worker i ch) { w with pool := p }
  | finish {i t : Nat} {ch : Choice} {p : Pool} (hi : w.pool.threads[i]? = some (.worker (.run t none)))
      (ht : isSent w.jobs t = true) (hp : Pools w.pool i p)
      (he : p = ⟨{ w.pool.shared with finished := w.pool.shared.finished ++ [t] },
        w.pool.threads.set i (.worker .count)⟩) : Moves workers w (.worker i ch) { w with pool := p }
  | task {i t : Nat} {accepted : Option Nat} {j j' : Job} {w' : World}
      (hi : w.pool.threads[i]? = some (.worker (.run t none))) (hj : w.jobs[t]? = some j) (hs : TaskStep t w j w' j') :
      Moves workers w (.task i accepted) { w' with jobs := w.jobs.set t j' }
  | loop {a : SingleReactor.Action} {s : SingleReactor.Server} (hk : w.pool.threads[workers]? = some (.client none))
      (hh : w.hand = none) (hs : SingleReactor.step w.server a = some s) :
      Moves workers w (.loop a) { w with server := s, hand := taken w.server a }
  | call {fd : Nat} {msg : Chunk} {p : Pool} (hk : w.pool.threads[workers]? = some (.client none))
      (hh : w.hand = some (fd, msg)) (hp : Pools w.pool workers p) :
      Moves workers w .call { w with pool := p, jobs := w.jobs ++ [⟨fd, msg, false⟩], hand := none }
  | submit {ch : Choice} {c : ThreadPool.Call} {p : Pool} (hk : w.pool.threads[workers]? = some (.client (some c)))
      (hp : Pools w.pool workers p) : Moves workers w (.submit ch) { w with pool := p }

variable {workers : Nat} {w w' : World} {a : Action}

theorem poolStep_inv {i : Nat} {ch : Choice} (h : w.poolStep i ch = some w') :
    ∃ p, ThreadPool.step threadpoolH w.pool (i, ch) = some p ∧ w' = { w with pool := p } := by
  obtain ⟨p, hp, he⟩ := Option.map_eq_some_iff.mp h
  exact ⟨p, hp, he.symm⟩

/-- **Inversion of a step of the server.** -/
theorem step_inv (h : step workers w a = some w') : Moves workers w a w' := by
  cases a with
  | worker i ch =>
    simp only [step] at h
    split at h
    · rename_i t hi
      split at h
      · rename_i hc
        simp only [Bool.and_eq_true, beq_iff_eq] at hc
        obtain ⟨p, hp, rfl⟩ := poolStep_inv h
        exact .finish hi hc.1 ⟨ch, hp⟩ (finish_eq hi (hc.2 ▸ hp))
      · cases h
    · cases h
    · rename_i x hx hcall hi
      obtain ⟨p, hp, rfl⟩ := poolStep_inv h
      refine .worker hi (fun t c he => ?_) ⟨ch, hp⟩
      cases c with
      | none => exact hx t he
      | some c => exact hcall t c he
    · cases h
  | task i accepted =>
    simp only [step] at h
    split at h
    · rename_i t hi
      split at h
      · cases h
      · rename_i j hj
        obtain ⟨⟨h', j'⟩, hs, he⟩ := Option.map_eq_some_iff.mp h
        cases he
        exact .task hi hj (task_inv hs)
    · cases h
  | loop e =>
    simp only [step] at h
    split at h
    · rename_i hk hh
      obtain ⟨s, hs, he⟩ := Option.map_eq_some_iff.mp h
      cases he
      exact .loop hk hh hs
    · cases h
  | call =>
    simp only [step] at h
    split at h
    · rename_i fd msg hk hh
      obtain ⟨p, hp, rfl⟩ := poolStep_inv h
      exact .call hk hh ⟨_, hp⟩
    · cases h
  | submit ch =>
    simp only [step] at h
    split at h
    · rename_i c hk
      obtain ⟨p, hp, rfl⟩ := poolStep_inv h
      exact .submit hk ⟨ch, hp⟩
    · cases h

/-- The runs of the server. -/
abbrev Serves (ok : World → Action → World → Prop) (workers listenFd epfd : Nat) (acceptor : Library.Storage.Addr)
    (w : World) : Prop :=
  Reach ok (step workers) (init workers listenFd epfd acceptor) w

variable {ok : World → Action → World → Prop} {listenFd epfd : Nat} {acceptor : Library.Storage.Addr}

theorem pool_runs (hr : Serves ok workers listenFd epfd acceptor w) : Runs anyStep threadpoolH workers 1 w.pool := by
  refine Reach.map (f := World.pool) (fun w a w' hs _ => ?_) hr
  cases step_inv hs with
  | @worker i _ _ p _ _ hp | @finish i _ _ p _ _ hp _ =>
    obtain ⟨ch, hp⟩ := hp
    exact Or.inr ⟨(i, ch), hp, trivial⟩
  | call _ _ hp | submit _ hp =>
    obtain ⟨ch, hp⟩ := hp
    exact Or.inr ⟨(workers, ch), hp, trivial⟩
  | task _ _ hts => cases hts; exact Or.inl rfl
  | loop => exact Or.inl rfl

theorem server_runs (hr : Serves ok workers listenFd epfd acceptor w) :
    Reach anyStep SingleReactor.step (SingleReactor.init listenFd epfd acceptor) w.server := by
  refine Reach.map (f := World.server) (fun w a w' hs _ => ?_) hr
  cases step_inv hs with
  | worker | finish | call | submit => exact Or.inl rfl
  | task _ _ hts => cases hts; exact Or.inl rfl
  | loop _ _ hloop => exact Or.inr ⟨_, hloop, trivial⟩

/-! ## What the loop does to the descriptors -/

/-- A step of the loop accepts a number that is free, closes one, or leaves all as they are. -/
theorem loop_table {s s' : SingleReactor.Server} {a : SingleReactor.Action} (h : SingleReactor.step s a = some s') :
    s'.process.table = s.process.table ∨
      (∃ fd, s.process.table.conn fd = none ∧ s'.process.table = s.process.table.accept fd) ∨
      ∃ fd, s'.process.table = s.process.table.close fd := by
  cases a with
  | stop => cases h; exact Or.inl rfl
  | test =>
    simp only [SingleReactor.step] at h
    split at h <;> cases h
    exact Or.inl rfl
  | wait events =>
    simp only [SingleReactor.step] at h
    split at h
    · cases h; exact Or.inl rfl
    · split at h <;> cases h
      exact Or.inl rfl
    · cases h
  | dispatch =>
    simp only [SingleReactor.step] at h
    split at h <;> cases h
    unfold SingleReactor.Server.dispatch
    split <;> exact Or.inl rfl
  | acceptFails =>
    simp only [SingleReactor.step] at h
    split at h <;> cases h
    exact Or.inl rfl
  | accept clientFd b =>
    simp only [SingleReactor.step] at h
    split at h
    · split at h
      · rename_i hfree
        split at h <;> cases h
        simp only [SingleReactor.Server.free, Bool.and_eq_true, Option.isNone_iff_eq_none] at hfree
        exact Or.inr (Or.inl ⟨clientFd, hfree.2, rfl⟩)
      · cases h
    · cases h
  | recv chunk =>
    simp only [SingleReactor.step] at h
    split at h
    · split at h <;> cases h
      unfold SingleReactor.Server.handleRead
      split
      · rename_i fd conn hcell
        simp only
        split
        · unfold SingleReactor.Server.delete
          split
          · exact Or.inl rfl
          · exact Or.inr (Or.inr ⟨fd, rfl⟩)
        · exact Or.inl rfl
      · exact Or.inl rfl
    · cases h

/-- The messages that have been received. -/
def received (ops : List Op) : List Chunk :=
  ops.filterMap fun o => match o.call with
    | .recv chunk => if chunk.length = 0 then none else some ⟨o.conn, chunk⟩
    | _ => none

theorem received_append (ops : List Op) (o : Op) : received (ops ++ [o]) = received ops ++ received [o] :=
  List.filterMap_append

theorem received_recv (chunk : List UInt8) (c : Nat) (hit : Option Nat) :
    received [⟨.recv chunk, c, hit⟩] = if chunk.length = 0 then [] else [⟨c, chunk⟩] := by
  unfold received
  rw [List.filterMap_cons]
  by_cases hlen : chunk.length = 0
  · simp only [if_pos hlen]
    rfl
  · simp only [if_neg hlen]
    rfl

/-- What has been received is the last message in the hands of `HandleRead`. -/
theorem loop_received {s s' : SingleReactor.Server} {a : SingleReactor.Action} (h : SingleReactor.step s a = some s') :
    received s'.process.ops = received s.process.ops ++ (taken s a).toList.map Prod.snd := by
  cases a with
  | stop => cases h; exact (List.append_nil _).symm
  | test | acceptFails =>
    simp only [SingleReactor.step] at h
    split at h <;> cases h
    exact (List.append_nil _).symm
  | wait events =>
    simp only [SingleReactor.step] at h
    split at h
    · cases h; exact (List.append_nil _).symm
    · split at h <;> cases h
      exact (List.append_nil _).symm
    · cases h
  | dispatch =>
    simp only [SingleReactor.step] at h
    split at h <;> cases h
    unfold SingleReactor.Server.dispatch
    split <;> exact (List.append_nil _).symm
  | accept clientFd b =>
    simp only [SingleReactor.step] at h
    split at h
    · split at h
      · split at h <;> cases h
        exact (List.append_nil _).symm
      · cases h
    · cases h
  | recv chunk =>
    simp only [SingleReactor.step] at h
    split at h
    · rename_i this hpc
      split at h <;> cases h
      unfold SingleReactor.Server.handleRead taken
      simp only [hpc]
      cases hcell : s.objects.cell this with
      | none => exact (List.append_nil _).symm
      | some object =>
        cases object with
        | acceptor => exact (List.append_nil _).symm
        | connection fd conn =>
          simp only
          by_cases hlen : chunk.length = 0
          · have hdelete : ∀ t : SingleReactor.Server,
                received (t.delete this fd conn).process.ops = received t.process.ops := by
              intro t
              unfold SingleReactor.Server.delete
              split
              · rfl
              · exact (received_append _ _).trans (List.append_nil _)
            rw [if_pos hlen, if_pos hlen, hdelete]
            refine (received_append _ _).trans ?_
            rw [received_recv, if_pos hlen]
            rfl
          · rw [if_neg hlen, if_neg hlen]
            refine (received_append _ _).trans ?_
            rw [received_recv, if_neg hlen]
            rfl
    · cases h

/-- The number in the hands of `HandleRead` is the one of the connection. -/
theorem taken_conn {s : SingleReactor.Server} {a : SingleReactor.Action} {fd : Nat} {msg : Chunk}
    (h : taken s a = some (fd, msg)) : ∃ this, s.objects.cell this = some (.connection fd msg.conn) := by
  unfold taken at h
  split at h
  · split at h
    · split at h
      · rename_i this _ fd' conn hcell
        split at h <;> cases h
        exact ⟨_, hcell⟩
      · cases h
    · cases h
  · cases h

end CppBackend.ReactorServer
