import CppBackend.PoolServer.Steps

/-!
# The lambda of a task and its place in the pool

A task that the pool counts as finished has returned (`Ended`), so one that has left the queue and has
not returned is in the hands of a worker (`in_hands`).  In the servers whose task begins with
`if(is_running)`, a task that has passed this test has been started (`Begun`).  So when `stop()`
reads `task_count == 0`, each task has not tested `is_running` yet or has returned (`settled_of_zero`).
-/

set_option autoImplicit false

namespace CppBackend.PoolServer

open Library.Transition Library.Threads Library.Tally ThreadPool

/-- A task that has passed the test of `is_running` has been started. -/
def Begun (w : World) : Prop :=
  ∀ t j, w.jobs[t]? = some j → j.pc ≠ .test → t ∈ w.pool.shared.started

/-- A finished task has returned. -/
def Ended (w : World) : Prop := ∀ t ∈ w.pool.shared.finished, isOver w.jobs t = true

variable {v : Server} {w w' : World} {ok : World → Action → World → Prop}

theorem worker_logs {sh sh' : Shared} {x x' : Worker} {sig : Signal Cv}
    (h : WorkerStep threadpoolH sh x sh' x' sig) (hx : ∀ t c, x ≠ .run t c) :
    sh'.finished = sh.finished ∧ ∀ t ∈ sh.started, t ∈ sh'.started := by
  cases h with
  | start => exact ⟨rfl, fun t ht => List.mem_append_left _ ht⟩
  | finish => exact absurd rfl (hx _ _)
  | call => exact absurd rfl (hx _ _)
  | submit => exact absurd rfl (hx _ _)
  | _ => exact ⟨rfl, fun _ ht => ht⟩

theorem afterSend_cases (v : Server) (ok : Bool) : afterSend v ok = .close ∨
    afterSend v ok = .closeLock ∨ afterSend v ok = .unlock ∨ afterSend v ok = .done := by
  unfold afterSend
  split
  · split
    · exact Or.inl rfl
    · exact Or.inr (Or.inl rfl)
  · split
    · exact Or.inr (Or.inr (Or.inl rfl))
    · exact Or.inr (Or.inr (Or.inr rfl))

theorem task_not_isOver {i : Nat} {h h' : Host} {j j' : Job} {ok : Bool}
    (hs : TaskStep v i h j ok h' j') : j.pc.isOver = false := by
  cases hs with
  | pass hpc => rw [hpc]; rfl
  | skip hpc => rw [hpc]; rfl
  | lock hpc => rw [hpc]; rfl
  | send hpc => rw [hpc]; rfl
  | closeLock hpc => rw [hpc]; rfl
  | close hpc => rw [hpc]; rfl
  | unlock hpc => rw [hpc]; rfl

theorem task_running {i : Nat} {h h' : Host} {j j' : Job} {ok : Bool}
    (hs : TaskStep v i h j ok h' j') : h'.isRunning = h.isRunning := by
  cases hs <;> rfl

theorem loop_running {k : Nat} {h h' : Host} {l l' : LoopPc} {e : Event}
    (hs : LoopStep v k h l e h' l') : h'.isRunning = h.isRunning ∧ h'.acts = h.acts := by
  cases hs <;> exact ⟨rfl, rfl⟩

theorem started_of_running (h : Serves ok v w) {t : Nat} {c : Option ThreadPool.Call}
    (hu : Thread.worker (.run t c) ∈ w.pool.threads) : t ∈ w.pool.shared.started := by
  have hl := (pool_ledger t (pool_runs h)).started
  have hrun := tally_ind_pos (p := running t) hu (by simp [running])
  exact List.count_pos_iff.mp (by omega)

theorem isOver_of_get {jobs : List Job} {t : Nat} {j : Job} (hj : jobs[t]? = some j) :
    isOver jobs t = j.pc.isOver := by
  unfold isOver
  rw [hj]

theorem isOver_append {jobs : List Job} {t : Nat} (j : Job) (h : isOver jobs t = true) :
    isOver (jobs ++ [j]) t = true := by
  unfold isOver at h
  split at h
  · cases h
  · rename_i j' hj'
    rw [isOver_of_get (j := j'), h]
    rw [List.getElem?_append_left (List.getElem?_eq_some_iff.mp hj').1, hj']

/-- A job is an old one, or the new one. -/
theorem get_append {jobs : List Job} {j j' : Job} {t : Nat} (h : (jobs ++ [j])[t]? = some j') :
    jobs[t]? = some j' ∨ j' = j := by
  rw [List.getElem?_append] at h
  split at h
  · exact Or.inl h
  · exact Or.inr (List.mem_singleton.mp (List.mem_of_getElem? h))

theorem ended_step {a : Action} (hi : Ended w) (hm : Moves v w a w') : Ended w' := by
  intro t ht
  cases hm with
  | worker hi' hx hp =>
    obtain ⟨x', sig, hw, _⟩ := hp.worker hi'
    exact hi t ((worker_logs hw hx).1 ▸ ht)
  | finish _ hover _ he =>
    rw [he] at ht
    rcases List.mem_append.mp ht with h | h
    · exact hi t h
    · rw [List.mem_singleton.mp h]
      exact hover
  | @task i t' ok j j' h hi' hj hs =>
    have hover := hi t ht
    by_cases het : t' = t
    · subst het
      rw [isOver_of_get hj, task_not_isOver hs] at hover
      cases hover
    · unfold isOver
      rw [List.getElem?_set_ne het]
      exact hover
  | call hk _ hp =>
    obtain ⟨hsh, _⟩ := hp.call hk
    rw [hsh] at ht
    exact isOver_append _ (hi t ht)
  | submit hk hp =>
    obtain ⟨c', sig, hs, _⟩ := hp.submit hk
    exact hi t ((submit_logs hs).2.2 ▸ ht)
  | stop _ hi' hp =>
    obtain ⟨b, hsh⟩ := hp.waiter_shared hi'
    exact hi t (by rwa [hsh] at ht)
  | wait _ hi' hp =>
    obtain ⟨b, hsh⟩ := hp.waiter_shared hi'
    exact hi t (by rwa [hsh] at ht)
  | loop => exact hi t ht
  | accept => exact hi t ht

theorem ended (hr : Serves ok v w) : Ended w :=
  hr.invariant (show Ended (init v) from fun _ ht => (by cases ht)) fun _ _ _ hi hs _ =>
    ended_step hi (step_inv hs)

theorem Begun.same (hi : Begun w) (hj : w'.jobs = w.jobs)
    (hst : ∀ t ∈ w.pool.shared.started, t ∈ w'.pool.shared.started) : Begun w' := by
  intro t j hj' hne
  rw [hj] at hj'
  exact hst t (hi t j hj' hne)

theorem begun_step {a : Action} (hv : v.runTest = true) (hr : Serves ok v w) (hi : Begun w)
    (hm : Moves v w a w') : Begun w' := by
  cases hm with
  | worker hi' hx hp =>
    obtain ⟨x', sig, hw, _⟩ := hp.worker hi'
    exact hi.same rfl (worker_logs hw hx).2
  | finish _ _ _ he =>
    rw [he]
    exact hi
  | @task i t ok j j' h hi' hj hs =>
    intro t' j'' hj'' hne
    by_cases het : t = t'
    · subst het
      exact started_of_running hr (List.mem_of_getElem? hi')
    · rw [List.getElem?_set_ne het] at hj''
      exact hi t' j'' hj'' hne
  | call hk _ hp =>
    obtain ⟨hsh, _⟩ := hp.call hk
    intro t j hj hne
    show t ∈ Shared.started _
    rw [hsh]
    rcases get_append hj with hj | rfl
    · exact hi t j hj hne
    · exact absurd (if_pos hv) hne
  | submit hk hp =>
    obtain ⟨c', sig, hs, _⟩ := hp.submit hk
    exact hi.same rfl fun t ht => (submit_logs hs).2.1 ▸ ht
  | stop _ hi' hp =>
    obtain ⟨b, hsh⟩ := hp.waiter_shared hi'
    exact hi.same rfl fun t ht => hsh ▸ ht
  | wait _ hi' hp =>
    obtain ⟨b, hsh⟩ := hp.waiter_shared hi'
    exact hi.same rfl fun t ht => hsh ▸ ht
  | loop => exact hi.same rfl fun _ ht => ht
  | accept => exact hi.same rfl fun _ ht => ht

theorem begun (hv : v.runTest = true) (hr : Serves ok v w) : Begun w :=
  hr.invariant_of (K := Serves ok v) (fun _ h => h)
    (show Begun (init v) from fun _ _ hj => (by cases hj)) fun _ _ _ hr hi hs _ => begun_step hv hr hi (step_inv hs)

/-- A task that has left the queue and has not returned is in the hands of a worker. -/
theorem in_hands (hr : Serves ok v w) {t : Nat} (ht : t ∈ w.pool.shared.dequeued)
    (hover : isOver w.jobs t = false) :
    ∃ (i : Nat) (x : Worker), w.pool.threads[i]? = some (.worker x) ∧
      (x = .popped t ∨ ∃ c, x = .run t c) := by
  have hl := pool_ledger t (pool_runs hr)
  have hdeq := hl.dequeued
  have hstarted := hl.started
  have hfin : w.pool.shared.finished.count t = 0 := by
    rw [List.count_eq_zero]
    intro hmem
    rw [ended hr t hmem] at hover
    cases hover
  have hpos := List.count_pos_iff.mpr ht
  by_cases hhold : 0 < tally (ind (holding t)) w.pool.threads
  · obtain ⟨u, hu, hp⟩ := exists_of_tally_ind hhold
    obtain ⟨i, hi⟩ := List.mem_iff_getElem?.mp hu
    unfold holding at hp
    split at hp
    · exact ⟨i, _, hi, Or.inl (congrArg Worker.popped (beq_iff_eq.mp hp))⟩
    · cases hp
  · obtain ⟨u, hu, hp⟩ := exists_of_tally_ind
      (show 0 < tally (ind (running t)) w.pool.threads by omega)
    obtain ⟨i, hi⟩ := List.mem_iff_getElem?.mp hu
    unfold running at hp
    split at hp
    · rename_i c
      exact ⟨i, _, hi, Or.inr ⟨c, congrArg (Worker.run · c) (beq_iff_eq.mp hp)⟩⟩
    · cases hp

/-- Each task has not tested `is_running` yet, or has returned. -/
def Settled (w : World) : Prop := ∀ j ∈ w.jobs, j.pc = .test ∨ j.pc.isOver = true

theorem settled_of_zero (hv : v.runTest = true) (hr : Serves ok v w)
    (hb : outstanding w.pool < 2 ^ 32) (hz : w.pool.shared.taskCount = 0) : Settled w := by
  intro j hj
  obtain ⟨t, ht⟩ := List.mem_iff_getElem?.mp hj
  by_cases hpc : j.pc = .test
  · exact Or.inl hpc
  · have hstarted := List.count_pos_iff.mpr (begun hv hr t j ht hpc)
    have hl := (pool_ledger t (pool_runs hr)).dequeued
    have hnn := tally_nonneg (l := w.pool.threads) (ind_nonneg (holding t))
    have hfin := (dequeued_finished (pool_ledger t (pool_runs hr)) (idle_of_zero (pool_runs hr) hb hz).1).2
    have hended := ended hr t (List.count_pos_iff.mp (by omega))
    rw [isOver_of_get ht] at hended
    exact Or.inr hended

end CppBackend.PoolServer
