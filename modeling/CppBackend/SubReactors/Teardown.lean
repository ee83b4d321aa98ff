import CppBackend.SubReactors.Buffer

/-!
# The end of the pool

`stop()` clears a flag, and a thread that is in `epoll_wait` does not look at it.  If no descriptor is
registered with its loop at this moment, none will ever be, and the thread stays there (`Doomed`); otherwise it
can still leave (`canLeave_of_stopped`).  Before that, a thread may be `Lost`: it has read where the buffer of
`__sub_reactors` is, and `init` moves the vector before the thread reads its element.

So every thread can leave, and the destructor comes to its end, if and only if no `emplace_back` that moves the
vector and no `stop()` comes at the wrong moment (`Careful`).  This is up to the threads: after a failed `init`
there is no connection, and every thread that has entered `epoll_wait` is blocked.
-/

set_option autoImplicit false

namespace CppBackend.SubReactors

open Library.Transition

/-- In `epoll_wait`, with no registered descriptor that could end it. -/
def Blocked (r : Reactor) : Prop := r.pc = .wait ∧ r.interest = ∅

/-- The destructor waits in `join` for a thread that is blocked. -/
def Hangs (s : Pool) : Prop := ∃ i, s.pc = .join i ∧ i < s.size ∧ Blocked (s.reactor i)

/-- Some continuation takes the thread `i` out of `loop()`. -/
def CanLeave (s : Pool) (i : Nat) : Prop := ∃ t, Reach anyStep step s t ∧ (t.reactor i).pc = .left

/-- No thread reads in a freed buffer, the destructor does not hang, and every thread can leave once `stop()` has
been called on its loop. -/
structure Proper (s : Pool) : Prop where
  reads : ¬ ∃ i, Lost s i
  joins : ¬ Hangs s
  leaves : ∀ i < s.stopped, CanLeave s i

/-- `stop()` finds the thread not blocked. -/
def Noticed (s : Pool) (a : Action) : Prop :=
  match s.pc, a with
  | .stop i, .stop => i < s.size → ¬ Blocked (s.reactor i)
  | _, _ => True

def Careful (s : Pool) (a : Action) (_ : Pool) : Prop := InPlace s a ∧ Noticed s a

variable {s s' : Pool} {a : Action} {n : Int} {i : Nat}

/-! ## A thread that is blocked -/

theorem Turn.not_blocked {buffer : Nat} {r r' : Reactor} (h : Turn buffer i r a r') : ¬ Blocked r := by
  rintro ⟨hwait, hempty⟩
  cases h with
  | fetch hpc | index hpc | astray hpc | test hpc | handled hpc | handle hpc => simp [hwait] at hpc
  | @wake batch _ hne hready =>
    obtain ⟨fd, hfd⟩ := List.exists_mem_of_ne_nil batch hne
    simpa [hempty] using hready fd hfd

/-- With the flag cleared, no thread enters `epoll_wait`. -/
theorem Turn.awake {buffer : Nat} {r r' : Reactor} (h : Turn buffer i r a r') (hrun : r.isRunning = false) :
    ¬ Blocked r' := by
  rintro ⟨hwait, -⟩
  cases h with
  | test => simp [hrun] at hwait
  | fetch | index | astray | wake | handled | handle => simp at hwait

/-- The sub-reactors on which `stop()` has been called: those of before, and the one in hand. -/
theorem lt_stopped_iff (hi : Inv s) (h : step s a = some s') :
    i < s'.stopped ↔ i < s.stopped ∨ (s.pc = .stop i ∧ a = .stop ∧ i < s.size) := by
  have hbound := hi.bound
  cases step_inv h with
  | create hpc => simp [Pool.stopped, hpc]
  | createFails hpc => simp [Pool.stopped, hpc]
  | start hpc hnext => rcases hnext with rfl | rfl <;> simp [Pool.stopped, hpc]
  | @accept fd ok hpc => simp [Pool.stopped, hpc, (accept_same s fd ok).2.1]
  | destroy hpc => simp [Pool.stopped, hpc]
  | @stop j hpc hlt =>
    simp only [Pool.stopped, hpc, OwnerPc.stop.injEq, true_and]
    omega
  | @stopped j hpc hle =>
    simp only [Pool.stopped, hpc, OwnerPc.stop.injEq, true_and] at hbound ⊢
    omega
  | join hpc => simp [Pool.stopped, hpc]
  | joined hpc => simp [Pool.stopped, hpc]
  | @thread j _ r hlt ht =>
    have hstopped : (s.set j r).stopped = s.stopped := rfl
    rw [hstopped]
    refine ⟨Or.inl, fun h => h.resolve_right ?_⟩
    rintro ⟨-, rfl, -⟩
    cases ht

/-- Once the flag is cleared, or being cleared, a thread is blocked if it was. -/
theorem blocked_iff (hi : Inv s) (h : step s a = some s') (hstop : i < s'.stopped) :
    Blocked (s'.reactor i) ↔ Blocked (s.reactor i) := by
  have hold := (lt_stopped_iff hi h).mp hstop
  cases step_inv h with
  | create hpc | createFails hpc | start hpc | accept hpc | destroy hpc => simp [Pool.stopped, hpc] at hold
  | @stop j =>
    by_cases hij : i = j
    · subst hij
      simp [Blocked]
    · simp [set_of_ne hij]
  | stopped | join | joined => exact Iff.rfl
  | @thread j _ r hlt ht =>
    by_cases hij : i = j
    · subst hij
      have hflag : (s.reactor i).isRunning = false := by
        refine hi.flags i (hold.resolve_right ?_)
        rintro ⟨-, rfl, -⟩
        cases ht
      rw [set_self]
      exact ⟨fun hb => absurd hb (ht.awake hflag), fun hb => absurd hb ht.not_blocked⟩
    · simp [set_of_ne hij]

/-- `stop()` has been called on a loop whose thread is blocked. -/
def Doomed (s : Pool) (i : Nat) : Prop := i < s.stopped ∧ Blocked (s.reactor i)

/-- A thread is doomed if it was, or by a `stop()` that finds it blocked. -/
theorem doomed_iff (hi : Inv s) (h : step s a = some s') :
    (∃ i, Doomed s' i) ↔ (∃ i, Doomed s i) ∨ ¬ Noticed s a := by
  have hcareless : ¬ Noticed s a ↔ ∃ i, s.pc = .stop i ∧ a = .stop ∧ i < s.size ∧ Blocked (s.reactor i) := by
    unfold Noticed
    split
    · rename_i i hpc
      simp [hpc]
    · rename_i hne
      refine ⟨fun hn => absurd trivial hn, ?_⟩
      rintro ⟨i, hpc, ha, -⟩
      exact absurd ha (hne i hpc)
  rw [hcareless]
  constructor
  · rintro ⟨i, hlt, hb⟩
    have hb' := (blocked_iff hi h hlt).mp hb
    rcases (lt_stopped_iff hi h).mp hlt with hlt | ⟨hpc, ha, hlt⟩
    · exact Or.inl ⟨i, hlt, hb'⟩
    · exact Or.inr ⟨i, hpc, ha, hlt, hb'⟩
  · rintro (⟨i, hlt, hb⟩ | ⟨i, hpc, ha, hlt, hb⟩)
    · have hlt' := (lt_stopped_iff hi h).mpr (Or.inl hlt)
      exact ⟨i, hlt', (blocked_iff hi h hlt').mpr hb⟩
    · have hlt' := (lt_stopped_iff hi h).mpr (Or.inr ⟨hpc, ha, hlt⟩)
      exact ⟨i, hlt', (blocked_iff hi h hlt').mpr hb⟩

/-! ## A thread that can leave -/

theorem CanLeave.of_step (h : step s a = some s') (hl : CanLeave s' i) : CanLeave s i := by
  obtain ⟨t, hr, hpc⟩ := hl
  exact ⟨t, (Reach.refl.tail h trivial).trans hr, hpc⟩

theorem leave_of_top (hlt : i < s.size) (hrun : (s.reactor i).isRunning = false)
    (hpc : (s.reactor i).pc = .top) : CanLeave s i := by
  have hstep : step s (.test i) = some (s.set i { s.reactor i with pc := .left }) := by
    simp [step, Pool.thread, hlt, Reactor.test, hpc, hrun]
  exact ⟨_, Reach.refl.tail hstep trivial, by simp⟩

/-- The rest of the events is handled first. -/
theorem leave_of_handle (batch : List Nat) (hlt : i < s.size) (hrun : (s.reactor i).isRunning = false)
    (hpc : (s.reactor i).pc = .handle batch) : CanLeave s i := by
  induction batch generalizing s with
  | nil =>
    have hstep : step s (.handle i false) = some (s.set i { s.reactor i with pc := .top }) := by
      simp [step, Pool.thread, hlt, Reactor.handle, hpc]
    exact .of_step hstep (leave_of_top hlt (by simpa using hrun) (by simp))
  | cons fd batch ih =>
    have hstep : step s (.handle i false) = some (s.set i { s.reactor i with pc := .handle batch }) := by
      simp [step, Pool.thread, hlt, Reactor.handle, hpc]
    exact .of_step hstep (ih hlt (by simpa using hrun) (by simp))

/-- One of the registered descriptors becomes ready. -/
theorem leave_of_wait (hlt : i < s.size) (hrun : (s.reactor i).isRunning = false)
    (hpc : (s.reactor i).pc = .wait) (hne : (s.reactor i).interest ≠ ∅) : CanLeave s i := by
  obtain ⟨fd, hfd⟩ := Finset.nonempty_iff_ne_empty.mpr hne
  have hstep : step s (.wake i [fd]) = some (s.set i { s.reactor i with pc := .handle [fd] }) := by
    simp [step, Pool.thread, hlt, Reactor.wake, hpc, hfd]
  exact .of_step hstep (leave_of_handle [fd] hlt (by simpa using hrun) (by simp))

theorem leave_of_index (hlt : i < s.size) (hrun : (s.reactor i).isRunning = false)
    (hpc : (s.reactor i).pc = .index s.buffer) : CanLeave s i := by
  have hstep : step s (.index i) = some (s.set i { s.reactor i with pc := .top }) := by
    simp [step, Pool.thread, hlt, Reactor.index, hpc]
  exact .of_step hstep (leave_of_top hlt (by simpa using hrun) (by simp))

/-- The destructor does not move the vector. -/
theorem leave_of_lambda (hlt : i < s.size) (hrun : (s.reactor i).isRunning = false)
    (hpc : (s.reactor i).pc = .lambda) : CanLeave s i := by
  have hstep : step s (.fetch i) = some (s.set i { s.reactor i with pc := .index s.buffer }) := by
    simp [step, Pool.thread, hlt, Reactor.fetch, hpc]
  exact .of_step hstep (leave_of_index hlt (by simpa using hrun) (by simp))

theorem canLeave_of_stopped (hi : Inv s) (hstop : i < s.stopped) (hl : ¬ Lost s i) (hb : ¬ Blocked (s.reactor i)) :
    CanLeave s i := by
  have hlt : i < s.size := Nat.lt_of_lt_of_le hstop hi.bound
  have hrun := hi.flags i hstop
  cases hpc : (s.reactor i).pc with
  | unstarted =>
    have hstart := ((hi.started i hlt).mp hpc).1
    simp [Pool.stopped, hstart] at hstop
  | lambda => exact leave_of_lambda hlt hrun hpc
  | index b =>
    by_cases hb : b = s.buffer
    · exact leave_of_index hlt hrun (hb ▸ hpc)
    · exact absurd ⟨hlt, Or.inr ⟨b, hpc, hb⟩⟩ hl
  | astray => exact absurd ⟨hlt, Or.inl hpc⟩ hl
  | top => exact leave_of_top hlt hrun hpc
  | wait => exact leave_of_wait hlt hrun hpc fun hempty => hb ⟨hpc, hempty⟩
  | handle batch => exact leave_of_handle batch hlt hrun hpc
  | left => exact ⟨s, Reach.refl, hpc⟩

/-! ## Teardown -/

theorem doomed_step (hi : Inv s) (hd : Doomed s i) (h : step s a = some s') : Doomed s' i := by
  have hlt := (lt_stopped_iff hi h).mpr (Or.inl hd.1)
  exact ⟨hlt, (blocked_iff hi h hlt).mpr hd.2⟩

theorem not_canLeave_of_doomed (hr : Reach anyStep step (init n) s) (hd : Doomed s i) : ¬ CanLeave s i := by
  rintro ⟨t, ht, hleft⟩
  have hdt : Doomed t i := ht.keeps hr (fun _ _ _ hr hd h _ => doomed_step (reach_inv hr) hd h) hd
  rw [hdt.2.1] at hleft
  cases hleft

/-- A thread is lost or doomed. -/
def Bad (s : Pool) : Prop := (∃ i, Lost s i) ∨ ∃ i, Doomed s i

theorem proper_iff (hr : Reach anyStep step (init n) s) : Proper s ↔ ¬ Bad s := by
  constructor
  · rintro hp (hl | ⟨i, hd⟩)
    · exact hp.reads hl
    · exact not_canLeave_of_doomed hr hd (hp.leaves i hd.1)
  · intro hn
    refine ⟨fun hl => hn (Or.inl hl), ?_, fun i hlt => ?_⟩
    · rintro ⟨i, hpc, hlt, hb⟩
      have hstopped : s.stopped = s.size := by simp [Pool.stopped, hpc]
      exact hn (Or.inr ⟨i, hstopped ▸ hlt, hb⟩)
    · exact canLeave_of_stopped (reach_inv hr) hlt (fun hl => hn (Or.inl ⟨i, hl⟩))
        fun hb => hn (Or.inr ⟨i, hlt, hb⟩)

theorem bad_iff (hr : Reach anyStep step (init n) s) (h : step s a = some s') :
    Bad s' ↔ Bad s ∨ ¬ Careful s a s' := by
  have hl := lost_iff (reach_inv hr) (reach_past hr) h
  have hd := doomed_iff (reach_inv hr) h
  unfold Bad Careful
  rw [hl, hd, not_and_or]
  tauto

theorem reach_not_bad (hr : Reach Careful step (init n) s) : ¬ Bad s := by
  refine hr.invariant_of (I := fun s => ¬ Bad s) (fun s hr => hr.any) ?_ fun s a s' hr hn h hc => ?_
  · rintro (⟨i, hlt, -⟩ | ⟨i, hlt, -⟩)
    · exact absurd hlt (Nat.not_lt_zero i)
    · exact absurd hlt (Nat.not_lt_zero i)
  · rw [bad_iff hr h]
    exact fun hb => hb.elim hn (· hc)

/-- **The destructor does not hang**, and every thread can leave its loop once it has been stopped, in every
state of a run, if and only if each `stop()` finds the thread not in `epoll_wait`, or a descriptor registered
with its loop, and `init` never moves the vector while a thread is about to read its element. -/
theorem teardown_iff (n : Int) (as : List Action) :
    Stays Proper step (init n) as ↔ Allowed Careful step (init n) as := by
  constructor
  · refine Stays.allowed (fun s a s' hr h hp => ?_) as Reach.refl
    by_contra hc
    exact (proper_iff (hr.any.tail h trivial)).mp hp ((bad_iff hr.any h).mpr (Or.inr hc))
  · intro ha
    exact ha.stays (fun _ hr => (proper_iff hr.any).mpr (reach_not_bad hr)) as Reach.refl

/-- `init(4)`: the second `EpollEventLoop` throws when the first thread is in `epoll_wait`. -/
def failedInit : List Action := [.create (some 0), .start, .fetch 0, .index 0, .test 0, .create none, .stop, .stop]

/-- `init(1)`: the pool is destroyed when no client is connected. -/
def idleTeardown : List Action := [.create (some 0), .start, .fetch 0, .index 0, .test 0, .destroy, .stop, .stop]

/-- The destructor hangs after a failed `init`, and after one that did not fail. -/
theorem teardown_hangs : (∃ s, exec step (init 4) failedInit = some s ∧ Hangs s) ∧
    ∃ s, exec step (init 1) idleTeardown = some s ∧ Hangs s :=
  ⟨⟨_, rfl, 0, rfl, by decide, rfl, rfl⟩, _, rfl, 0, rfl, by decide, rfl, rfl⟩

/-- `init(2)`: the second `emplace_back` moves the vector when the first thread is about to read its element. -/
def movedAway : List Action := [.create (some 0), .start, .fetch 0, .create (some 0), .index 0]

example : (exec step (init 2) movedAway).map (fun s => (s.reactor 0).pc) = some .astray := by decide

/-! ## The end of the destructor -/

/-- How many threads have been joined. -/
def Pool.joined (s : Pool) : Nat :=
  match s.pc with
  | .create | .start | .ready | .stop _ => 0
  | .join i => i
  | .destroyed => s.size

theorem joined_step (hi : ∀ i < s.joined, (s.reactor i).pc = .left) (h : step s a = some s') :
    ∀ i < s'.joined, (s'.reactor i).pc = .left := by
  intro i hlt
  cases step_inv h with
  | create hpc | createFails hpc | destroy hpc | stop hpc | stopped hpc => simp [Pool.joined] at hlt
  | start hpc hnext => rcases hnext with rfl | rfl <;> simp [Pool.joined] at hlt
  | @accept fd ok hpc => simp [Pool.joined, hpc, (accept_same s fd ok).2.1] at hlt
  | @join j hpc _ hleft =>
    by_cases hij : i = j
    · rw [hij]
      exact hleft
    · have hlt' : i < j + 1 := hlt
      exact hi i (by simp only [Pool.joined, hpc]; omega)
  | @joined j hpc hle =>
    have hlt' : i < s.size := hlt
    exact hi i (by simp only [Pool.joined, hpc]; omega)
  | @thread j _ r _ ht =>
    have hleft := hi i hlt
    by_cases hij : i = j
    · subst hij
      cases ht with
      | fetch hpc | index hpc | astray hpc | test hpc | wake hpc | handled hpc | handle hpc => simp [hleft] at hpc
    · simpa [set_of_ne hij] using hleft

/-- The destructor only returns in runs that were careful. -/
theorem careful_of_destroyed {as : List Action} (h : exec step (init n) as = some s) (hend : s.pc = .destroyed) :
    Allowed Careful step (init n) as := by
  have hleft : ∀ i < s.joined, (s.reactor i).pc = .left :=
    (exec_reach as h).invariant (I := fun s => ∀ i < s.joined, (s.reactor i).pc = .left)
      (fun i hlt => absurd hlt (Nat.not_lt_zero i)) fun _ _ _ hi h _ => joined_step hi h
  have hnot : ¬ Bad s := by
    rintro (⟨i, hlt, hs⟩ | ⟨i, hlt, hb⟩)
    · have hl := hleft i (by simpa [Pool.joined, hend] using hlt)
      simp [Strays, hl] at hs
    · have hl := hleft i (by simpa [Pool.joined, Pool.stopped, hend] using hlt)
      rw [hb.1] at hl
      cases hl
  refine Stays.allowed_of_end (fun _ => True) Bad (fun s a s' hr h _ => ?_)
    (fun s a s' hr hd h => ?_) hnot as Reach.refl h (stays_true as)
  · by_contra hbad
    rw [not_or] at hbad
    exact hbad.2 ((bad_iff hr.any h).mpr (Or.inr hbad.1))
  · exact (bad_iff hr h).mpr (Or.inl hd)

end CppBackend.SubReactors
