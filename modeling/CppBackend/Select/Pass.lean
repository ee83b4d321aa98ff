import CppBackend.Select.Bookkeeping

/-!
# One pass of the select loop

The bound of the loop changes with the accepts and closes made in the loop, and a number that has been closed
may be handed out again.  A number that `select` reported and the loop has not reached yet is open, under the
connection that it had (`Unscanned`): so `accept` cannot return it, and the bound does not fall below it.

* `passing_step` — what a step of a pass keeps, and how it shortens the pass;
* `select_pass` — at its end, exactly the reported numbers have been handled, each once, as long as all numbers are
  below `FD_SETSIZE`;
* `newcomer_handled` — a client that comes under the number 1024 may be handled in the pass.
-/

set_option autoImplicit false

namespace CppBackend.Select

open Library.Descriptors Library.Transition

variable {p : Program} {s s' : Server} {ready : Finset Nat} {first next limit fd : Nat}

/-! ## The invariant of a pass -/

/-- The numbers below `next` have been handled; `ready` are the numbers that `select` has reported, and the
    connections from `first` on have come in the pass. -/
structure Unscanned (ready : Finset Nat) (first next : Nat) (s : Server) : Prop where
  temp : s.tempFds = ready
  handled : s.handled.map Prod.fst = (List.range next).filter (· ∈ ready)
  old : ∀ fd conn, (fd, conn) ∈ s.handled → fd = s.serverFd ∨ ∃ c, conn = some c ∧ c < first
  waiting : ∀ fd ∈ ready, next ≤ fd → fd = s.serverFd ∨ ∃ c, s.table.conn fd = some c ∧ c < first
  within : ∀ fd ∈ ready, fd ≤ s.curMaxFd

/-- All of them, and only connections that were there before the pass. -/
structure Handled (ready : Finset Nat) (first : Nat) (s : Server) : Prop where
  once : s.handled.map Prod.fst = (List.range (s.curMaxFd + 1)).filter (· ∈ ready)
  old : ∀ fd conn, (fd, conn) ∈ s.handled → fd = s.serverFd ∨ ∃ c, conn = some c ∧ c < first

/-- Where the pass is. -/
def Passing (ready : Finset Nat) (first : Nat) (s : Server) : Prop :=
  match s.pc with
  | .scan fd => Unscanned ready first fd s
  | .accept => Unscanned ready first s.serverFd s ∧ s.serverFd ∈ ready
  | .recv fd => Unscanned ready first fd s ∧ fd ∈ ready
  | .top => Handled ready first s
  | .select => False
  | .left => False
  | .thrown => False

/-- What is left of a pass whose numbers do not exceed `limit`: two steps at most for each. -/
def remaining (limit : Nat) (s : Server) : Nat :=
  match s.pc with
  | .scan fd => 2 * (limit + 1 - fd) + 1
  | .accept => 2 * (limit - s.serverFd) + 2
  | .recv fd => 2 * (limit - fd) + 2
  | _ => 0

/-- Two bounds above everything that is filtered out give the same list. -/
theorem filter_range_eq {m k : Nat} (hm : ∀ fd ∈ ready, fd < m) (hk : ∀ fd ∈ ready, fd < k) :
    (List.range m).filter (· ∈ ready) = (List.range k).filter (· ∈ ready) := by
  have hle : ∀ {m k : Nat}, m ≤ k → (∀ fd ∈ ready, fd < m) →
      (List.range m).filter (· ∈ ready) = (List.range k).filter (· ∈ ready) := by
    intro m k hle hm
    induction hle with
    | refl => rfl
    | @step k hle ih =>
      have hno : k ∉ ready := fun h => absurd (hm k h) (Nat.not_lt.mpr hle)
      rw [List.range_succ, List.filter_append, ← ih]
      simp [hno]
  rcases Nat.le_total m k with h | h
  · exact hle h hm
  · exact (hle h hk).symm

/-- The numbers in their order. -/
theorem filter_range_eq_sort (h : ∀ fd ∈ ready, fd ≤ limit) :
    (List.range (limit + 1)).filter (· ∈ ready) = ready.sort (· ≤ ·) := by
  apply List.Perm.eq_of_pairwise' (r := (· ≤ ·))
  · exact List.pairwise_le_range.filter _
  · exact Finset.pairwise_sort _ _
  · apply List.perm_of_nodup_nodup_toFinset_eq (List.nodup_range.filter _) (Finset.sort_nodup _ _)
    ext fd
    simp only [List.mem_toFinset, List.mem_filter, List.mem_range, decide_eq_true_eq, Finset.mem_sort]
    constructor
    · exact And.right
    · intro hfd
      exact ⟨Nat.lt_succ_of_le (h fd hfd), hfd⟩

/-- The loop goes on to the next number, which `select` has not reported. -/
theorem Unscanned.skip (h : Unscanned ready first fd s) (hnot : fd ∉ s.tempFds) :
    Unscanned ready first (fd + 1) { s with pc := .scan (fd + 1) } := by
  rw [h.temp] at hnot
  refine ⟨h.temp, ?_, h.old, fun f hf hle => h.waiting f hf (by omega), h.within⟩
  show s.handled.map Prod.fst = _
  rw [h.handled, List.range_succ, List.filter_append]
  simp [hnot]

/-- The number has been handled, under the connection that it refers to. -/
theorem Unscanned.done (h : Unscanned ready first fd s) (hready : fd ∈ ready) {conn : Option Nat}
    (hconn : fd = s.serverFd ∨ ∃ c, conn = some c ∧ c < first) :
    Unscanned ready first (fd + 1) (s.done fd conn) := by
  refine ⟨h.temp, ?_, fun f o ho => ?_, fun f hf hle => h.waiting f hf (by omega), h.within⟩
  · show (s.handled ++ [(fd, conn)]).map Prod.fst = _
    rw [List.map_append, h.handled, List.range_succ, List.filter_append]
    simp [hready]
  · rcases List.mem_append.mp ho with ho | ho
    · exact h.old f o ho
    · rw [List.mem_singleton, Prod.mk.injEq] at ho
      obtain ⟨rfl, rfl⟩ := ho
      exact hconn

/-- Behind the bound of the loop no number is left. -/
theorem Unscanned.ended (hp : p.Bounded) (h : Unscanned ready first fd s) (hi : Inv s)
    (hend : p.bound s.maxFd s.curMaxFd < fd) : Handled ready first { s with pc := .top } := by
  refine ⟨?_, h.old⟩
  show s.handled.map Prod.fst = (List.range (s.curMaxFd + 1)).filter (· ∈ ready)
  rw [h.handled]
  apply filter_range_eq
  · intro f hf
    by_contra hge
    have hle : f ≤ s.maxFd := by
      rw [hi.maxFd]
      apply le_recompute
      rcases h.waiting f hf (by omega) with rfl | ⟨c, hc, -⟩
      · exact Finset.mem_insert_self _ _
      · apply Finset.mem_insert_of_mem
        rw [hi.clients, hc]
        rfl
    have hcur := h.within f hf
    have hbound := (hp s.maxFd s.curMaxFd).1
    have hmin : f ≤ min s.maxFd s.curMaxFd := le_min hle hcur
    omega
  · intro f hf
    have hcur := h.within f hf
    omega

/-- A client that comes does not get a number that is still to be handled. -/
theorem Unscanned.accept (h : Unscanned ready first next s) {cfd : Nat} (hfree : s.table.conn cfd = none) :
    Unscanned ready first next (s.acceptClient p cfd) := by
  refine ⟨h.temp, h.handled, h.old, fun f hf hle => ?_, h.within⟩
  rcases h.waiting f hf hle with hserver | ⟨c, hc, hlt⟩
  · exact Or.inl hserver
  · exact Or.inr ⟨c, accept_open hfree hc, hlt⟩

/-- Closing a number that has been handled ends no other connection. -/
theorem Unscanned.close (h : Unscanned ready first next s) (hlt : fd < next) :
    Unscanned ready first next (s.closeClient fd) := by
  refine ⟨h.temp, h.handled, h.old, fun f hf hle => ?_, h.within⟩
  rcases h.waiting f hf hle with hserver | ⟨c, hc, hlt'⟩
  · exact Or.inl hserver
  · refine Or.inr ⟨c, ?_, hlt'⟩
    show (s.table.close fd).conn f = some c
    rw [close_of_ne (by omega), hc]

theorem Unscanned.keep (h : Unscanned ready first next s) (htable : s'.table = s.table)
    (hserver : s'.serverFd = s.serverFd) (htemp : s'.tempFds = s.tempFds)
    (hhandled : s'.handled = s.handled) (hcur : s'.curMaxFd = s.curMaxFd) :
    Unscanned ready first next s' := by
  refine ⟨htemp.trans h.temp, ?_, ?_, ?_, ?_⟩
  · rw [hhandled]
    exact h.handled
  · rw [hhandled, hserver]
    exact h.old
  · rw [htable, hserver]
    exact h.waiting
  · rw [hcur]
    exact h.within

theorem Passing.stop (h : Passing ready first s) :
    Passing ready first { s with isRunning := false } := by
  unfold Passing at h ⊢
  cases hpc : s.pc with
  | scan fd =>
    rw [hpc] at h
    exact h.keep rfl rfl rfl rfl rfl
  | accept =>
    rw [hpc] at h
    exact ⟨h.1.keep rfl rfl rfl rfl rfl, h.2⟩
  | recv fd =>
    rw [hpc] at h
    exact ⟨h.1.keep rfl rfl rfl rfl rfl, h.2⟩
  | top =>
    rw [hpc] at h
    exact ⟨h.once, h.old⟩
  | select =>
    rw [hpc] at h
    exact h
  | left =>
    rw [hpc] at h
    exact h
  | thrown =>
    rw [hpc] at h
    exact h

/-! ## The steps of a pass -/

/-- Everything of a pass but `stop()` belongs to the loop. -/
def Action.works : Action → Bool
  | .stop => false
  | .spill _ _ => false
  | _ => true

/-- The step belongs to the pass, and a client that it accepts gets a number up to `limit`. -/
def Action.inPass (limit : Nat) (a : Action) : Prop :=
  a ≠ .test ∧ ∀ cfd, a = .accept (some cfd) → cfd ≤ limit

/-- The loop does not go beyond `limit`. -/
structure Limited (limit : Nat) (s : Server) : Prop where
  maxFd : s.maxFd ≤ limit
  cur : s.curMaxFd ≤ limit

theorem Limited.bound (h : Limited limit s) (hp : p.Bounded)
    (hin : fd ≤ p.bound s.maxFd s.curMaxFd) : fd ≤ limit :=
  (hin.trans (hp s.maxFd s.curMaxFd).2).trans (max_le h.maxFd h.cur)

theorem Limited.accept (h : Limited limit s) (hg : p.Grows) (hi : Inv s) {cfd : Nat}
    (hcfd : cfd ≤ limit) : Limited limit (s.acceptClient p cfd) := by
  refine ⟨?_, h.cur⟩
  show p.grow s.serverFd s.maxFd (insert cfd s.clientFds) cfd ≤ limit
  rw [hi.maxFd, hg]
  have hmax : ∀ f ∈ insert s.serverFd s.clientFds, f ≤ limit := fun f hf =>
    (le_recompute f hf).trans (hi.maxFd ▸ h.maxFd)
  have hmem := recompute_mem s.serverFd (insert cfd s.clientFds)
  rw [Finset.insert_comm, Finset.mem_insert] at hmem
  rcases hmem with heq | hold
  · rw [heq]
    exact hcfd
  · exact hmax _ hold

theorem Limited.close (h : Limited limit s) (hi : Inv s) : Limited limit (s.closeClient fd) := by
  refine ⟨?_, h.cur⟩
  show recompute s.serverFd (s.clientFds.erase fd) ≤ limit
  have hmem := recompute_mem s.serverFd (s.clientFds.erase fd)
  have hsub : insert s.serverFd (s.clientFds.erase fd) ⊆ insert s.serverFd s.clientFds :=
    Finset.insert_subset_insert _ (Finset.erase_subset _ _)
  exact (le_recompute _ (hsub hmem)).trans (hi.maxFd ▸ h.maxFd)

theorem passing_step {a : Action} (hp : p.Bounded) (hg : p.Grows) (hi : Inv s) (hover : s.overrun = false)
    (h : Passing ready first s) (hl : Limited limit s) (ha : a.inPass limit)
    (hs : step p s a = some s') : (Passing ready first s' ∧ Limited limit s') ∧
      remaining limit s' + (if a.works then 1 else 0) ≤ remaining limit s := by
  unfold Passing at h
  cases step_inv hs with
  | stop => exact ⟨⟨Passing.stop h, hl.maxFd, hl.cur⟩, Nat.le_refl _⟩
  | leave => exact absurd rfl ha.1
  | goOn => exact absurd rfl ha.1
  | select hpc =>
    rw [hpc] at h
    exact h.elim
  | selectFails hpc =>
    rw [hpc] at h
    exact h.elim
  | passEnds hpc hend =>
    rw [hpc] at h
    refine ⟨⟨h.ended hp hi hend, hl.maxFd, hl.cur⟩, ?_⟩
    simp [remaining, hpc, Action.works]
  | skip hpc hin hnot =>
    rw [hpc] at h
    refine ⟨⟨h.skip hnot, hl.maxFd, hl.cur⟩, ?_⟩
    have hle := hl.bound hp hin
    simp only [remaining, hpc, Action.works, if_true]
    omega
  | server hpc hin hready hfd =>
    rw [hpc] at h
    subst hfd
    refine ⟨⟨⟨h.keep rfl rfl rfl rfl rfl, h.temp ▸ hready⟩, hl.maxFd, hl.cur⟩, ?_⟩
    have hle := hl.bound hp hin
    simp only [remaining, hpc, Action.works, if_true]
    omega
  | client hpc hin hready hfd =>
    rw [hpc] at h
    refine ⟨⟨⟨h.keep rfl rfl rfl rfl rfl, h.temp ▸ hready⟩, hl.maxFd, hl.cur⟩, ?_⟩
    have hle := hl.bound hp hin
    simp only [remaining, hpc, Action.works, if_true]
    omega
  | scanBehind hpc hin hbeyond => exact absurd (hi.bound hp hin) (Nat.not_lt.mpr hbeyond)
  | spill hspill => simp [hover] at hspill
  | acceptFails hpc =>
    rw [hpc] at h
    refine ⟨⟨h.1.done h.2 (Or.inl rfl), hl.maxFd, hl.cur⟩, ?_⟩
    simp only [remaining, hpc, Action.works, Server.done, if_true]
    omega
  | @accept cfd hpc hne hfree =>
    rw [hpc] at h
    have hnext : Limited limit (s.done s.serverFd none) := ⟨hl.maxFd, hl.cur⟩
    have hi' : Inv (s.done s.serverFd none) :=
      hi.goes rfl (by simp [Server.done]) (by simp [Server.done])
    refine ⟨⟨(h.1.done h.2 (Or.inl rfl)).accept hfree, hnext.accept hg hi' (ha.2 cfd rfl)⟩, ?_⟩
    simp only [remaining, hpc, Action.works, Server.done, Server.acceptClient, if_true]
    omega
  | @received fd chunk hpc hne =>
    rw [hpc] at h
    have hconn := (h.1.waiting fd h.2 (Nat.le_refl _))
    refine ⟨⟨(h.1.done h.2 hconn).keep rfl rfl rfl rfl rfl, hl.maxFd, hl.cur⟩, ?_⟩
    simp only [remaining, hpc, Action.works, Server.done, if_true]
    omega
  | @hungUp fd hpc =>
    rw [hpc] at h
    have hconn := (h.1.waiting fd h.2 (Nat.le_refl _))
    have hnext : Limited limit (s.done fd (s.table.conn fd)) := ⟨hl.maxFd, hl.cur⟩
    have hi' : Inv (s.done fd (s.table.conn fd)) :=
      hi.goes rfl (by simp [Server.done]) (by simp [Server.done])
    refine ⟨⟨(h.1.done h.2 hconn).close (Nat.lt_succ_self fd), hnext.close hi'⟩, ?_⟩
    simp only [remaining, hpc, Action.works, Server.done, Server.closeClient, if_true]
    omega

/-- The pass leaves `server_fd` and the bound that `select` was called with. -/
theorem passing_frame {a : Action} (h : Passing ready first s) (hover : s.overrun = false) (ha : a ≠ .test)
    (hs : step p s a = some s') : s'.serverFd = s.serverFd ∧ s'.curMaxFd = s.curMaxFd := by
  unfold Passing at h
  cases step_inv hs with
  | leave => exact absurd rfl ha
  | goOn => exact absurd rfl ha
  | select hpc =>
    rw [hpc] at h
    exact h.elim
  | selectFails hpc =>
    rw [hpc] at h
    exact h.elim
  | stop => exact ⟨rfl, rfl⟩
  | passEnds => exact ⟨rfl, rfl⟩
  | skip => exact ⟨rfl, rfl⟩
  | server => exact ⟨rfl, rfl⟩
  | client => exact ⟨rfl, rfl⟩
  | scanBehind =>
    unfold Server.visit
    split
    · exact ⟨rfl, rfl⟩
    · split <;> exact ⟨rfl, rfl⟩
  | spill hspill => simp [hover] at hspill
  | acceptFails => exact ⟨rfl, rfl⟩
  | accept => exact ⟨rfl, rfl⟩
  | received => exact ⟨rfl, rfl⟩
  | hungUp => exact ⟨rfl, rfl⟩

/-! ## Whole passes -/

/-- When `select` returns, every number that it reports is open, and nothing has come since. -/
theorem passing_select (hi : Inv s) (hs : step p s (.select ready) = some s') :
    Passing ready s.table.next s' := by
  cases step_inv hs with
  | select hpc hsub hlt =>
    refine ⟨rfl, by simp, fun _ _ h => absurd h List.not_mem_nil, fun fd hfd _ => ?_, fun fd hfd => ?_⟩
    · have hread := hsub hfd
      rw [(hi.copied hpc).1, hi.reads, Finset.mem_insert, hi.clients] at hread
      refine hread.imp_right fun hopen => ?_
      obtain ⟨c, hc⟩ := Option.isSome_iff_exists.mp hopen
      exact ⟨c, hc, s.table.bounded fd c hc⟩
    · exact Nat.lt_succ_iff.mp (hlt fd hfd)

theorem Passing.not_thrown (h : Passing ready first s) : s.pc ≠ .thrown := by
  intro hpc
  unfold Passing at h
  rw [hpc] at h
  exact h

/-- A pass that has not ended goes on. -/
theorem Passing.goes_on (hp : p.Bounded) (hi : Inv s) (h : Passing ready first s) (hpc : s.pc ≠ .top) :
    ∃ a s', a ≠ .test ∧ a.works = true ∧ step p s a = some s' := by
  unfold Passing at h
  cases hat : s.pc with
  | top => exact absurd hat hpc
  | scan fd =>
    have hbehind : s.behind p fd = false := by
      simp only [Server.behind, Bool.and_eq_false_imp, decide_eq_true_eq, beyond_eq_false]
      exact hi.bound hp
    exact ⟨.scan, s.scan p fd, by simp, rfl, by simp [step, hat, hbehind]⟩
  | accept => exact ⟨.accept none, s.done s.serverFd none, by simp, rfl, by simp [step, hat, Server.done]⟩
  | recv fd =>
    exact ⟨.recv [], s.handleClientIo p fd [], by simp, rfl, by simp [step, hat, Server.receivable]⟩
  | select =>
    rw [hat] at h
    exact h.elim
  | left =>
    rw [hat] at h
    exact h.elim
  | thrown =>
    rw [hat] at h
    exact h.elim

theorem Passing.old (h : Passing ready first s) : ∀ fd conn, (fd, conn) ∈ s.handled →
    fd = s.serverFd ∨ ∃ c, conn = some c ∧ c < first := by
  unfold Passing at h
  split at h
  · exact h.old
  · exact h.1.old
  · exact h.1.old
  · exact h.old
  · exact h.elim
  · exact h.elim
  · exact h.elim

theorem Action.inPass_mono {a : Action} {limit limit' : Nat} (h : a.inPass limit) (hle : limit ≤ limit') :
    a.inPass limit' :=
  ⟨h.1, fun cfd ha => (h.2 cfd ha).trans hle⟩

theorem Action.exists_inPass {a : Action} (h : a ≠ .test) (n : Nat) : ∃ limit, n ≤ limit ∧ a.inPass limit := by
  by_cases hacc : ∃ cfd, a = .accept (some cfd)
  · obtain ⟨cfd, rfl⟩ := hacc
    refine ⟨max n cfd, le_max_left n cfd, h, ?_⟩
    rintro _ ⟨⟩
    exact le_max_right n cfd
  · exact ⟨n, le_refl n, h, fun cfd ha => absurd ⟨cfd, ha⟩ hacc⟩

/-- A run accepts only numbers up to some limit. -/
theorem exists_limit (as : List Action) (n : Nat) (h : ∀ a ∈ as, a ≠ .test) :
    ∃ limit, n ≤ limit ∧ ∀ a ∈ as, a.inPass limit := by
  induction as with
  | nil => exact ⟨n, le_refl n, fun _ h => absurd h List.not_mem_nil⟩
  | cons a as ih =>
    obtain ⟨limit, hle, hall⟩ := ih fun b hb => h b (List.mem_cons_of_mem a hb)
    obtain ⟨limit', hle', ha⟩ := Action.exists_inPass (h a List.mem_cons_self) limit
    refine ⟨limit', hle.trans hle', fun b hb => ?_⟩
    rcases List.mem_cons.mp hb with rfl | hb
    · exact ha
    · exact Action.inPass_mono (hall b hb) hle'

/-- What a run of a pass keeps, and how long it can be. -/
theorem pass_run (hp : p.Sound) (hk : Kept s) (hi : Inv s)
    (hselect : step p s (.select ready) = some s') (hlimit : s.maxFd ≤ limit) (as : List Action)
    (hpass : ∀ a ∈ as, a.inPass limit ∧ a.hasBit) {t : Server} (hrun : exec (step p) s' as = some t) :
    (Inv t ∧ Passing ready s.table.next t ∧ t.serverFd = s.serverFd ∧ t.curMaxFd = s.maxFd) ∧
      as.countP Action.works ≤ 2 * (limit + 1) + 1 := by
  have hstart := passing_select hi hselect
  have hkept' : Kept s' := kept_step hp hk (fun _ he => by cases he) hselect
  have hfirst : (Limited limit s' ∧ s'.serverFd = s.serverFd ∧ s'.curMaxFd = s.maxFd) ∧
      remaining limit s' = 2 * (limit + 1) + 1 := by
    cases step_inv hselect with
    | select hpc hsub hlt =>
      have hcur := (hi.copied hpc).2
      exact ⟨⟨⟨hlimit, hcur ▸ hlimit⟩, rfl, hcur⟩, rfl⟩
  obtain ⟨⟨hlimited, hserver, hcur⟩, hremaining⟩ := hfirst
  obtain ⟨⟨hkept, hpassing, -, hserver', hcur'⟩, hcount⟩ := exec_measure
    (I := fun u => Kept u ∧ Passing ready s.table.next u ∧ Limited limit u ∧
      u.serverFd = s.serverFd ∧ u.curMaxFd = s.maxFd)
    (fun u a u' hu ha hs => by
      obtain ⟨hku, hpu, hlu, hserveru, hcuru⟩ := hu
      obtain ⟨⟨hpu', hlu'⟩, hle⟩ :=
        passing_step hp.bounded hp.grows (hku.inv hpu.not_thrown) hku.overrun hpu hlu ha.1 hs
      obtain ⟨hs1, hs2⟩ := passing_frame hpu hku.overrun ha.1.1 hs
      exact ⟨⟨kept_step hp hku ha.2 hs, hpu', hlu', hs1.trans hserveru, hs2.trans hcuru⟩, hle⟩)
    as ⟨hkept', hstart, hlimited, hserver, hcur⟩ hpass hrun
  exact ⟨⟨hkept.inv hpassing.not_thrown, hpassing, hserver', hcur'⟩, by omega⟩

/-- **One pass of the select loop serves every ready descriptor exactly once**, when all numbers are below
    `FD_SETSIZE`: at its end the numbers handled are those that `select` has reported, in order and each once; none of
    them is handled for a connection that has been accepted in the pass; and the pass does end, as long as the number
    that it accepts may be. -/
theorem select_pass {serverFd : Nat} (hserver : serverFd < fdSetSize)
    (hr : Reach HasBit (step runSelectLoop) (init serverFd) s)
    (hselect : step runSelectLoop s (.select ready) = some s') (as : List Action)
    (hpass : ∀ a ∈ as, a ≠ .test ∧ a.hasBit) {t : Server} (hrun : exec (step runSelectLoop) s' as = some t) :
    (t.pc = .top → t.handled.map Prod.fst = ready.sort (· ≤ ·)) ∧
    (∀ fd conn, (fd, conn) ∈ t.handled →
      fd = s.serverFd ∨ ∃ c, conn = some c ∧ c < s.table.next) ∧
    (∀ limit, s.maxFd ≤ limit → (∀ a ∈ as, a.inPass limit) →
      as.countP Action.works ≤ 2 * (limit + 1) + 1) ∧
    (t.pc ≠ .top → ∃ a t', a ≠ .test ∧ a.works = true ∧ step runSelectLoop t a = some t') := by
  have hsel : s.pc = .select := by
    cases step_inv hselect with
    | select hpc => exact hpc
  have hk : Kept s := reach_kept runSelectLoop_sound hserver (fun _ _ _ h => h) hr
  have hi : Inv s := hk.inv (by simp [hsel])
  have hrun' : ∀ limit, s.maxFd ≤ limit → (∀ a ∈ as, a.inPass limit) →
      (Inv t ∧ Passing ready s.table.next t ∧ t.serverFd = s.serverFd ∧ t.curMaxFd = s.maxFd) ∧
        as.countP Action.works ≤ 2 * (limit + 1) + 1 := fun limit hle hall =>
    pass_run runSelectLoop_sound hk hi hselect hle as (fun a ha => ⟨hall a ha, (hpass a ha).2⟩) hrun
  obtain ⟨limit, hle, hall⟩ := exists_limit as s.maxFd fun a ha => (hpass a ha).1
  obtain ⟨⟨hit, hpassing, hserver', hcur⟩, -⟩ := hrun' limit hle hall
  refine ⟨fun htop => ?_, ?_, fun limit hle hall => (hrun' limit hle hall).2,
    hpassing.goes_on runSelectLoop_bounded hit⟩
  · unfold Passing at hpassing
    rw [htop] at hpassing
    rw [hpassing.once]
    apply filter_range_eq_sort
    rw [hcur]
    cases step_inv hselect with
    | select hpc hsub hlt => exact fun fd hfd => (hi.copied hpc).2 ▸ Nat.lt_succ_iff.mp (hlt fd hfd)
  · rw [← hserver']
    exact hpassing.old

/-- Client 2 comes. -/
def comes2 : List Action :=
  [.test, .select {3}, .scan, .scan, .scan, .scan, .accept (some 2), .scan, .test]

/-- Client 2 leaves, and the next one gets its number. -/
def reused : List Action := [.scan, .scan, .scan, .recv [], .scan, .accept (some 2), .scan]

/-- Client 2 has left a number below the listening socket 3, which the next client gets in the same
    pass. -/
theorem select_pass_reused : ∃ s s' t : Server,
    exec (guarded HasBit (step runSelectLoop)) (init 3) comes2 = some s ∧
    step runSelectLoop s (.select {2, 3}) = some s' ∧ exec (step runSelectLoop) s' reused = some t ∧
    t.table.conn 2 = some 1 ∧ t.handled.map Prod.fst = Finset.sort {2, 3} (· ≤ ·) := by
  obtain ⟨s, hr, hs⟩ := (Option.any_eq_true _ _).mp
    (show (exec (guarded HasBit (step runSelectLoop)) (init 3) comes2).any
      (fun s => ((step runSelectLoop s (.select {2, 3})).bind fun s' => exec (step runSelectLoop) s' reused).any
        fun t => t.pc == .top && t.table.conn 2 == some 1) = true by decide +kernel)
  obtain ⟨t, ht, hp⟩ := (Option.any_eq_true _ _).mp hs
  obtain ⟨s', hs', hrun⟩ := Option.bind_eq_some_iff.mp ht
  simp only [Bool.and_eq_true, beq_iff_eq] at hp
  have hpass : ∀ a ∈ reused, a ≠ .test ∧ a.hasBit := by
    simp [reused, Action.hasBit, fdSetSize]
  exact ⟨s, s', t, hr, hs', hrun, hp.2,
    (select_pass (by decide) (exec_guarded_reach _ hr) hs' _ hpass hrun).1 hp.1⟩

/-- A client of `select.cpp` comes under the number 1024, and the loop goes on to it; there the memory behind the copy
    has a bit. -/
def newcomer : List Action :=
  List.replicate 4 .scan ++ .accept (some 1024) :: List.replicate 1020 .scan ++ [.scanBehind true, .recv [65]]

/-- `select` has reported 3 alone, and the connection 0, which has been accepted in the pass, is handled in it. -/
theorem newcomer_handled : ∃ s s' t : Server, exec (step runSelectLoop) (init 3) [.test] = some s ∧
    s.table.next = 0 ∧ step runSelectLoop s (.select {3}) = some s' ∧
    exec (step runSelectLoop) s' newcomer = some t ∧ t.handled = [(3, none), (1024, some 0)] := by
  have hrun : (exec (step runSelectLoop) (init 3) [.test]).any (fun s => s.table.next == 0 &&
      ((step runSelectLoop s (.select {3})).bind fun s' => exec (step runSelectLoop) s' newcomer).any
        fun t => t.handled == [(3, none), (1024, some 0)]) = true := by
    decide +kernel
  obtain ⟨s, hr, hs⟩ := (Option.any_eq_true _ _).mp hrun
  simp only [Bool.and_eq_true, beq_iff_eq] at hs
  obtain ⟨t, ht, hp⟩ := (Option.any_eq_true _ _).mp hs.2
  obtain ⟨s', hs', hrun'⟩ := Option.bind_eq_some_iff.mp ht
  exact ⟨s, s', t, hr, hs.1, hs', hrun', beq_iff_eq.mp hp⟩

end CppBackend.Select
