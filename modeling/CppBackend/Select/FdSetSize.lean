import CppBackend.Library.Lowest
import CppBackend.Select.Bookkeeping

/-!
# The select servers and `FD_SETSIZE`

An `fd_set` has a bit for each number below `FD_SETSIZE`, and neither program compares the number that it gets
from `accept` with it.  When `accept` returns the lowest number that is not open, it is the number of
connected clients that decides.

* `applied`, `nfds` — the numbers that a step uses;
* `fd_set_iff` — they are in range in all of a run exactly if every accept finds room;
* `fd_set_overrun` — runs in which a client comes under the number 1024.
-/

set_option autoImplicit false

namespace CppBackend.Select

open Library.Descriptors Library.Transition

/-- The numbers that `FD_ISSET`, `FD_SET` and `FD_CLR` are applied to in a step. -/
def applied (p : Program) (s : Server) : Action → List Nat
  | .scan =>
    match s.pc with
    | .scan fd => if p.bound s.maxFd s.curMaxFd < fd then [] else [fd]
    | _ => []
  | .scanBehind _ =>
    match s.pc with
    | .scan fd => [fd]
    | _ => []
  | .accept (some cfd) => [cfd]
  | .recv [] =>
    match s.pc with
    | .recv fd => [fd]
    | _ => []
  | _ => []

/-- The first argument of `select`. -/
def nfds (s : Server) : Action → Option Nat
  | .select _ => some (s.curMaxFd + 1)
  | .selectFails _ => some (s.curMaxFd + 1)
  | _ => none

/-- The numbers of a step are in range. -/
structure InRange (p : Program) (s : Server) (a : Action) (_ : Server) : Prop where
  applied : ∀ fd ∈ applied p s a, fd < fdSetSize
  nfds : ∀ n ∈ nfds s a, n ≤ fdSetSize

/-- `accept` returns the lowest number that is not open; besides the clients, `own` are open. -/
def LowestAccept (own : Finset Nat) (s : Server) (a : Action) (_ : Server) : Prop :=
  match a with
  | .accept (some cfd) => Lowest (fun k => k ∈ own ∨ (s.table.conn k).isSome = true) cfd
  | _ => True

instance (own : Finset Nat) (s : Server) (a : Action) (s' : Server) :
    Decidable (LowestAccept own s a s') :=
  match a with
  | .accept (some cfd) =>
    inferInstanceAs (Decidable (Lowest (fun k => k ∈ own ∨ (s.table.conn k).isSome = true) cfd))
  | .accept none => .isTrue trivial
  | .stop => .isTrue trivial
  | .test => .isTrue trivial
  | .select _ => .isTrue trivial
  | .selectFails _ => .isTrue trivial
  | .scan => .isTrue trivial
  | .scanBehind _ => .isTrue trivial
  | .spill _ _ => .isTrue trivial
  | .recv _ => .isTrue trivial

/-- A number below `FD_SETSIZE` is left when `accept` returns one. -/
def Room (own : Finset Nat) (s : Server) (a : Action) (_ : Server) : Prop :=
  match a with
  | .accept (some _) => (own.filter (· < fdSetSize)).card + s.clientFds.card < fdSetSize
  | _ => True

instance (own : Finset Nat) (s : Server) (a : Action) (s' : Server) : Decidable (Room own s a s') :=
  match a with
  | .accept (some _) =>
    inferInstanceAs (Decidable ((own.filter (· < fdSetSize)).card + s.clientFds.card < fdSetSize))
  | .accept none => .isTrue trivial
  | .stop => .isTrue trivial
  | .test => .isTrue trivial
  | .select _ => .isTrue trivial
  | .selectFails _ => .isTrue trivial
  | .scan => .isTrue trivial
  | .scanBehind _ => .isTrue trivial
  | .spill _ _ => .isTrue trivial
  | .recv _ => .isTrue trivial

variable {p : Program} {own : Finset Nat} {s s' : Server} {a : Action}

/-- All numbers have been in range so far, and what else is open is none of the clients. -/
structure Fitting (own : Finset Nat) (s : Server) : Prop where
  kept : Kept s
  disjoint : s.pc ≠ .thrown → Disjoint own s.clientFds

/-- An accept finds room just if its number is in range. -/
theorem Inv.accept_iff (hi : Inv s) (hdisjoint : Disjoint own s.clientFds) {cfd : Nat}
    (hlow : Lowest (fun k => k ∈ own ∨ (s.table.conn k).isSome = true) cfd) :
    cfd < fdSetSize ↔ (own.filter (· < fdSetSize)).card + s.clientFds.card < fdSetSize := by
  have hlow' : Lowest (fun k => k ∈ own ∨ k ∈ s.clientFds) cfd := by
    refine ⟨fun hu => hlow.free ?_, fun k hk => ?_⟩
    · rwa [← hi.clients]
    · rw [hi.clients]
      exact hlow.below k hk
  exact hlow'.lt_iff_card_add hdisjoint fun k hk => hi.fits k (Finset.mem_insert_of_mem hk)

/-- The numbers of a step are in range unless it accepts one that is not. -/
theorem inRange_iff (hp : p.Bounded) (hi : Inv s) (hs : step p s a = some s') :
    InRange p s a s' ↔ HasBit s a s' := by
  constructor
  · rintro hr cfd rfl
    exact hr.applied cfd (List.mem_singleton_self cfd)
  · intro hacc
    refine ⟨fun fd hfd => ?_, fun n hn => ?_⟩
    · unfold applied at hfd
      split at hfd
      · split at hfd
        · split at hfd
          · exact absurd hfd List.not_mem_nil
          · rename_i hin
            rw [List.mem_singleton.mp hfd]
            exact hi.bound hp (Nat.not_lt.mp hin)
        · exact absurd hfd List.not_mem_nil
      · cases step_inv hs with
        | scanBehind hpc hin hbeyond => exact absurd (hi.bound hp hin) (Nat.not_lt.mpr hbeyond)
      · rw [List.mem_singleton.mp hfd]
        exact hacc _ rfl
      · split at hfd
        · rename_i hpc
          rw [List.mem_singleton.mp hfd]
          exact (hi.current _ hpc).2
        · exact absurd hfd List.not_mem_nil
      · exact absurd hfd List.not_mem_nil
    · have hcur := hi.cur
      unfold nfds at hn
      split at hn
      · cases hn
        exact hcur
      · cases hn
        exact hcur
      · cases hn

/-- Only an accept brings a client. -/
theorem disjoint_step (hp : p.Sound) (hdisjoint : Disjoint own s.clientFds) (hs : step p s a = some s')
    (hlow : LowestAccept own s a s') (hpc : s'.pc ≠ .thrown) (hover : s.overrun = false) :
    Disjoint own s'.clientFds := by
  cases step_inv hs with
  | @selectFails eintr hat =>
    rcases hp.fails eintr s with ⟨ht, -⟩ | ⟨pc, -, he⟩
    · exact absurd ht hpc
    · rw [he]
      exact hdisjoint
  | spill hspill => simp [hover] at hspill
  | scanBehind =>
    unfold Server.visit
    split
    · exact hdisjoint
    · split <;> exact hdisjoint
  | accept hat hne hfree =>
    exact Finset.disjoint_insert_right.mpr ⟨fun hmem => hlow.free (Or.inl hmem), hdisjoint⟩
  | hungUp => exact hdisjoint.mono_right (Finset.erase_subset _ _)
  | _ => exact hdisjoint

theorem thrown_stays (ht : s.pc = .thrown) (hover : s.overrun = false) (hs : step p s a = some s') :
    s'.pc = .thrown := by
  cases a with
  | stop =>
    simp only [step] at hs
    split at hs
    · cases hs
      exact ht
    · cases hs
  | spill => simp [step, hover] at hs
  | _ => simp [step, ht] at hs

theorem fitting_step (hp : p.Sound) (h : Fitting own s) (hs : step p s a = some s')
    (hlow : LowestAccept own s a s') (hroom : Room own s a s') : Fitting own s' := by
  have hover := h.kept.overrun
  refine ⟨kept_step hp h.kept (fun cfd ha => ?_) hs, fun hpc => ?_⟩
  · subst ha
    cases step_inv hs with
    | accept hat =>
      have hpc : s.pc ≠ .thrown := by simp [hat]
      exact ((h.kept.inv hpc).accept_iff (h.disjoint hpc) hlow).mpr hroom
  · exact disjoint_step hp (h.disjoint fun ht => hpc (thrown_stays ht hover hs)) hs hlow hpc hover

/-! ## Whole runs -/

theorem fitting_init {serverFd : Nat} (hserver : serverFd < fdSetSize) : Fitting own (init serverFd) :=
  ⟨kept_init hserver, fun _ => Finset.disjoint_empty_right own⟩

/-- A run in which every accept finds room is one in which the numbers are in range. -/
theorem allowed_iff (hp : p.Sound) {serverFd : Nat} (hserver : serverFd < fdSetSize) (as : List Action)
    (hlow : Allowed (LowestAccept own) (step p) (init serverFd) as) :
    Allowed (InRange p) (step p) (init serverFd) as ↔ Allowed (Room own) (step p) (init serverFd) as := by
  have hboth : Allowed (fun s a s' => LowestAccept own s a s' ∧ InRange p s a s') (step p)
      (init serverFd) as ↔
      Allowed (fun s a s' => LowestAccept own s a s' ∧ Room own s a s') (step p) (init serverFd) as := by
    refine Allowed.congr (fun s a s' hr hs => ?_) as
      (Reach.refl : Reach _ (step p) (init serverFd) (init serverFd))
    have hfit : Fitting own s := hr.invariant (fitting_init hserver)
      fun _ _ _ hfit hs hok => fitting_step hp hfit hs hok.1 hok.2
    refine and_congr_right fun hlow => ?_
    by_cases hpc : s.pc = .thrown
    · cases a with
      | stop => exact ⟨fun _ => trivial, fun _ => ⟨fun _ h => (nomatch h), fun _ h => (nomatch h)⟩⟩
      | spill => simp [step, hfit.kept.overrun] at hs
      | _ => simp [step, hpc] at hs
    · have hi := hfit.kept.inv hpc
      rw [inRange_iff hp.bounded hi hs]
      constructor
      · intro hacc
        unfold Room
        split
        · exact (hi.accept_iff (hfit.disjoint hpc) hlow).mp (hacc _ rfl)
        · trivial
      · rintro hroom cfd rfl
        exact (hi.accept_iff (hfit.disjoint hpc) hlow).mpr hroom
  rw [allowed_and, allowed_and] at hboth
  exact ⟨fun h => (hboth.mp ⟨hlow, h⟩).2, fun h => (hboth.mpr ⟨hlow, h⟩).2⟩

/-- The numbers in all of a run, the one that `init()` puts into `read_fds` included. -/
def RunInRange (p : Program) (serverFd : Nat) (as : List Action) : Prop :=
  serverFd < fdSetSize ∧ Allowed (InRange p) (step p) (init serverFd) as

/-- **The select servers and `FD_SETSIZE`**: when `accept` returns the lowest number that is not open, all
    numbers of a run are in range exactly if the listening socket is, and at every accept the
    connected clients and what else is open leave a number in range. -/
theorem fd_set_iff (hp : p = runSelectLoop ∨ p = selectLoop) (serverFd : Nat) (inherited : Finset Nat)
    (as : List Action)
    (hlow : Allowed (LowestAccept (insert serverFd inherited)) (step p) (init serverFd) as) :
    RunInRange p serverFd as ↔ serverFd < fdSetSize ∧
      Allowed (Room (insert serverFd inherited)) (step p) (init serverFd) as := by
  refine and_congr_right fun hserver => ?_
  rcases hp with rfl | rfl
  · exact allowed_iff runSelectLoop_sound hserver as hlow
  · exact allowed_iff selectLoop_sound hserver as hlow

/-- One client, which gets the number 4. -/
theorem fd_set_iff_four : RunInRange runSelectLoop 3
    [.test, .select {3}, .scan, .scan, .scan, .scan, .accept (some 4), .scan] := by
  refine (fd_set_iff (Or.inl rfl) 3 {0, 1, 2} _ ?_).mpr ⟨by decide, ?_⟩
  · exact exec_guarded_allowed _ (by decide +kernel)
  · exact exec_guarded_allowed _ (by decide +kernel)

/-! ## Too many clients -/

theorem step_passEnds {fd : Nat} (hpc : s.pc = .scan fd) (hend : p.bound s.maxFd s.curMaxFd < fd) :
    step p s .scan = some { s with pc := .top } := by
  simp [step, hpc, Server.behind, Server.scan, hend, Nat.not_le.mpr hend]

/-- What is asked of the accepts only. -/
def AcceptsOnly (K : Server → Action → Server → Prop) : Prop :=
  ∀ s a s', (∀ cfd, a ≠ .accept (some cfd)) → K s a s'

/-- The loop passes over numbers that have not been reported. -/
theorem sweep {K : Server → Action → Server → Prop} (hK : AcceptsOnly K) (m : Nat) :
    ∀ (s : Server) (fd : Nat), s.pc = .scan fd →
      (∀ f, fd ≤ f → f < fd + m → f ≤ p.bound s.maxFd s.curMaxFd ∧ f < fdSetSize ∧ f ∉ s.tempFds) →
      Reach K (step p) s { s with pc := .scan (fd + m) } := by
  induction m with
  | zero =>
    intro s fd hpc _
    have hs : { s with pc := .scan (fd + 0) } = s := by
      rw [Nat.add_zero, ← hpc]
    rw [hs]
    exact Reach.refl
  | succ m ih =>
    intro s fd hpc hquiet
    obtain ⟨hin, hlt, hnot⟩ := hquiet fd (Nat.le_refl _) (by omega)
    have hs : step p s .scan = some { s with pc := .scan (fd + 1) } := by
      simp [step, hpc, Server.behind, Server.scan, Server.visit, Nat.not_lt.mpr hin, hlt, hnot]
    have hrest := ih { s with pc := .scan (fd + 1) } (fd + 1) rfl
      fun f hge hlt => hquiet f (by omega) (by omega)
    rw [Nat.add_right_comm, Nat.add_assoc] at hrest
    exact (Reach.refl.tail hs (hK _ _ _ (by simp))).trans hrest

/-- The loop comes to the accept of a client that `select` has reported. -/
theorem reach_accept {K : Server → Action → Server → Prop} (hK : AcceptsOnly K) (hp : p.Bounded) (hi : Inv s)
    (hpc : s.pc = .top) (hrun : s.isRunning = true) :
    Reach K (step p) s { s with
      tempFds := {s.serverFd}, curMaxFd := s.maxFd, firstNew := s.table.next, handled := []
      pc := .accept } := by
  have hbit : s.serverFd < fdSetSize := hi.fits _ (Finset.mem_insert_self _ _)
  have hserver : s.serverFd ≤ s.maxFd := by
    rw [hi.maxFd]
    exact le_recompute _ (Finset.mem_insert_self _ _)
  have hbound : s.maxFd ≤ p.bound s.maxFd s.maxFd := by
    simpa using (hp s.maxFd s.maxFd).1
  have htest : step p s .test =
      some { s with tempFds := s.readFds.bits, curMaxFd := s.maxFd, pc := .select } := by
    simp [step, hpc, hrun]
  have hselect : step p { s with tempFds := s.readFds.bits, curMaxFd := s.maxFd, pc := .select }
      (.select {s.serverFd}) = some { s with
        tempFds := {s.serverFd}, curMaxFd := s.maxFd, firstNew := s.table.next, handled := []
        pc := .scan 0 } := by
    have hmem : s.serverFd ∈ s.readFds.bits := by simp [hi.reads]
    refine if_pos ⟨Finset.singleton_subset_iff.mpr hmem, fun fd hfd => ?_⟩
    rw [Finset.mem_singleton.mp hfd]
    exact Nat.lt_succ_of_le hserver
  have hsweep := sweep (p := p) hK s.serverFd
    { s with
      tempFds := {s.serverFd}, curMaxFd := s.maxFd, firstNew := s.table.next, handled := []
      pc := .scan 0 } 0 rfl (fun f _ hlt => ⟨by simp only; omega, by omega, by simp; omega⟩)
  have hscan : step p { s with
      tempFds := {s.serverFd}, curMaxFd := s.maxFd, firstNew := s.table.next, handled := []
      pc := .scan (0 + s.serverFd) } .scan = some { s with
        tempFds := {s.serverFd}, curMaxFd := s.maxFd, firstNew := s.table.next, handled := []
        pc := .accept } := by
    have hin : ¬ p.bound s.maxFd s.maxFd < s.serverFd := by omega
    simp [step, Server.behind, Server.scan, Server.visit, hin, hbit]
  have hok : ∀ s a s', (∀ cfd, a ≠ .accept (some cfd)) → K s a s' := hK
  exact ((Reach.refl.tail htest (hok _ _ _ (by simp))).tail hselect (hok _ _ _ (by simp))).trans
    (hsweep.tail hscan (hok _ _ _ (by simp)))

theorem step_accept {cfd : Nat} (hpc : s.pc = .accept) (hne : cfd ≠ s.serverFd) (hfree : s.table.conn cfd = none) :
    step p s (.accept (some cfd)) = some ((s.done s.serverFd none).acceptClient p cfd) := by
  simp [step, hpc, hne, hfree, Server.done]

/-- The client is accepted, and the pass goes on to its end. -/
theorem reach_top {K : Server → Action → Server → Prop} (hK : AcceptsOnly K) (hp : p.Sound) {cfd : Nat}
    (hi : Inv s) (hpc : s.pc = .accept) (htemp : s.tempFds = {s.serverFd}) (hne : cfd ≠ s.serverFd)
    (hfree : s.table.conn cfd = none) (hcfd : cfd < fdSetSize)
    (haccept : ∀ s', K s (.accept (some cfd)) s') :
    Reach K (step p) s { (s.done s.serverFd none).acceptClient p cfd with pc := .top } := by
  let t := (s.done s.serverFd none).acceptClient p cfd
  have hnext : Inv (s.done s.serverFd none) := hi.goes rfl (by simp [Server.done]) (by simp [Server.done])
  have hit : Inv t := inv_acceptClient hp.grows hnext hne hcfd rfl
  have hsweep := sweep (p := p) hK
    (p.bound t.maxFd t.curMaxFd + 1 - (s.serverFd + 1)) t (s.serverFd + 1) rfl
    (fun f hge hlt => ⟨by omega, hit.bound hp.bounded (by omega), by
      show f ∉ s.tempFds
      rw [htemp, Finset.mem_singleton]
      omega⟩)
  have hend : p.bound t.maxFd t.curMaxFd <
      s.serverFd + 1 + (p.bound t.maxFd t.curMaxFd + 1 - (s.serverFd + 1)) := by omega
  exact (Reach.refl.tail (step_accept hpc hne hfree) (haccept _)).trans
    (hsweep.tail (step_passEnds rfl hend) (hK _ _ _ (by simp)))

/-- Standard input and the other two. -/
def standard : Finset Nat := {0, 1, 2}

/-- The lowest number is accepted, and has a bit. -/
def Arrival (s : Server) (a : Action) (s' : Server) : Prop :=
  LowestAccept (insert 3 standard) s a s' ∧ HasBit s a s'

theorem arrival_acceptsOnly : AcceptsOnly Arrival := by
  intro s a s' ha
  refine ⟨?_, fun cfd he => absurd he (ha cfd)⟩
  unfold LowestAccept
  split
  · exact absurd rfl (ha _)
  · trivial

/-- The listening socket is 3, and `k` clients have come and stayed. -/
structure Crowd (p : Program) (k : Nat) (s : Server) : Prop where
  reach : Reach Arrival (step p) (init 3) s
  running : s.isRunning = true
  server : s.serverFd = 3
  clients : s.clientFds = Finset.Ico 4 (4 + k)

theorem Crowd.inv (hp : p.Sound) {k : Nat} (h : Crowd p k s) (hpc : s.pc ≠ .thrown) : Inv s :=
  (reach_kept hp (by decide) (fun _ _ _ ha => ha.2) h.reach).inv hpc

/-- The next number is the one behind the clients. -/
theorem Crowd.lowest {k : Nat} (h : Crowd p k s) (hi : Inv s) :
    Lowest (fun n => n ∈ insert 3 standard ∨ (s.table.conn n).isSome = true) (4 + k) := by
  have hopen : ∀ n, (s.table.conn n).isSome = true ↔ 4 ≤ n ∧ n < 4 + k := by
    intro n
    rw [← hi.clients, h.clients, Finset.mem_Ico]
  refine ⟨?_, fun n hn => ?_⟩
  · rw [hopen]
    simp [standard]
    omega
  · rw [hopen]
    simp [standard]
    omega

theorem Crowd.free {k : Nat} (h : Crowd p k s) (hi : Inv s) : s.table.conn (4 + k) = none := by
  rw [← Option.not_isSome_iff_eq_none]
  exact fun hopen => (h.lowest hi).free (Or.inr hopen)

/-- A crowd at the head of the loop gets to the accept of one client more. -/
theorem Crowd.arrives (hp : p.Sound) {k : Nat} (h : Crowd p k s) (hpc : s.pc = .top) :
    ∃ t, Crowd p k t ∧ t.pc = .accept ∧ t.tempFds = {t.serverFd} ∧ t.firstNew = t.table.next := by
  have hi := h.inv hp (by simp [hpc])
  have hr := h.reach.trans (reach_accept arrival_acceptsOnly hp.bounded hi hpc h.running)
  exact ⟨_, ⟨hr, h.running, h.server, h.clients⟩, rfl, rfl, rfl⟩

theorem crowd (hp : p.Sound) (k : Nat) (hk : 4 + k ≤ fdSetSize) : ∃ s, Crowd p k s ∧ s.pc = .top := by
  induction k with
  | zero => exact ⟨init 3, ⟨Reach.refl, rfl, rfl, by simp [init]⟩, rfl⟩
  | succ k ih =>
    obtain ⟨s, hs, hpc⟩ := ih (by omega)
    obtain ⟨t, ht, htpc, htemp, -⟩ := hs.arrives hp hpc
    have hi := ht.inv hp (by simp [htpc])
    have hlow := ht.lowest hi
    have hne : 4 + k ≠ t.serverFd := by
      rw [ht.server]
      omega
    have hcfd : 4 + k < fdSetSize := by omega
    have htop := reach_top arrival_acceptsOnly hp hi htpc htemp hne (ht.free hi) hcfd fun s' =>
      ⟨hlow, fun cfd he => by
        cases he
        exact hcfd⟩
    refine ⟨_, ⟨ht.reach.trans htop, ht.running, ht.server, ?_⟩, rfl⟩
    show insert (4 + k) t.clientFds = Finset.Ico 4 (4 + (k + 1))
    ext n
    rw [ht.clients, Finset.mem_insert, Finset.mem_Ico, Finset.mem_Ico]
    omega

/-- With 1020 clients the next one gets the number 1024. -/
theorem overrun (hp : p.Sound) :
    ∃ as, Allowed (LowestAccept (insert 3 standard)) (step p) (init 3) as ∧ ¬ RunInRange p 3 as := by
  obtain ⟨s, hs, hpc⟩ := crowd hp 1020 (by decide)
  obtain ⟨t, ht, htpc, -⟩ := hs.arrives hp hpc
  have hi := ht.inv hp (by simp [htpc])
  obtain ⟨as, hrun, hall⟩ := (ht.reach.mono fun _ _ _ ha => ha.1).exists_exec
  have hstep := step_accept (p := p) htpc (by rw [ht.server]; decide) (ht.free hi)
  refine ⟨as ++ [.accept (some 1024)], ?_, fun hrange => ?_⟩
  · exact (allowed_append as _ hrun).mpr ⟨hall, Allowed.cons hstep (ht.lowest hi) trivial⟩
  · obtain ⟨-, hlast⟩ := (allowed_append as _ hrun).mp hrange.2
    have hbad := (hlast _ hstep).1.applied 1024 (List.mem_singleton_self 1024)
    exact absurd hbad (by decide)

/-- Both programs call `FD_SET` with the number 1024 when a client comes to 1020 others. -/
theorem fd_set_overrun :
    (∃ as, Allowed (LowestAccept (insert 3 standard)) (step runSelectLoop) (init 3) as ∧
      ¬ RunInRange runSelectLoop 3 as) ∧
    ∃ as, Allowed (LowestAccept (insert 3 standard)) (step selectLoop) (init 3) as ∧
      ¬ RunInRange selectLoop 3 as :=
  ⟨overrun runSelectLoop_sound, overrun selectLoop_sound⟩

end CppBackend.Select
