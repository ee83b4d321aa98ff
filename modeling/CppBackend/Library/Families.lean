import CppBackend.Library.Processes

/-!
# A process and its children

A process that forks children which do not fork or wait themselves (`Leaves`).  As long as it runs, it stands at
the front of the table and its children behind it (`Family`); the children in the table and those that it has
waited for are those that it has forked.

* `family_step` — a child makes a step, the parent makes one (`ParentMoves`), or the parent ends;
* `run_family` — the rule for a law of the parent's program points, its children and its own events;
* `Story.stuck_nil` — where a run stops, nobody is left.
-/

set_option autoImplicit false

namespace Library.Processes

open Library.Transition Library.Tally

variable {τ L : Type} {next : τ → Call τ L} {s s' : System τ L} {a : Action}

/-- The process whose call, or whose end, it is. -/
def Event.by : Event L → Nat
  | .forked pid _ | .forkFailed pid | .printed pid _ | .ended pid _ | .reaped pid _ _ | .noChild pid => pid

/-- The events of one process. -/
def own (pid : Nat) (log : List (Event L)) : List (Event L) := log.filter fun e => decide (e.by = pid)

/-- The children that a process has forked, from its events. -/
def forked (events : List (Event L)) : List Nat :=
  events.filterMap fun e => match e with
    | .forked _ child => some child
    | _ => none

/-- The children that it has waited for. -/
def waited (events : List (Event L)) : List Nat :=
  events.filterMap fun e => match e with
    | .reaped _ child _ => some child
    | _ => none

/-- Whether the last `fork` has succeeded. -/
def lastFork (events : List (Event L)) : Option Bool :=
  (events.filterMap fun e => match e with
    | .forked _ _ => some true
    | .forkFailed _ => some false
    | _ => none).getLast?

/-- What a process has printed. -/
def lines (events : List (Event L)) : List L :=
  events.filterMap fun e => match e with
    | .printed _ line => some line
    | _ => none

section Events

variable (es : List (Event L)) (pid child : Nat) (status : Status) (line : L)

@[simp] theorem forked_forked : forked (es ++ [.forked pid child]) = forked es ++ [child] := by simp [forked]

@[simp] theorem forked_forkFailed : forked (es ++ [.forkFailed pid]) = forked es := by simp [forked]

@[simp] theorem forked_printed : forked (es ++ [.printed pid line]) = forked es := by simp [forked]

@[simp] theorem forked_noChild : forked (es ++ [.noChild pid]) = forked es := by simp [forked]

@[simp] theorem forked_reaped : forked (es ++ [.reaped pid child status]) = forked es := by simp [forked]

@[simp] theorem waited_forked : waited (es ++ [.forked pid child]) = waited es := by simp [waited]

@[simp] theorem waited_forkFailed : waited (es ++ [.forkFailed pid]) = waited es := by simp [waited]

@[simp] theorem waited_printed : waited (es ++ [.printed pid line]) = waited es := by simp [waited]

@[simp] theorem waited_noChild : waited (es ++ [.noChild pid]) = waited es := by simp [waited]

@[simp] theorem waited_reaped : waited (es ++ [.reaped pid child status]) = waited es ++ [child] := by simp [waited]

@[simp] theorem lastFork_forked : lastFork (es ++ [.forked pid child]) = some true := by simp [lastFork]

@[simp] theorem lastFork_forkFailed : lastFork (es ++ [.forkFailed pid]) = some false := by simp [lastFork]

@[simp] theorem lastFork_printed : lastFork (es ++ [.printed pid line]) = lastFork es := by simp [lastFork]

@[simp] theorem lastFork_noChild : lastFork (es ++ [.noChild pid]) = lastFork es := by simp [lastFork]

@[simp] theorem lastFork_reaped : lastFork (es ++ [.reaped pid child status]) = lastFork es := by simp [lastFork]

@[simp] theorem lines_forked : lines (es ++ [.forked pid child]) = lines es := by simp [lines]

@[simp] theorem lines_forkFailed : lines (es ++ [.forkFailed pid]) = lines es := by simp [lines]

@[simp] theorem lines_printed : lines (es ++ [.printed pid line]) = lines es ++ [line] := by simp [lines]

@[simp] theorem lines_noChild : lines (es ++ [.noChild pid]) = lines es := by simp [lines]

@[simp] theorem lines_reaped : lines (es ++ [.reaped pid child status]) = lines es := by simp [lines]

end Events

theorem own_append (pid : Nat) (log : List (Event L)) (e : Event L) :
    own pid (log ++ [e]) = own pid log ++ if e.by = pid then [e] else [] := by
  unfold own
  rw [List.filter_append]
  by_cases h : e.by = pid <;> simp [h]

theorem own_append_own {pid : Nat} {log : List (Event L)} {e : Event L} (h : e.by = pid) :
    own pid (log ++ [e]) = own pid log ++ [e] := by rw [own_append, if_pos h]

theorem own_append_other {pid : Nat} {log : List (Event L)} {e : Event L} (h : e.by ≠ pid) :
    own pid (log ++ [e]) = own pid log := by rw [own_append, if_neg h, List.append_nil]

/-- Children begin at leaves; at a leaf a process prints and goes on to a leaf, or ends. -/
structure Leaves (next : τ → Call τ L) (leaf : τ → Bool) : Prop where
  child : ∀ {pc inChild inParent failed}, next pc = .fork inChild inParent failed → leaf inChild = true
  next : ∀ {pc}, leaf pc = true →
    (∃ line pc', next pc = .put line pc' ∧ leaf pc' = true) ∨ ∃ code, next pc = .exit code

/-- A child begins at a leaf. -/
def Call.StartsLeaf (leaf : τ → Bool) : Call τ L → Prop
  | .fork inChild _ _ => leaf inChild = true
  | .wait _ _ | .put _ _ | .exit _ => True

/-- A call that a leaf may make. -/
def Call.OfLeaf (leaf : τ → Bool) : Call τ L → Prop
  | .put _ pc' => leaf pc' = true
  | .exit _ => True
  | .fork _ _ _ | .wait _ _ => False

theorem Leaves.of_calls {leaf : τ → Bool} (child : ∀ pc, (next pc).StartsLeaf leaf)
    (hnext : ∀ pc, leaf pc = true → (next pc).OfLeaf leaf) : Leaves next leaf := by
  constructor
  · intro pc inChild inParent failed h
    have hc := child pc
    rwa [h] at hc
  · intro pc hleaf
    have hc := hnext pc hleaf
    cases h : next pc with
    | put line pc' =>
      rw [h] at hc
      exact Or.inl ⟨line, pc', rfl, hc⟩
    | exit code => exact Or.inr ⟨code, rfl⟩
    | fork | wait =>
      rw [h] at hc
      exact hc.elim

/-- A process that is no more than a leaf. -/
def Idle (leaf : τ → Bool) (p : Proc τ) : Prop := ∀ pc, p.life = .running pc → leaf pc = true

structure Family (leaf : τ → Bool) (pid ppid : Nat) (s : System τ L) (pc : τ) (kids : List (Proc τ)) : Prop where
  procs : s.procs = ⟨pid, ppid, .running pc⟩ :: kids
  kid : ∀ k ∈ kids, k.ppid = pid ∧ Idle leaf k
  distinct : (pids s.procs).Nodup
  outside : ∀ p ∈ pids s.procs, p ∉ s.outer
  parent : ppid ∈ s.outer
  reaper : s.reaper ∈ s.outer
  account : (pids kids ++ waited (own pid s.log)).Perm (forked (own pid s.log))

/-- The process has ended, and nobody else can fork or wait. -/
structure Over (leaf : τ → Bool) (pid : Nat) (s : System τ L) : Prop where
  idle : ∀ p ∈ s.procs, Idle leaf p
  ended : ∀ p ∈ s.procs, p.pid = pid → ∃ status, p.life = .zombie status
  orphans : ∀ p ∈ s.procs, p.pid ≠ pid → p.ppid = s.reaper
  parent : ∀ p ∈ s.procs, p.pid = pid → p.ppid ∈ s.outer
  outside : pid ∉ s.outer
  reaper : s.reaper ∈ s.outer

/-- A step of the parent, with what it does to its children. -/
inductive ParentMoves (next : τ → Call τ L) (pid ppid : Nat) (pc : τ) (kids : List (Proc τ)) :
    Event L → τ → List (Proc τ) → Prop where
  | fork {inChild failed : τ} {inParent : Nat → τ} {child : Nat} (hn : next pc = .fork inChild inParent failed) :
      ParentMoves next pid ppid pc kids (.forked pid child) (inParent child) (kids ++ [⟨child, pid, .running inChild⟩])
  | forkFails {inChild failed : τ} {inParent : Nat → τ} (hn : next pc = .fork inChild inParent failed) :
      ParentMoves next pid ppid pc kids (.forkFailed pid) failed kids
  | reap {noChild : τ} {reaped : Nat → Status → τ} {j child : Nat} {status : Status}
      (hn : next pc = .wait reaped noChild) (hj : kids[j]? = some ⟨child, pid, .zombie status⟩) :
      ParentMoves next pid ppid pc kids (.reaped pid child status) (reaped child status) (kids.eraseIdx j)
  | noChild {noChild : τ} {reaped : Nat → Status → τ} (hn : next pc = .wait reaped noChild) (h : kids = []) :
      ParentMoves next pid ppid pc kids (.noChild pid) noChild kids
  | put {pc' : τ} {line : Nat → Nat → L} (hn : next pc = .put line pc') :
      ParentMoves next pid ppid pc kids (.printed pid (line pid ppid)) pc' kids

/-- What a step of a family comes to. -/
inductive FamilyMoves (next : τ → Call τ L) (leaf : τ → Bool) (pid ppid : Nat) (s : System τ L) (pc : τ)
    (kids : List (Proc τ)) (s' : System τ L) : Prop where
  | child (kids' : List (Proc τ)) (hf : Family leaf pid ppid s' pc kids') (hp : pids kids' = pids kids)
      (ho : own pid s'.log = own pid s.log)
  | parent (e : Event L) (pc' : τ) (kids' : List (Proc τ)) (hm : ParentMoves next pid ppid pc kids e pc' kids')
      (hf : Family leaf pid ppid s' pc' kids') (ho : own pid s'.log = own pid s.log ++ [e])
  | ends (status : Status)
      (hs : (∃ code, next pc = .exit code ∧ status = .exited code) ∨ ∃ sig, status = .signaled sig)
      (hover : Over leaf pid s') (ho : own pid s'.log = own pid s.log ++ [.ended pid status])

variable {leaf : τ → Bool} {pid ppid : Nat} {pc : τ} {kids : List (Proc τ)}

theorem orphan_ppid {r q : Nat} {p : Proc τ} (h : p.ppid = r ∨ p.ppid = q) : (orphan r q p).ppid = r := by
  unfold orphan
  split
  · rfl
  · rename_i hne
    exact h.resolve_right hne

theorem orphan_outer {outer : List Nat} {r q : Nat} (hreaper : r ∈ outer) {p : Proc τ} (h : p.ppid ∈ outer) :
    (orphan r q p).ppid ∈ outer := by
  unfold orphan
  split
  · exact hreaper
  · exact h

/-! ## A step of a child -/

theorem Family.pids_eq (hf : Family leaf pid ppid s pc kids) : pids s.procs = pid :: pids kids := by
  rw [hf.procs]
  rfl

theorem Family.kid_ne (hf : Family leaf pid ppid s pc kids) {k : Proc τ} (hk : k ∈ kids) : k.pid ≠ pid := by
  intro he
  have hd := hf.distinct
  rw [hf.pids_eq, List.nodup_cons] at hd
  exact hd.1 (he ▸ List.mem_map_of_mem hk)

theorem pids_set {procs : List (Proc τ)} {k : Nat} {p q : Proc τ} (hk : procs[k]? = some p) (h : q.pid = p.pid) :
    pids (procs.set k q) = pids procs := by
  obtain ⟨hlt, rfl⟩ := List.getElem?_eq_some_iff.mp hk
  unfold pids
  rw [List.map_set, h, ← List.map_set, List.set_getElem_self]

/-- A child prints. -/
theorem child_goes (hf : Family leaf pid ppid s pc kids) {k child q : Nat} {pc₁ pc₂ : τ} {e : Event L}
    (hk : kids[k]? = some ⟨child, q, .running pc₁⟩) (hleaf : leaf pc₂ = true) (he : e.by = child) :
    FamilyMoves next leaf pid ppid s pc kids (s.goes (k + 1) ⟨child, q, .running pc₁⟩ pc₂ e) := by
  have hmem := List.mem_of_getElem? hk
  have hne : child ≠ pid := hf.kid_ne hmem
  have hpids : pids (kids.set k ⟨child, q, .running pc₂⟩) = pids kids := pids_set hk rfl
  have hprocs : (s.goes (k + 1) ⟨child, q, .running pc₁⟩ pc₂ e).procs =
      ⟨pid, ppid, .running pc⟩ :: kids.set k ⟨child, q, .running pc₂⟩ := by
    unfold System.goes
    rw [hf.procs]
    rfl
  have hall : pids (s.goes (k + 1) ⟨child, q, .running pc₁⟩ pc₂ e).procs = pids s.procs := by
    rw [hprocs, hf.pids_eq, ← hpids]
    rfl
  have hown : own pid (s.goes (k + 1) ⟨child, q, .running pc₁⟩ pc₂ e).log = own pid s.log :=
    own_append_other (he ▸ hne)
  refine .child (kids.set k ⟨child, q, .running pc₂⟩)
    ⟨hprocs, fun p hp => ?_, ?_, ?_, hf.parent, hf.reaper, ?_⟩ hpids hown
  · rcases List.mem_or_eq_of_mem_set hp with hold | rfl
    · exact hf.kid p hold
    · refine ⟨(hf.kid _ hmem).1, fun pc' hpc' => ?_⟩
      cases hpc'
      exact hleaf
  · rw [hall]
    exact hf.distinct
  · rw [hall]
    exact hf.outside
  · rw [hown, hpids]
    exact hf.account

/-- A child ends. -/
theorem child_ends (hf : Family leaf pid ppid s pc kids) {k child q : Nat} {pc₁ : τ} {status : Status}
    (hk : kids[k]? = some ⟨child, q, .running pc₁⟩) :
    FamilyMoves next leaf pid ppid s pc kids (s.ends (k + 1) ⟨child, q, .running pc₁⟩ status) := by
  have hmem := List.mem_of_getElem? hk
  have hne : child ≠ pid := hf.kid_ne hmem
  have hpids : pids (kids.set k ⟨child, q, .zombie status⟩) = pids kids := pids_set hk rfl
  have hkids : ∀ p ∈ kids.set k ⟨child, q, .zombie status⟩, p.ppid = pid ∧ Idle leaf p := by
    intro p hp
    rcases List.mem_or_eq_of_mem_set hp with hold | rfl
    · exact hf.kid p hold
    · refine ⟨(hf.kid _ hmem).1, fun pc' hpc' => ?_⟩
      cases hpc'
  -- Nobody in the table is a child of a child.
  have horphan : ∀ p ∈ (⟨pid, ppid, .running pc⟩ : Proc τ) :: kids.set k ⟨child, q, .zombie status⟩,
      orphan s.reaper child p = p := by
    intro p hp
    refine if_neg fun hpp => ?_
    rcases List.mem_cons.mp hp with rfl | hp
    · have hout : child ∈ pids s.procs := by
        rw [hf.pids_eq]
        exact List.mem_cons_of_mem _ (List.mem_map_of_mem hmem)
      have hpp' : ppid = child := hpp
      exact hf.outside child hout (hpp' ▸ hf.parent)
    · exact hne (hpp.symm.trans (hkids p hp).1)
  have hprocs : (s.ends (k + 1) ⟨child, q, .running pc₁⟩ status).procs =
      ⟨pid, ppid, .running pc⟩ :: kids.set k ⟨child, q, .zombie status⟩ := by
    unfold System.ends
    rw [hf.procs]
    exact (List.map_congr_left horphan).trans (List.map_id _)
  have hall : pids (s.ends (k + 1) ⟨child, q, .running pc₁⟩ status).procs = pids s.procs := by
    rw [hprocs, hf.pids_eq, ← hpids]
    rfl
  have hown : own pid (s.ends (k + 1) ⟨child, q, .running pc₁⟩ status).log = own pid s.log :=
    own_append_other hne
  refine .child (kids.set k ⟨child, q, .zombie status⟩) ⟨hprocs, hkids, ?_, ?_, hf.parent, hf.reaper, ?_⟩ hpids hown
  · rw [hall]
    exact hf.distinct
  · rw [hall]
    exact hf.outside
  · rw [hown, hpids]
    exact hf.account

/-! ## A step of the parent -/

/-- The parent goes on, and its children stay. -/
theorem parent_goes (hf : Family leaf pid ppid s pc kids) {pc' : τ} {e : Event L}
    (hm : ParentMoves next pid ppid pc kids e pc' kids) (he : e.by = pid) (hn : forked [e] = [])
    (hw : waited [e] = []) :
    FamilyMoves next leaf pid ppid s pc kids (s.goes 0 ⟨pid, ppid, .running pc⟩ pc' e) := by
  have hprocs : (s.goes 0 ⟨pid, ppid, .running pc⟩ pc' e).procs = ⟨pid, ppid, .running pc'⟩ :: kids := by
    unfold System.goes
    rw [hf.procs]
    rfl
  have hall : pids (s.goes 0 ⟨pid, ppid, .running pc⟩ pc' e).procs = pids s.procs := by
    rw [hprocs, hf.pids_eq]
    rfl
  have hown : own pid (s.goes 0 ⟨pid, ppid, .running pc⟩ pc' e).log = own pid s.log ++ [e] := own_append_own he
  refine .parent e pc' kids hm ⟨hprocs, hf.kid, ?_, ?_, hf.parent, hf.reaper, ?_⟩ hown
  · rw [hall]
    exact hf.distinct
  · rw [hall]
    exact hf.outside
  · have hforked : forked (own pid s.log ++ [e]) = forked (own pid s.log) := by
      unfold forked at hn ⊢
      rw [List.filterMap_append, hn, List.append_nil]
    have hwaited : waited (own pid s.log ++ [e]) = waited (own pid s.log) := by
      unfold waited at hw ⊢
      rw [List.filterMap_append, hw, List.append_nil]
    rw [hown, hforked, hwaited]
    exact hf.account

/-- The parent forks. -/
theorem parent_forks (hf : Family leaf pid ppid s pc kids) {inChild failed : τ} {inParent : Nat → τ} {child : Nat}
    (hn : next pc = .fork inChild inParent failed) (hleaf : leaf inChild = true) (ho : child ∉ s.outer)
    (hp : child ∉ pids s.procs) :
    FamilyMoves next leaf pid ppid s pc kids
      (s.forks 0 ⟨pid, ppid, .running pc⟩ inChild (inParent child) child) := by
  have hprocs : (s.forks 0 ⟨pid, ppid, .running pc⟩ inChild (inParent child) child).procs =
      ⟨pid, ppid, .running (inParent child)⟩ :: (kids ++ [⟨child, pid, .running inChild⟩]) := by
    unfold System.forks
    rw [hf.procs]
    rfl
  have hall : pids (s.forks 0 ⟨pid, ppid, .running pc⟩ inChild (inParent child) child).procs =
      pids s.procs ++ [child] := by
    rw [hprocs, hf.pids_eq]
    simp [pids]
  have hown : own pid (s.forks 0 ⟨pid, ppid, .running pc⟩ inChild (inParent child) child).log =
      own pid s.log ++ [.forked pid child] := own_append_own rfl
  refine .parent _ _ _ (.fork hn) ⟨hprocs, fun k hk => ?_, ?_, ?_, hf.parent, hf.reaper, ?_⟩ hown
  · rcases List.mem_append.mp hk with hold | hnew
    · exact hf.kid k hold
    · rw [List.mem_singleton] at hnew
      subst hnew
      refine ⟨rfl, fun pc' hpc' => ?_⟩
      cases hpc'
      exact hleaf
  · rw [hall, List.nodup_append]
    refine ⟨hf.distinct, by simp, fun x hx y hy hxy => ?_⟩
    rw [List.mem_singleton] at hy
    exact hp (hy ▸ hxy ▸ hx)
  · intro x hx
    rw [hall, List.mem_append, List.mem_singleton] at hx
    rcases hx with hold | rfl
    · exact hf.outside x hold
    · exact ho
  · have hpids : pids (kids ++ [⟨child, pid, .running inChild⟩]) = pids kids ++ [child] := by simp [pids]
    have hmove : (pids kids ++ [child] ++ waited (own pid s.log)).Perm
        (pids kids ++ waited (own pid s.log) ++ [child]) := by
      rw [List.append_assoc, List.append_assoc]
      exact List.perm_append_comm.append_left _
    rw [hown, hpids, waited_forked, forked_forked]
    exact hmove.trans (hf.account.append_right [child])

/-- The parent waits for a child that has ended. -/
theorem parent_reaps (hf : Family leaf pid ppid s pc kids) {noChild : τ} {reaped : Nat → Status → τ} {j child : Nat}
    {status : Status} (hn : next pc = .wait reaped noChild) (hj : kids[j]? = some ⟨child, pid, .zombie status⟩) :
    FamilyMoves next leaf pid ppid s pc kids
      (s.reaps 0 ⟨pid, ppid, .running pc⟩ (reaped child status) (j + 1) child status) := by
  have hprocs : (s.reaps 0 ⟨pid, ppid, .running pc⟩ (reaped child status) (j + 1) child status).procs =
      ⟨pid, ppid, .running (reaped child status)⟩ :: kids.eraseIdx j := by
    unfold System.reaps
    rw [hf.procs]
    rfl
  have hsub : (pids (s.reaps 0 ⟨pid, ppid, .running pc⟩ (reaped child status) (j + 1) child status).procs).Sublist
      (pids s.procs) := by
    rw [hprocs, hf.procs]
    exact List.Sublist.cons_cons _ ((List.eraseIdx_sublist kids j).map Proc.pid)
  have hown : own pid (s.reaps 0 ⟨pid, ppid, .running pc⟩ (reaped child status) (j + 1) child status).log =
      own pid s.log ++ [.reaped pid child status] := own_append_own rfl
  refine .parent _ _ _ (.reap hn hj) ⟨hprocs, fun k hk => hf.kid k (List.mem_of_mem_eraseIdx hk),
    hf.distinct.sublist hsub, fun x hx => hf.outside x (hsub.subset hx), hf.parent, hf.reaper, ?_⟩ hown
  obtain ⟨hlt, hget⟩ := List.getElem?_eq_some_iff.mp hj
  have hperm : (child :: pids (kids.eraseIdx j)).Perm (pids kids) := by
    have := (List.getElem_cons_eraseIdx_perm hlt).map Proc.pid
    rwa [List.map_cons, hget] at this
  rw [hown, forked_reaped, waited_reaped]
  refine List.Perm.trans ?_ hf.account
  rw [← List.append_assoc]
  exact (List.perm_append_singleton _ _).trans (hperm.append_right _)

/-- The parent ends. -/
theorem parent_ends (hf : Family leaf pid ppid s pc kids) {status : Status}
    (hs : (∃ code, next pc = .exit code ∧ status = .exited code) ∨ ∃ sig, status = .signaled sig) :
    FamilyMoves next leaf pid ppid s pc kids (s.ends 0 ⟨pid, ppid, .running pc⟩ status) := by
  have hprocs : (s.ends 0 ⟨pid, ppid, .running pc⟩ status).procs =
      (⟨pid, ppid, .zombie status⟩ :: kids).map (orphan s.reaper pid) := by
    unfold System.ends
    rw [hf.procs]
    rfl
  have hout : pid ∉ s.outer := hf.outside pid (by rw [hf.pids_eq]; exact List.mem_cons_self)
  refine .ends status hs ⟨fun p hp => ?_, fun p hp hpid => ?_, fun p hp hpid => ?_, fun p hp hpid => ?_, hout,
    hf.reaper⟩ (own_append_own rfl)
  · rw [hprocs] at hp
    obtain ⟨q, hq, rfl⟩ := List.mem_map.mp hp
    unfold Idle
    rw [orphan_life]
    rcases List.mem_cons.mp hq with rfl | hq
    · exact fun pc' hpc' => by cases hpc'
    · exact (hf.kid q hq).2
  · rw [hprocs] at hp
    obtain ⟨q, hq, rfl⟩ := List.mem_map.mp hp
    rw [orphan_pid] at hpid
    rw [orphan_life]
    rcases List.mem_cons.mp hq with rfl | hq
    · exact ⟨status, rfl⟩
    · exact absurd hpid (hf.kid_ne hq)
  · rw [hprocs] at hp
    obtain ⟨q, hq, rfl⟩ := List.mem_map.mp hp
    rw [orphan_pid] at hpid
    apply orphan_ppid
    rcases List.mem_cons.mp hq with rfl | hq
    · exact absurd rfl hpid
    · exact Or.inr (hf.kid q hq).1
  · rw [hprocs] at hp
    obtain ⟨q, hq, rfl⟩ := List.mem_map.mp hp
    rw [orphan_pid] at hpid
    apply orphan_outer hf.reaper
    rcases List.mem_cons.mp hq with rfl | hq
    · exact hf.parent
    · exact absurd hpid (hf.kid_ne hq)

/-! ## A step of the family -/

theorem Leaves.not_fork (hl : Leaves next leaf) {pc inChild failed : τ} {inParent : Nat → τ} (h : leaf pc = true)
    (hn : next pc = .fork inChild inParent failed) : False := by
  rcases hl.next h with ⟨line, pc', hput, -⟩ | ⟨code, hexit⟩
  · rw [hn] at hput
    cases hput
  · rw [hn] at hexit
    cases hexit

theorem Leaves.not_wait (hl : Leaves next leaf) {pc noChild : τ} {reaped : Nat → Status → τ} (h : leaf pc = true)
    (hn : next pc = .wait reaped noChild) : False := by
  rcases hl.next h with ⟨line, pc', hput, -⟩ | ⟨code, hexit⟩
  · rw [hn] at hput
    cases hput
  · rw [hn] at hexit
    cases hexit

/-- **A step of a family**: a child's, the parent's, or the parent's last. -/
theorem family_step (hl : Leaves next leaf) (hf : Family leaf pid ppid s pc kids) (h : step next s a = some s') :
    FamilyMoves next leaf pid ppid s pc kids s' := by
  -- A running process is the parent, or a child at a leaf.
  have hwho : ∀ {i p q : Nat} {pc₁ : τ}, s.procs[i]? = some ⟨p, q, .running pc₁⟩ →
      (i = 0 ∧ p = pid ∧ q = ppid ∧ pc₁ = pc) ∨
      ∃ k, i = k + 1 ∧ kids[k]? = some ⟨p, q, .running pc₁⟩ ∧ leaf pc₁ = true := by
    intro i p q pc₁ hi
    rw [hf.procs] at hi
    cases i with
    | zero =>
      cases hi
      exact Or.inl ⟨rfl, rfl, rfl, rfl⟩
    | succ k => exact Or.inr ⟨k, rfl, hi, (hf.kid _ (List.mem_of_getElem? hi)).2 _ rfl⟩
  cases step_moves h with
  | fork hi hn ho hp =>
    rcases hwho hi with ⟨rfl, rfl, rfl, rfl⟩ | ⟨k, rfl, hk, hleaf⟩
    · exact parent_forks hf hn (hl.child hn) ho hp
    · exact (hl.not_fork hleaf hn).elim
  | forkFails hi hn =>
    rcases hwho hi with ⟨rfl, rfl, rfl, rfl⟩ | ⟨k, rfl, hk, hleaf⟩
    · exact parent_goes hf (.forkFails hn) rfl rfl rfl
    · exact (hl.not_fork hleaf hn).elim
  | @reap i p q j child pc₁ noChild reaped status hi hn hj =>
    rcases hwho hi with ⟨rfl, rfl, rfl, rfl⟩ | ⟨k, rfl, hk, hleaf⟩
    · rw [hf.procs] at hj
      cases j with
      | zero => cases hj
      | succ j => exact parent_reaps hf hn hj
    · exact (hl.not_wait hleaf hn).elim
  | noChild hi hn hnone =>
    rcases hwho hi with ⟨rfl, rfl, rfl, rfl⟩ | ⟨k, rfl, hk, hleaf⟩
    · refine parent_goes hf (.noChild hn (List.eq_nil_iff_forall_not_mem.mpr fun q hq => ?_)) rfl rfl rfl
      exact hnone q (by rw [hf.procs]; exact List.mem_cons_of_mem _ hq) (hf.kid q hq).1
    · exact (hl.not_wait hleaf hn).elim
  | put hi hn =>
    rcases hwho hi with ⟨rfl, rfl, rfl, rfl⟩ | ⟨k, rfl, hk, hleaf⟩
    · exact parent_goes hf (.put hn) rfl rfl rfl
    · rcases hl.next hleaf with ⟨line, pc', hput, hleaf'⟩ | ⟨code, hexit⟩
      · rw [hn] at hput
        cases hput
        exact child_goes hf hk hleaf' rfl
      · rw [hn] at hexit
        cases hexit
  | exit hi hn =>
    rcases hwho hi with ⟨rfl, rfl, rfl, rfl⟩ | ⟨k, rfl, hk, hleaf⟩
    · exact parent_ends hf (Or.inl ⟨_, hn, rfl⟩)
    · exact child_ends hf hk
  | kill hi =>
    rcases hwho hi with ⟨rfl, rfl, rfl, rfl⟩ | ⟨k, rfl, hk, hleaf⟩
    · exact parent_ends hf (Or.inr ⟨_, rfl⟩)
    · exact child_ends hf hk
  | @adopt i p q status hi ho =>
    rw [hf.procs] at hi
    cases i with
    | zero => cases hi
    | succ k =>
      have hq : q = pid := (hf.kid _ (List.mem_of_getElem? hi)).1
      exact absurd (hq ▸ ho) (hf.outside pid (by rw [hf.pids_eq]; exact List.mem_cons_self))

/-- When the parent has ended, nothing is forked or waited for any more, except by processes outside. -/
theorem over_step (hl : Leaves next leaf) (ho : Over leaf pid s) (h : step next s a = some s') :
    Over leaf pid s' ∧ own pid s'.log = own pid s.log := by
  have hleaf : ∀ {i p q : Nat} {pc₁ : τ}, s.procs[i]? = some ⟨p, q, .running pc₁⟩ → leaf pc₁ = true := fun hi =>
    ho.idle _ (List.mem_of_getElem? hi) _ rfl
  have hne : ∀ {i p q : Nat} {pc₁ : τ}, s.procs[i]? = some ⟨p, q, .running pc₁⟩ → p ≠ pid := by
    rintro i p q pc₁ hi rfl
    obtain ⟨status, hst⟩ := ho.ended _ (List.mem_of_getElem? hi) rfl
    cases hst
  have hends : ∀ {i p q : Nat} {pc₁ : τ} {status : Status}, s.procs[i]? = some ⟨p, q, .running pc₁⟩ →
      Over leaf pid (s.ends i ⟨p, q, .running pc₁⟩ status) := by
    intro i p q pc₁ status hi
    refine ⟨fun x hx => ?_, fun x hx hxp => ?_, fun x hx hxp => ?_, fun x hx hxp => ?_, ho.outside, ho.reaper⟩
    · obtain ⟨y, hy, rfl⟩ := List.mem_map.mp hx
      unfold Idle
      rw [orphan_life]
      rcases List.mem_or_eq_of_mem_set hy with hold | rfl
      · exact ho.idle y hold
      · exact fun pc' hpc' => by cases hpc'
    · obtain ⟨y, hy, rfl⟩ := List.mem_map.mp hx
      rw [orphan_pid] at hxp
      rw [orphan_life]
      rcases List.mem_or_eq_of_mem_set hy with hold | rfl
      · exact ho.ended y hold hxp
      · exact ⟨status, rfl⟩
    · obtain ⟨y, hy, rfl⟩ := List.mem_map.mp hx
      rw [orphan_pid] at hxp
      apply orphan_ppid
      rcases List.mem_or_eq_of_mem_set hy with hold | rfl
      · exact Or.inl (ho.orphans y hold hxp)
      · exact Or.inl (ho.orphans ⟨p, q, .running pc₁⟩ (List.mem_of_getElem? hi) hxp)
    · obtain ⟨y, hy, rfl⟩ := List.mem_map.mp hx
      rw [orphan_pid] at hxp
      apply orphan_outer ho.reaper
      rcases List.mem_or_eq_of_mem_set hy with hold | rfl
      · exact ho.parent y hold hxp
      · exact absurd hxp (hne hi)
  cases step_moves h with
  | fork hi hn | forkFails hi hn => exact (hl.not_fork (hleaf hi) hn).elim
  | reap hi hn | noChild hi hn => exact (hl.not_wait (hleaf hi) hn).elim
  | @put i p q choice pc₁ pc₂ line hi hn =>
    have hleaf' : leaf pc₂ = true := by
      rcases hl.next (hleaf hi) with ⟨line', pc', hput, hpc'⟩ | ⟨code, hexit⟩
      · rw [hn] at hput
        cases hput
        exact hpc'
      · rw [hn] at hexit
        cases hexit
    refine ⟨⟨fun x hx => ?_, fun x hx hxp => ?_, fun x hx hxp => ?_, fun x hx hxp => ?_, ho.outside, ho.reaper⟩,
      own_append_other (hne hi)⟩
    · rcases List.mem_or_eq_of_mem_set hx with hold | rfl
      · exact ho.idle x hold
      · intro pc' hpc'
        cases hpc'
        exact hleaf'
    · rcases List.mem_or_eq_of_mem_set hx with hold | rfl
      · exact ho.ended x hold hxp
      · exact absurd hxp (hne hi)
    · rcases List.mem_or_eq_of_mem_set hx with hold | rfl
      · exact ho.orphans x hold hxp
      · exact ho.orphans ⟨p, q, .running pc₁⟩ (List.mem_of_getElem? hi) hxp
    · rcases List.mem_or_eq_of_mem_set hx with hold | rfl
      · exact ho.parent x hold hxp
      · exact absurd hxp (hne hi)
  | exit hi hn => exact ⟨hends hi, own_append_other (hne hi)⟩
  | kill hi => exact ⟨hends hi, own_append_other (hne hi)⟩
  | @adopt i p q status hi hq =>
    refine ⟨⟨fun x hx => ho.idle x (List.mem_of_mem_eraseIdx hx),
      fun x hx => ho.ended x (List.mem_of_mem_eraseIdx hx), fun x hx => ho.orphans x (List.mem_of_mem_eraseIdx hx),
      fun x hx => ho.parent x (List.mem_of_mem_eraseIdx hx), ho.outside, ho.reaper⟩, own_append_other ?_⟩
    rintro rfl
    exact ho.outside hq

/-- The process runs. -/
def Stands (pid : Nat) (s : System τ L) : Prop := ∃ p ∈ s.procs, p.pid = pid ∧ p.life.runs = true

theorem not_stands {pid : Nat} (h : ∀ p ∈ s.procs, ¬ (p.pid = pid ∧ p.life.runs = true)) : ¬ Stands pid s := by
  rintro ⟨p, hp, hruns⟩
  exact h p hp hruns

theorem Over.not_stands (ho : Over leaf pid s) : ¬ Stands pid s := by
  rintro ⟨p, hp, hpid, hruns⟩
  obtain ⟨status, hst⟩ := ho.ended p hp hpid
  rw [hst] at hruns
  cases hruns

theorem Family.stands (hf : Family leaf pid ppid s pc kids) : Stands pid s :=
  ⟨⟨pid, ppid, .running pc⟩, by rw [hf.procs]; exact List.mem_cons_self, rfl, rfl⟩

/-- A law of the parent's program points, its children and its events holds as long as the parent runs; a law of
    its events holds behind its end. -/
inductive Story (leaf : τ → Bool) (pid ppid : Nat) (I : τ → List (Proc τ) → List (Event L) → Prop)
    (F : List (Event L) → Prop) (s : System τ L) : Prop where
  | running (pc : τ) (kids : List (Proc τ)) (hf : Family leaf pid ppid s pc kids) (hI : I pc kids (own pid s.log))
  | ended (ho : Over leaf pid s) (hF : F (own pid s.log))

variable {I : τ → List (Proc τ) → List (Event L) → Prop} {F : List (Event L) → Prop} {outer : List Nat} {reaper : Nat}
  {ok : System τ L → Action → System τ L → Prop}

/-- **Rule for laws of a family.**  Only the numbers of the children may matter. -/
theorem run_family (hl : Leaves next leaf) (hpid : pid ∉ outer) (hppid : ppid ∈ outer) (hreaper : reaper ∈ outer)
    (h0 : I pc [] [])
    (hkids : ∀ pc kids kids' es, I pc kids es → pids kids' = pids kids → I pc kids' es)
    (hparent : ∀ pc kids es e pc' kids', I pc kids es → ParentMoves next pid ppid pc kids e pc' kids' →
      (pids kids').Nodup → (pids kids' ++ waited (es ++ [e])).Perm (forked (es ++ [e])) → I pc' kids' (es ++ [e]))
    (hends : ∀ pc kids es status, I pc kids es → (pids kids ++ waited es).Perm (forked es) →
      ((∃ code, next pc = .exit code ∧ status = .exited code) ∨ ∃ sig, status = .signaled sig) →
      F (es ++ [.ended pid status]))
    (h : Reach ok (step next) (start outer reaper pid ppid pc) s) : Story leaf pid ppid I F s := by
  refine h.invariant (I := Story leaf pid ppid I F) ?_ fun s a s' hi hs _ => ?_
  · refine .running pc []
      ⟨rfl, fun k hk => (by cases hk), by simp [start, pids], ?_, hppid, hreaper, List.Perm.refl _⟩ h0
    intro p hp
    have hp' : p = pid := by simpa [start, pids] using hp
    exact hp' ▸ hpid
  · cases hi with
    | ended ho hF =>
      obtain ⟨ho', hown⟩ := over_step hl ho hs
      exact .ended ho' (hown ▸ hF)
    | running pc kids hf hI =>
      cases family_step hl hf hs with
      | child kids' hf' hp hown => exact .running pc kids' hf' (hown ▸ hkids _ _ _ _ hI hp)
      | parent e pc' kids' hm hf' hown =>
        have hdist := hf'.distinct
        have hacc := hf'.account
        rw [hf'.pids_eq, List.nodup_cons] at hdist
        rw [hown] at hacc
        exact .running pc' kids' hf' (hown ▸ hparent _ _ _ _ _ _ hI hm hdist.2 hacc)
      | ends status hst ho hown => exact .ended ho (hown ▸ hends _ _ _ _ hI hf.account hst)

theorem Story.final (hs : Story leaf pid ppid I F s) (hn : ¬ Stands pid s) : F (own pid s.log) := by
  cases hs with
  | running pc kids hf hI => exact absurd hf.stands hn
  | ended ho hF => exact hF

/-! ## Where a run stops -/

/-- Nobody can make a step, unless somebody is killed. -/
def Stuck (next : τ → Call τ L) (s : System τ L) : Prop :=
  (∀ i choice, step next s (.run i choice) = none) ∧ ∀ i, step next s (.adopt i) = none

theorem stuck_of_nil (h : s.procs = []) : Stuck next s := by
  constructor
  · intro i choice
    simp [step, h]
  · intro i
    simp [step, h]

theorem Stuck.no_leaf (hl : Leaves next leaf) (hst : Stuck next s) {p : Proc τ} (hp : p ∈ s.procs)
    (hi : Idle leaf p) : ∃ status, p.life = .zombie status := by
  obtain ⟨p, q, life⟩ := p
  cases life with
  | zombie status => exact ⟨status, rfl⟩
  | running pc₁ =>
    obtain ⟨i, hget⟩ := List.mem_iff_getElem?.mp hp
    have hnone := hst.1 i none
    simp only [step, hget] at hnone
    rcases hl.next (hi pc₁ rfl) with ⟨line, pc', hput, -⟩ | ⟨code, hexit⟩
    · rw [hput] at hnone
      cases hnone
    · rw [hexit] at hnone
      cases hnone

/-- **Where a run of a family stops**, nobody is left: the parent has ended, and everybody has been waited
    for. -/
theorem Story.stuck_nil (hl : Leaves next leaf) (hs : Story leaf pid ppid I F s) (hst : Stuck next s) :
    s.procs = [] ∧ F (own pid s.log) := by
  cases hs with
  | ended ho hF =>
    refine ⟨List.eq_nil_iff_forall_not_mem.mpr fun p hp => ?_, hF⟩
    obtain ⟨status, hlife⟩ := hst.no_leaf hl hp (ho.idle p hp)
    obtain ⟨i, hget⟩ := List.mem_iff_getElem?.mp hp
    obtain ⟨x, q, life⟩ := p
    cases hlife
    have hnone := hst.2 i
    simp only [step, hget] at hnone
    have houter : q ∈ s.outer := by
      by_cases hx : x = pid
      · exact ho.parent _ hp hx
      · exact (show q = s.reaper from ho.orphans _ hp hx) ▸ ho.reaper
    rw [if_pos houter] at hnone
    cases hnone
  | running pc kids hf hI =>
    exfalso
    have hroot : s.procs[0]? = some ⟨pid, ppid, .running pc⟩ := by
      rw [hf.procs]
      rfl
    have hrun : ∀ choice, call s 0 ⟨pid, ppid, .running pc⟩ choice (next pc) = none := by
      intro choice
      have hnone := hst.1 0 choice
      simpa only [step, hroot] using hnone
    cases hn : next pc with
    | fork inChild inParent failed =>
      have := hrun none
      rw [hn] at this
      cases this
    | put line pc' =>
      have := hrun none
      rw [hn] at this
      cases this
    | exit code =>
      have := hrun none
      rw [hn] at this
      cases this
    | wait reaped noChild =>
      cases kids with
      | nil =>
        have := hrun none
        rw [hn] at this
        have hnot : pid ∉ s.procs.map Proc.ppid := by
          rw [hf.procs]
          simp only [List.map_cons, List.map_nil, List.mem_singleton]
          rintro rfl
          exact hf.outside _ (by rw [hf.pids_eq]; exact List.mem_cons_self) hf.parent
        simp only [call, if_neg hnot] at this
        cases this
      | cons k kids =>
        have hk : k ∈ s.procs := by
          rw [hf.procs]
          simp
        obtain ⟨hkp, hki⟩ := hf.kid k List.mem_cons_self
        obtain ⟨status, hlife⟩ := hst.no_leaf hl hk hki
        obtain ⟨child, q, life⟩ := k
        have hq : q = pid := hkp
        cases hlife
        subst q
        have hget : s.procs[1]? = some ⟨child, pid, .zombie status⟩ := by
          rw [hf.procs]
          rfl
        have := hrun (some 1)
        rw [hn] at this
        simp [call, hget] at this

end Library.Processes
