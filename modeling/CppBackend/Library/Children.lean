import CppBackend.Library.Families

/-!
# The children of a family

* `stands_iff` — the parent runs as long as the log does not say that it has ended;
* `unwaited_stay` — if the program does not wait, the children stay in the table as long as the parent runs, and
  whoever has ended is a zombie;
* `child_line` — a line of a child names the child and its parent, which is the reaper when the parent has ended.
-/

set_option autoImplicit false

namespace Library.Processes

open Library.Transition

variable {τ L : Type} {next : τ → Call τ L} {s s' : System τ L} {a : Action}

/-! ## Whoever has ended is a zombie or has been waited for -/

/-- The converse of `Recorded`. -/
def Remembered (s : System τ L) : Prop :=
  ∀ child status, .ended child status ∈ s.log →
    (∃ p ∈ s.procs, p.pid = child ∧ p.life = .zombie status) ∨ ∃ parent, .reaped parent child status ∈ s.log

/-- A zombie is still there when a running process has been replaced. -/
theorem zombie_set {procs : List (Proc τ)} {i pid ppid child : Nat} {pc : τ} {status : Status} {q : Proc τ}
    (hi : procs[i]? = some ⟨pid, ppid, .running pc⟩) (h : ∃ p ∈ procs, p.pid = child ∧ p.life = .zombie status) :
    ∃ p ∈ procs.set i q, p.pid = child ∧ p.life = .zombie status := by
  obtain ⟨p, hp, hpid, hlife⟩ := h
  refine ⟨p, ?_, hpid, hlife⟩
  obtain ⟨j, hj⟩ := List.mem_iff_getElem?.mp hp
  have hne : i ≠ j := by
    rintro rfl
    rw [hi] at hj
    cases hj
    cases hlife
  exact List.mem_of_getElem? (by rw [List.getElem?_set_ne hne, hj])

/-- A zombie is still there when another process has been taken out, or it is the one that has been. -/
theorem zombie_eraseIdx {procs : List (Proc τ)} {i pid ppid child : Nat} {status status' : Status}
    (hi : procs[i]? = some ⟨pid, ppid, .zombie status'⟩)
    (h : ∃ p ∈ procs, p.pid = child ∧ p.life = .zombie status) :
    (∃ p ∈ procs.eraseIdx i, p.pid = child ∧ p.life = .zombie status) ∨ (pid = child ∧ status' = status) := by
  obtain ⟨p, hp, hpid, hlife⟩ := h
  obtain ⟨j, hj⟩ := List.mem_iff_getElem?.mp hp
  by_cases hij : j = i
  · subst hij
    rw [hi] at hj
    cases hj
    cases hlife
    exact Or.inr ⟨hpid, rfl⟩
  · exact Or.inl ⟨p, List.mem_eraseIdx_iff_getElem?.mpr ⟨j, hij, hj⟩, hpid, hlife⟩

theorem Remembered.append (h : Remembered s) {procs : List (Proc τ)} {e : Event L}
    (hz : ∀ child status, (∃ p ∈ s.procs, p.pid = child ∧ p.life = .zombie status) →
      (∃ p ∈ procs, p.pid = child ∧ p.life = .zombie status) ∨ ∃ parent, e = .reaped parent child status)
    (he : ∀ child status, e = .ended child status → ∃ p ∈ procs, p.pid = child ∧ p.life = .zombie status) :
    Remembered { s with procs := procs, log := s.log ++ [e] } := by
  intro child status hmem
  rcases List.mem_append.mp hmem with hold | hnew
  · rcases h child status hold with hzombie | ⟨parent, hr⟩
    · refine (hz child status hzombie).imp id ?_
      rintro ⟨parent, rfl⟩
      exact ⟨parent, List.mem_append_right _ List.mem_cons_self⟩
    · exact Or.inr ⟨parent, List.mem_append_left _ hr⟩
  · rw [List.mem_singleton] at hnew
    exact Or.inl (he child status hnew.symm)

theorem Remembered.goes (h : Remembered s) {i pid ppid : Nat} {pc pc' : τ} {e : Event L}
    (hi : s.procs[i]? = some ⟨pid, ppid, .running pc⟩) (he : ∀ child status, e ≠ .ended child status) :
    Remembered (s.goes i ⟨pid, ppid, .running pc⟩ pc' e) :=
  h.append (fun _ _ hz => Or.inl (zombie_set hi hz)) fun child status hc => absurd hc (he child status)

theorem Remembered.ends (h : Remembered s) {i pid ppid : Nat} {pc : τ}
    (hi : s.procs[i]? = some ⟨pid, ppid, .running pc⟩) (status : Status) :
    Remembered (s.ends i ⟨pid, ppid, .running pc⟩ status) := by
  have horphan : ∀ {q : Proc τ} {child : Nat} {st : Status},
      q ∈ s.procs.set i ⟨pid, ppid, .zombie status⟩ → q.pid = child → q.life = .zombie st →
        ∃ p ∈ (s.procs.set i ⟨pid, ppid, .zombie status⟩).map (orphan s.reaper pid),
          p.pid = child ∧ p.life = .zombie st :=
    fun hq hpid hlife => ⟨_, List.mem_map_of_mem hq, (orphan_pid _ _ _).trans hpid, (orphan_life _ _ _).trans hlife⟩
  refine h.append (fun child st hz => ?_) fun child st hc => ?_
  · obtain ⟨q, hq, hpid, hlife⟩ := zombie_set (q := ⟨pid, ppid, .zombie status⟩) hi hz
    exact Or.inl (horphan hq hpid hlife)
  · cases hc
    obtain ⟨hlt, -⟩ := List.getElem?_eq_some_iff.mp hi
    exact horphan (List.mem_set hlt _) rfl rfl

theorem remembered_step (h : Remembered s) (hs : step next s a = some s') : Remembered s' := by
  cases step_moves hs with
  | fork hi hn ho hp =>
    refine h.append (fun child status hz => ?_) (fun child status hc => by cases hc)
    obtain ⟨p, hp, hrest⟩ := zombie_set hi hz
    exact Or.inl ⟨p, List.mem_append_left _ hp, hrest⟩
  | forkFails hi hn => exact h.goes hi (by simp)
  | noChild hi hn hnone => exact h.goes hi (by simp)
  | put hi hn => exact h.goes hi (by simp)
  | exit hi hn => exact h.ends hi _
  | kill hi => exact h.ends hi _
  | @reap i p q j child pc₁ noChild reaped status hi hn hj =>
    refine h.append (fun c st hz => ?_) (fun c st hc => by cases hc)
    have hj' : (s.procs.set i ⟨p, q, .running (reaped child status)⟩)[j]? = some ⟨child, p, .zombie status⟩ := by
      rw [List.getElem?_set_ne (ne_of_running hi hj), hj]
    refine (zombie_eraseIdx hj' (zombie_set hi hz)).imp id ?_
    rintro ⟨rfl, rfl⟩
    exact ⟨p, rfl⟩
  | @adopt i p q status hi ho =>
    refine h.append (fun c st hz => ?_) (fun c st hc => by cases hc)
    refine (zombie_eraseIdx hi hz).imp id ?_
    rintro ⟨rfl, rfl⟩
    exact ⟨q, rfl⟩

variable {leaf : τ → Bool} {pid ppid : Nat} {pc : τ} {kids : List (Proc τ)} {outer : List Nat}
  {reaper : Nat} {ok : System τ L → Action → System τ L → Prop}

theorem run_remembered (h : Reach ok (step next) (start outer reaper pid ppid pc) s) : Remembered s :=
  h.invariant (fun _ _ hmem => (by cases hmem)) fun _ _ _ hi hs _ => remembered_step hi hs

/-! ## Whether the parent has ended -/

theorem mem_own {log : List (Event L)} {e : Event L} (he : e.by = pid) : e ∈ own pid log ↔ e ∈ log := by
  simp [own, he]

/-- In its own events a running parent has not ended, and one that has ended has. -/
theorem run_ended (hl : Leaves next leaf) (hpid : pid ∉ outer) (hppid : ppid ∈ outer) (hreaper : reaper ∈ outer)
    (h : Reach ok (step next) (start outer reaper pid ppid pc) s) :
    Story leaf pid ppid (fun _ _ es => ∀ status, .ended pid status ∉ es)
      (fun es => ∃ status, .ended pid status ∈ es) s := by
  refine run_family hl hpid hppid hreaper (by simp) (fun _ _ _ _ hI _ => hI) ?_ ?_ h
  · intro pc kids es e pc' kids' hI hm _ _ status hmem
    rcases List.mem_append.mp hmem with hold | hnew
    · exact hI status hold
    · rw [List.mem_singleton] at hnew
      subst hnew
      cases hm
  · intro pc kids es status hI _ _
    exact ⟨status, List.mem_append_right _ List.mem_cons_self⟩

/-- **The parent runs** as long as the log does not say that it has ended. -/
theorem stands_iff (hl : Leaves next leaf) (hpid : pid ∉ outer) (hppid : ppid ∈ outer) (hreaper : reaper ∈ outer)
    (h : Reach ok (step next) (start outer reaper pid ppid pc) s) :
    Stands pid s ↔ ∀ status, .ended pid status ∉ s.log := by
  cases run_ended hl hpid hppid hreaper h with
  | running pc kids hf hI => exact ⟨fun _ status hmem => hI status ((mem_own rfl).mpr hmem), fun _ => hf.stands⟩
  | ended ho hF =>
    obtain ⟨status, hmem⟩ := hF
    exact ⟨fun hst => absurd hst ho.not_stands, fun hnone => absurd ((mem_own rfl).mp hmem) (hnone status)⟩

/-- Whether the log says that a process has ended. -/
def hasEnded (pid : Nat) (log : List (Event L)) : Bool :=
  log.any fun e => match e with
    | .ended p _ => decide (p = pid)
    | _ => false

/-- The parent of the children of `pid`: the reaper when `pid` has ended. -/
def parentNow (reaper pid : Nat) (log : List (Event L)) : Nat := if hasEnded pid log then reaper else pid

theorem hasEnded_iff {log : List (Event L)} : hasEnded pid log = true ↔ ∃ status, .ended pid status ∈ log := by
  unfold hasEnded
  rw [List.any_eq_true]
  constructor
  · rintro ⟨e, he, hp⟩
    cases e with
    | ended p status =>
      rw [decide_eq_true_eq] at hp
      exact ⟨status, hp ▸ he⟩
    | forked | forkFailed | printed | reaped | noChild => cases hp
  · rintro ⟨status, he⟩
    exact ⟨_, he, decide_eq_true rfl⟩

/-- Whoever is in the table beside the parent is at a leaf, and its parent is the parent of the family now. -/
theorem run_child (hl : Leaves next leaf) (hpid : pid ∉ outer) (hppid : ppid ∈ outer) (hreaper : reaper ∈ outer)
    (h : Reach ok (step next) (start outer reaper pid ppid pc) s) {p : Proc τ} (hp : p ∈ s.procs) (hne : p.pid ≠ pid) :
    Idle leaf p ∧ p.ppid = parentNow reaper pid s.log := by
  unfold parentNow
  cases run_ended hl hpid hppid hreaper h with
  | running pc kids hf hI =>
    have hnot : ¬ hasEnded pid s.log = true := by
      rw [hasEnded_iff]
      rintro ⟨status, hmem⟩
      exact hI status ((mem_own rfl).mpr hmem)
    rw [if_neg hnot]
    rw [hf.procs] at hp
    rcases List.mem_cons.mp hp with rfl | hk
    · exact absurd rfl hne
    · exact ⟨(hf.kid p hk).2, (hf.kid p hk).1⟩
  | ended ho hF =>
    rw [if_pos (hasEnded_iff.mpr (hF.imp fun _ he => (mem_own rfl).mp he))]
    exact ⟨ho.idle p hp, (ho.orphans p hp hne).trans (run_reaper h)⟩

/-! ## What the children print -/

/-- A line of a child is that of a leaf, for the child and its parent. -/
def Says (next : τ → Call τ L) (leaf : τ → Bool) (reaper pid : Nat) (before : List (Event L)) (child : Nat)
    (line : L) : Prop :=
  ∃ pc line' pc', leaf pc = true ∧ next pc = .put line' pc' ∧ line = line' child (parentNow reaper pid before)

theorem split_append {α : Type} {log before after : List α} {e x : α} (h : log ++ [e] = before ++ x :: after) :
    (log = before ∧ e = x) ∨ ∃ rest, log = before ++ x :: rest := by
  rcases List.eq_nil_or_concat after with rfl | ⟨rest, y, rfl⟩
  · rw [List.append_inj_right' h rfl |> List.singleton_inj.mp, List.append_inj_left' h rfl]
    exact Or.inl ⟨rfl, rfl⟩
  · refine Or.inr ⟨rest, ?_⟩
    rw [List.concat_eq_append, ← List.cons_append, ← List.append_assoc] at h
    exact List.append_inj_left' h rfl

/-- A step adds one event; if it is a line, then the process that prints is in the table. -/
theorem step_event (h : step next s a = some s') :
    ∃ e, s'.log = s.log ++ [e] ∧ ∀ child line, e = .printed child line →
      ∃ q pc line' pc', ⟨child, q, .running pc⟩ ∈ s.procs ∧ next pc = .put line' pc' ∧ line = line' child q := by
  cases step_moves h with
  | @put i p q choice pc₁ pc₂ line' hi hn =>
    refine ⟨_, rfl, fun child line he => ?_⟩
    cases he
    exact ⟨q, pc₁, line', pc₂, List.mem_of_getElem? hi, hn, rfl⟩
  | fork | forkFails | reap | noChild | exit | kill | adopt =>
    refine ⟨_, rfl, fun child line he => ?_⟩
    cases he

/-- **What a child prints** names the child, and its parent at that moment. -/
theorem child_line (hl : Leaves next leaf) (hpid : pid ∉ outer) (hppid : ppid ∈ outer) (hreaper : reaper ∈ outer)
    (h : Reach ok (step next) (start outer reaper pid ppid pc) s) {before after : List (Event L)} {child : Nat}
    {line : L} (hlog : s.log = before ++ .printed child line :: after) (hne : child ≠ pid) :
    Says next leaf reaper pid before child line := by
  revert before after child line
  induction h with
  | refl =>
    intro before after child line hlog
    simp [start] at hlog
  | @tail s s' hr hm ih =>
    intro before after child line hlog hne
    obtain ⟨a, hs, -⟩ := hm
    obtain ⟨e, he, hprint⟩ := step_event hs
    rw [he] at hlog
    rcases split_append hlog with ⟨rfl, rfl⟩ | ⟨rest, hrest⟩
    · obtain ⟨q, pc₁, line', pc₂, hmem, hn, rfl⟩ := hprint child line rfl
      obtain ⟨hidle, hq⟩ := run_child hl hpid hppid hreaper hr hmem hne
      exact ⟨pc₁, line', pc₂, hidle pc₁ rfl, hn, congrArg (line' child) hq⟩
    · exact ih hrest hne

/-! ## Programs that do not wait -/

def NoWait (next : τ → Call τ L) : Prop := ∀ pc reaped noChild, next pc ≠ .wait reaped noChild

/-- Without `wait`, a step of a family waits for nobody. -/
theorem Family.not_reaped (hf : Family leaf pid ppid s pc kids) (hw : NoWait next) (h : step next s a = some s')
    (hnone : ∀ parent child status, .reaped parent child status ∉ s.log) :
    ∀ parent child status, .reaped parent child status ∉ s'.log := by
  intro parent child status hmem
  cases step_moves h with
  | reap hi hn => exact hw _ _ _ hn
  | @adopt i p q st hi ho =>
    have hp := List.mem_of_getElem? hi
    rw [hf.procs] at hp
    rcases List.mem_cons.mp hp with he | hk
    · cases he
    · have hq : q = pid := (hf.kid _ hk).1
      exact hf.outside pid (by rw [hf.pids_eq]; exact List.mem_cons_self) (hq ▸ ho)
  | fork | forkFails | noChild | put | exit | kill =>
    rcases List.mem_append.mp hmem with hold | hnew
    · exact hnone _ _ _ hold
    · rw [List.mem_singleton] at hnew
      cases hnew

theorem run_unwaited (hl : Leaves next leaf) (hw : NoWait next) (hpid : pid ∉ outer) (hppid : ppid ∈ outer)
    (hreaper : reaper ∈ outer) (h : Reach ok (step next) (start outer reaper pid ppid pc) s) :
    Stands pid s → ∀ parent child status, .reaped parent child status ∉ s.log := by
  induction h with
  | refl => exact fun _ parent child status hmem => by cases hmem
  | @tail s s' hr hm ih =>
    intro hst
    have hall := (stands_iff hl hpid hppid hreaper (hr.tail hm)).mp hst
    obtain ⟨a, hs, -⟩ := hm
    obtain ⟨e, he, -⟩ := step_event hs
    have hst' : Stands pid s := by
      rw [stands_iff hl hpid hppid hreaper hr]
      exact fun status hmem => hall status (he ▸ List.mem_append_left _ hmem)
    cases run_ended hl hpid hppid hreaper hr with
    | running pc kids hf hI => exact hf.not_reaped hw hs (ih hst')
    | ended ho hF => exact absurd hst' ho.not_stands

/-- **Children that nobody waits for** stay: as long as the parent runs, the table is the parent and all that it has
    forked, in their order, and whoever has ended is a zombie. -/
theorem unwaited_stay (hl : Leaves next leaf) (hw : NoWait next) (hpid : pid ∉ outer) (hppid : ppid ∈ outer)
    (hreaper : reaper ∈ outer) (h : Reach ok (step next) (start outer reaper pid ppid pc) s) (hst : Stands pid s) :
    pids s.procs = pid :: forked (own pid s.log) ∧
    ∀ child status, .ended child status ∈ s.log → ⟨child, pid, .zombie status⟩ ∈ s.procs := by
  have hstory := run_family (I := fun _ kids es => pids kids = forked es) (F := fun _ => True) hl hpid hppid hreaper rfl
    (fun _ _ _ _ hI hp => hp.trans hI) (fun pc kids es e pc' kids' hI hm _ _ => ?_) (fun _ _ _ _ _ _ _ => trivial) h
  · cases hstory with
    | ended ho => exact absurd hst ho.not_stands
    | running pc kids hf hI =>
      refine ⟨hI ▸ hf.pids_eq, fun child status hmem => ?_⟩
      rcases run_remembered h child status hmem with ⟨p, hp, rfl, hlife⟩ | ⟨parent, hr⟩
      · have hp' := hp
        rw [hf.procs] at hp'
        rcases List.mem_cons.mp hp' with rfl | hk
        · cases hlife
        · obtain ⟨p, q, life⟩ := p
          cases hlife
          have hq : q = pid := (hf.kid _ hk).1
          exact hq ▸ hp
      · exact absurd hr (run_unwaited hl hw hpid hppid hreaper h hst _ _ _)
  · cases hm with
    | fork hn => simp [pids, ← hI]
    | forkFails hn => simpa using hI
    | reap hn => exact absurd hn (hw _ _ _)
    | noChild hn => simpa using hI
    | put hn => simpa using hI

end Library.Processes
