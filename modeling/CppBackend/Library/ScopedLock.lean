import CppBackend.Library.Mutex
import CppBackend.Library.Updates

/-!
# Two mutexes locked together

A job declares two `std::unique_lock`s with `std::defer_lock`, for the mutexes of two different places,
locks both with `std::lock`, makes its updates at these places, and gives the mutexes back in the opposite
order.  `std::lock` is an unspecified series of `lock`, `try_lock` and `unlock` that does not wait while it
holds a mutex: it waits for either one, tries the other, and gives back the first if that fails.

A locked mutex is held by one job, a free one by none (`run_exclusive`).  The updates have the effect of the
jobs one after another, in the order in which they came to hold both mutexes (`run_serial`).  From every
state of every run all jobs can still come to their end (`can_finish`).
-/

set_option autoImplicit false

namespace Library.ScopedLock

open Library.Transition Library.Tally Library.Threads Library.Mutex Library.Updates

variable {κ V : Type} [DecidableEq κ]

structure Job (κ V : Type) where
  first : κ
  second : κ
  /-- A thread must not try a mutex that it holds. -/
  differ : first ≠ second
  updates : List (Update κ V)
  within : ∀ u ∈ updates, u.place = first ∨ u.place = second

inductive Pc (κ V : Type) where
  /-- Before the locks. -/
  | start
  /-- In `std::lock`, with nothing locked. -/
  | lock
  /-- In `std::lock`, holds the second mutex or the first, about to try the other. -/
  | tryOther (second : Bool)
  /-- In `std::lock`, the other mutex was locked; about to give back what it holds. -/
  | backOff (second : Bool)
  /-- Holds both, with these updates before it. -/
  | body (rest : List (Update κ V))
  | unlockSecond
  | unlockFirst
  | done

structure Task (κ V : Type) where
  job : Job κ V
  pc : Pc κ V

structure Shared (κ V : Type) where
  locked : κ → Bool
  value : κ → V
  /-- The jobs in the order in which they came to hold both mutexes. -/
  entered : List (Job κ V)

/-- The mutex that `std::lock` takes first, by its choice. -/
def Job.one (job : Job κ V) (second : Bool) : κ := if second then job.second else job.first

def Job.other (job : Job κ V) (second : Bool) : κ := if second then job.first else job.second

def Shared.lock (sh : Shared κ V) (a : κ) : Shared κ V :=
  { sh with locked := Function.update sh.locked a true }

def Shared.unlock (sh : Shared κ V) (a : κ) : Shared κ V :=
  { sh with locked := Function.update sh.locked a false }

/-- One step of a job.  The choice is the mutex that `std::lock` begins with; at a `try_lock`, to fail for no
reason. -/
def taskStep (sh : Shared κ V) (t : Task κ V) (choice : Bool) : Option (Shared κ V × Task κ V × Signal Unit) :=
  match t.pc with
  | .start => some (sh, ⟨t.job, .lock⟩, .quiet)
  | .lock =>
    if sh.locked (t.job.one choice) then none
    else some (sh.lock (t.job.one choice), ⟨t.job, .tryOther choice⟩, .quiet)
  | .tryOther c =>
    if sh.locked (t.job.other c) || choice then some (sh, ⟨t.job, .backOff c⟩, .quiet)
    else some ({ sh.lock (t.job.other c) with entered := sh.entered ++ [t.job] },
      ⟨t.job, .body t.job.updates⟩, .quiet)
  | .backOff c => some (sh.unlock (t.job.one c), ⟨t.job, .lock⟩, .quiet)
  | .body [] => some (sh, ⟨t.job, .unlockSecond⟩, .quiet)
  | .body (u :: rest) => some ({ sh with value := u.run sh.value }, ⟨t.job, .body rest⟩, .quiet)
  | .unlockSecond => some (sh.unlock t.job.second, ⟨t.job, .unlockFirst⟩, .quiet)
  | .unlockFirst => some (sh.unlock t.job.first, ⟨t.job, .done⟩, .quiet)
  | .done => none

def program : Program (Shared κ V) (Task κ V) Unit Bool :=
  ⟨taskStep, fun _ _ => false, id, fun _ _ => false⟩

abbrev Run (κ V : Type) := World (Shared κ V) (Task κ V)

def step (s : Run κ V) (a : Nat × Bool) : Option (Run κ V) := s.step program a

/-- A thread for each job, and nothing locked. -/
def init (value : κ → V) (jobs : List (Job κ V)) : Run κ V :=
  ⟨⟨fun _ => false, value, []⟩, jobs.map fun job => ⟨job, .start⟩⟩

def Task.isDone (t : Task κ V) : Bool :=
  match t.pc with
  | .done => true
  | _ => false

/-! ## What a step can do -/

inductive Moves (sh : Shared κ V) (job : Job κ V) : Pc κ V → Shared κ V → Pc κ V → Prop where
  | start : Moves sh job .start sh .lock
  | lock (c : Bool) (h : sh.locked (job.one c) = false) :
      Moves sh job .lock (sh.lock (job.one c)) (.tryOther c)
  | fails (c : Bool) : Moves sh job (.tryOther c) sh (.backOff c)
  | enter (c : Bool) (h : sh.locked (job.other c) = false) :
      Moves sh job (.tryOther c) { sh.lock (job.other c) with entered := sh.entered ++ [job] } (.body job.updates)
  | backOff (c : Bool) : Moves sh job (.backOff c) (sh.unlock (job.one c)) .lock
  | write (u : Update κ V) (rest : List (Update κ V)) :
      Moves sh job (.body (u :: rest)) { sh with value := u.run sh.value } (.body rest)
  | written : Moves sh job (.body []) sh .unlockSecond
  | unlockSecond : Moves sh job .unlockSecond (sh.unlock job.second) .unlockFirst
  | unlockFirst : Moves sh job .unlockFirst (sh.unlock job.first) .done

theorem taskStep_moves {sh sh' : Shared κ V} {t t' : Task κ V} {c : Bool} {sig : Signal Unit}
    (h : taskStep sh t c = some (sh', t', sig)) : Moves sh t.job t.pc sh' t'.pc ∧ t'.job = t.job ∧ sig = .quiet := by
  obtain ⟨job, pc⟩ := t
  cases pc with
  | start => cases h; exact ⟨.start, rfl, rfl⟩
  | lock =>
    simp only [taskStep] at h
    split at h <;> cases h
    exact ⟨.lock c (Bool.eq_false_of_not_eq_true (by assumption)), rfl, rfl⟩
  | tryOther d =>
    simp only [taskStep] at h
    split at h <;> cases h
    · exact ⟨.fails d, rfl, rfl⟩
    · rename_i hn
      rw [Bool.or_eq_true, not_or] at hn
      exact ⟨.enter d (Bool.eq_false_of_not_eq_true hn.1), rfl, rfl⟩
  | backOff d => cases h; exact ⟨.backOff d, rfl, rfl⟩
  | body rest =>
    cases rest with
    | nil => cases h; exact ⟨.written, rfl, rfl⟩
    | cons u rest => cases h; exact ⟨.write u rest, rfl, rfl⟩
  | unlockSecond => cases h; exact ⟨.unlockSecond, rfl, rfl⟩
  | unlockFirst => cases h; exact ⟨.unlockFirst, rfl, rfl⟩
  | done => cases h

variable {s s' : Run κ V} {value : κ → V} {jobs : List (Job κ V)} {ok : Run κ V → Nat × Bool → Run κ V → Prop}

/-- **Inversion of a step**: one job moves, and no other one changes. -/
theorem step_moves {a : Nat × Bool} (h : step s a = some s') :
    ∃ t pc', s.threads[a.1]? = some t ∧ Moves s.shared t.job t.pc s'.shared pc' ∧
      s'.threads = s.threads.set a.1 ⟨t.job, pc'⟩ := by
  obtain ⟨t, t', sig, ht, hp, hd⟩ := step_inv h
  obtain ⟨hm, hj, rfl⟩ := taskStep_moves hp
  generalize hts : s.threads.set a.1 t' = ts at hd
  cases hd
  exact ⟨t, t'.pc, ht, hm, by rw [← hts, ← hj]⟩

/-! ## Mutual exclusion -/

/-- The job holds the mutex of the place `a` at this point. -/
def holds (a : κ) (t : Task κ V) : Bool :=
  match t.pc with
  | .tryOther c | .backOff c => decide (t.job.one c = a)
  | .body _ | .unlockSecond => decide (t.job.first = a) || decide (t.job.second = a)
  | .unlockFirst => decide (t.job.first = a)
  | _ => false

omit [DecidableEq κ] in
theorem Job.one_ne_other (job : Job κ V) (c : Bool) : job.one c ≠ job.other c := by
  cases c with
  | false => exact job.differ
  | true => exact Ne.symm job.differ

theorem Job.holds_both (job : Job κ V) (c : Bool) (a : κ) :
    (decide (job.first = a) || decide (job.second = a)) = (decide (job.one c = a) || decide (job.other c = a)) := by
  cases c with
  | false => rfl
  | true => exact Bool.or_comm _ _

theorem moves_lockStep (a : κ) {sh sh' : Shared κ V} {job : Job κ V} {pc pc' : Pc κ V}
    (h : Moves sh job pc sh' pc') :
    LockStep (fun sh => sh.locked a) (holds a) sh ⟨job, pc⟩ sh' ⟨job, pc'⟩ := by
  cases h with
  | start => exact .keep rfl rfl
  | fails c => exact .keep rfl rfl
  | write u rest => exact .keep rfl rfl
  | written => exact .keep rfl rfl
  | lock c h =>
    by_cases ha : job.one c = a
    · subst ha
      exact .acquire h (Function.update_self _ _ _) rfl (by simp [holds])
    · exact .keep (Function.update_of_ne (Ne.symm ha) _ _) (by simp [holds, ha])
  | enter c h =>
    by_cases ha : job.other c = a
    · subst ha
      refine .acquire h (Function.update_self _ _ _) ?_ ?_
      · simp [holds, job.one_ne_other c]
      · simp [holds, job.holds_both c]
    · refine .keep (Function.update_of_ne (Ne.symm ha) _ _) ?_
      simp [holds, job.holds_both c, ha]
  | backOff c =>
    by_cases ha : job.one c = a
    · subst ha
      exact .release (Function.update_self _ _ _) (by simp [holds]) rfl
    · exact .keep (Function.update_of_ne (Ne.symm ha) _ _) (by simp [holds, ha])
  | unlockSecond =>
    by_cases ha : job.second = a
    · subst ha
      exact .release (Function.update_self _ _ _) (by simp [holds]) (by simp [holds, job.differ])
    · exact .keep (Function.update_of_ne (Ne.symm ha) _ _) (by simp [holds, ha])
  | unlockFirst =>
    by_cases ha : job.first = a
    · subst ha
      exact .release (Function.update_self _ _ _) (by simp [holds]) rfl
    · exact .keep (Function.update_of_ne (Ne.symm ha) _ _) (by simp [holds, ha])

def Locks (s : Run κ V) : Prop := ∀ a, Exclusive (fun sh : Shared κ V => sh.locked a) (holds a) s

theorem locks_step {a : Nat × Bool} (hl : Locks s) (h : step s a = some s') : Locks s' := by
  intro b
  obtain ⟨t, pc', ht, hm, hs⟩ := step_moves h
  have hblind : Blind (program (κ := κ) (V := V)) (holds b) := fun _ _ h => by cases h
  have hd : Delivered program .quiet (s.threads.set a.1 ⟨t.job, pc'⟩) s'.threads := by
    rw [hs]
    exact .quiet _
  exact mutex_step hblind (hl b) ht (moves_lockStep b hm) hd

theorem locks_init (value : κ → V) (jobs : List (Job κ V)) : Locks (init value jobs) := by
  intro a
  show tally (ind (holds a)) (jobs.map fun job => ⟨job, .start⟩) = 0
  rw [tally_map]
  exact tally_eq_zero fun job _ => rfl

/-- **Mutual exclusion.** -/
theorem run_exclusive (h : Reach ok step (init value jobs) s) : Locks s :=
  h.invariant (locks_init value jobs) fun _ _ _ hl hs _ => locks_step hl hs

/-! ## The order of the jobs -/

/-- The updates that a job has before it while it holds both mutexes. -/
def pending (t : Task κ V) : List (Update κ V) :=
  match t.pc with
  | .body rest => rest
  | _ => []

/-- The updates of a job are at places whose mutexes it holds. -/
def Within (t : Task κ V) : Prop := ∀ u ∈ pending t, holds u.place t = true

theorem holds_of_within {job : Job κ V} {rest : List (Update κ V)} {u : Update κ V}
    (h : u.place = job.first ∨ u.place = job.second) : holds u.place ⟨job, .body rest⟩ = true := by
  rcases h with h | h <;> simp [holds, h]

theorem moves_within {sh sh' : Shared κ V} {job : Job κ V} {pc pc' : Pc κ V} (h : Moves sh job pc sh' pc')
    (hw : Within ⟨job, pc⟩) : Within ⟨job, pc'⟩ := by
  cases h with
  | enter c h => exact fun u hu => holds_of_within (job.within u hu)
  | write v rest => exact fun u hu => hw u (List.mem_cons_of_mem v hu)
  | _ => exact fun u hu => by cases hu

/-- What the jobs have entered, and what they have before them. -/
structure Serial (value : κ → V) (s : Run κ V) : Prop where
  within : ∀ t ∈ s.threads, Within t
  order : settled pending s.threads s.shared.value = runAll (s.shared.entered.flatMap Job.updates) value

/-- The updates of two jobs are apart while both hold their mutexes. -/
theorem Locks.apart (hl : Locks s) {i j : Nat} {t w : Task κ V} (ht : s.threads[i]? = some t)
    (hw : s.threads[j]? = some w) (hij : j ≠ i) {u v : Update κ V} (hu : holds u.place t = true)
    (hv : holds v.place w = true) : u.place ≠ v.place := by
  intro he
  have := (hl u.place).alone ht hw hij hu
  rw [he, hv] at this
  cases this

theorem serial_step {a : Nat × Bool} (hl : Locks s) (hi : Serial value s) (h : step s a = some s') :
    Serial value s' := by
  have hl' := locks_step hl h
  obtain ⟨⟨job, pc⟩, pc', ht, hm, hs⟩ := step_moves h
  have hwt : Within ⟨job, pc⟩ := hi.within _ (List.mem_of_getElem? ht)
  have hget : s'.threads[a.1]? = some ⟨job, pc'⟩ := by
    rw [hs, List.getElem?_set_self (List.getElem?_eq_some_iff.mp ht).1]
  refine ⟨fun t hmem => ?_, ?_⟩
  · rw [hs] at hmem
    rcases List.mem_or_eq_of_mem_set hmem with hold | rfl
    · exact hi.within t hold
    · exact moves_within hm hwt
  have hsame : pending (⟨job, pc'⟩ : Task κ V) = pending ⟨job, pc⟩ → s'.shared.value = s.shared.value →
      s'.shared.entered = s.shared.entered →
      settled pending s'.threads s'.shared.value = runAll (s'.shared.entered.flatMap Job.updates) value := by
    intro hp hv he
    rw [hs, hv, he, settled_same ht hp]
    exact hi.order
  generalize hsh : s'.shared = sh' at hm hsame
  cases hm with
  | start => exact hsame rfl rfl rfl
  | lock c h => exact hsame rfl rfl rfl
  | fails c => exact hsame rfl rfl rfl
  | backOff c => exact hsame rfl rfl rfl
  | written => exact hsame rfl rfl rfl
  | unlockSecond => exact hsame rfl rfl rfl
  | unlockFirst => exact hsame rfl rfl rfl
  | write u rest =>
    rw [hs]
    refine (settled_write ht rfl fun j w hj hw v hv => ?_).trans hi.order
    exact hl.apart ht hw hj (hwt u List.mem_cons_self) (hi.within w (List.mem_of_getElem? hw) v hv)
  | enter c h =>
    have hbegin : settled pending (s.threads.set a.1 ⟨job, .body job.updates⟩) s.shared.value =
        runAll job.updates (settled pending s.threads s.shared.value) := by
      refine settled_begin ht rfl fun j w hj hw u hu v hv => ?_
      have hw' : s'.threads[j]? = some w := by rw [hs, List.getElem?_set_ne (Ne.symm hj), hw]
      exact hl'.apart hget hw' hj (holds_of_within (job.within u hu))
        (hi.within w (List.mem_of_getElem? hw) v hv)
    rw [hs, List.flatMap_append, List.flatMap_cons, List.flatMap_nil, List.append_nil, runAll_append]
    exact hbegin.trans (congrArg (runAll job.updates) hi.order)

theorem serial_init (value : κ → V) (jobs : List (Job κ V)) : Serial value (init value jobs) := by
  have hnil : ∀ jobs : List (Job κ V), (jobs.map fun job => (⟨job, .start⟩ : Task κ V)).flatMap pending = [] := by
    intro jobs
    rw [List.flatMap_eq_nil_iff]
    intro t ht
    obtain ⟨job, _, rfl⟩ := List.mem_map.mp ht
    rfl
  refine ⟨fun t ht => ?_, ?_⟩
  · obtain ⟨job, _, rfl⟩ := List.mem_map.mp ht
    exact fun u hu => by cases hu
  · show runAll ((jobs.map fun job => (⟨job, .start⟩ : Task κ V)).flatMap pending) value = _
    rw [hnil]
    rfl

/-- The job, if it has not come to hold both mutexes. -/
def waiting (t : Task κ V) : Option (Job κ V) :=
  match t.pc with
  | .start | .lock | .tryOther _ | .backOff _ => some t.job
  | _ => none

/-- Every job enters once. -/
def EachOnce (jobs : List (Job κ V)) (s : Run κ V) : Prop :=
  (s.shared.entered ++ s.threads.filterMap waiting).Perm jobs

theorem moves_once {sh sh' : Shared κ V} {job : Job κ V} {pc pc' : Pc κ V} (h : Moves sh job pc sh' pc') :
    Once Shared.entered waiting sh ⟨job, pc⟩ sh' ⟨job, pc'⟩ := by
  cases h with
  | enter c h => exact .logs rfl rfl rfl
  | _ => exact .keep rfl rfl

theorem eachOnce_step {a : Nat × Bool} (hi : EachOnce jobs s) (h : step s a = some s') : EachOnce jobs s' := by
  obtain ⟨t, pc', ht, hm, hs⟩ := step_moves h
  exact once_step ht hs (moves_once hm) hi

theorem run_order (h : Reach ok step (init value jobs) s) : Serial value s ∧ EachOnce jobs s := by
  refine ⟨h.invariant_of (K := Locks) (fun s hr => run_exclusive hr) (serial_init value jobs)
    fun _ _ _ hl hi hs _ => serial_step hl hi hs, ?_⟩
  refine h.invariant (I := EachOnce jobs) ?_ fun _ _ _ hi hs _ => eachOnce_step hi hs
  show ((jobs.map fun job => (⟨job, .start⟩ : Task κ V)).filterMap waiting).Perm jobs
  rw [List.filterMap_map]
  exact List.Perm.of_eq List.filterMap_some

/-- **The place of a free mutex** has the value that the jobs before it leave, one after another. -/
theorem run_free (h : Reach ok step (init value jobs) s) {a : κ} (hf : s.shared.locked a = false) :
    s.shared.value a = runAll (s.shared.entered.flatMap Job.updates) value a := by
  obtain ⟨hserial, -⟩ := run_order h
  rw [← hserial.order]
  unfold settled
  rw [runAll_untouched]
  intro u hu hua
  obtain ⟨t, ht, hmem⟩ := List.mem_flatMap.mp hu
  have hheld := hserial.within t ht u hmem
  rw [hua, (run_exclusive h a).none_of_free hf ht] at hheld
  cases hheld

omit [DecidableEq κ] in
theorem pc_of_isDone {t : Task κ V} (h : t.isDone = true) : t.pc = .done := by
  unfold Task.isDone at h
  split at h
  · assumption
  · cases h

/-- Nothing is locked when no job holds a mutex. -/
theorem Locks.free (hl : Locks s) {a : κ} (h : ∀ t ∈ s.threads, holds a t = false) :
    s.shared.locked a = false := by
  have hx := hl a
  unfold Exclusive at hx
  rw [tally_eq_zero fun t ht => ind_of_false (h t ht)] at hx
  refine Bool.eq_false_of_not_eq_true fun hlk => ?_
  rw [if_pos hlk] at hx
  cases hx

omit [DecidableEq κ] in
theorem waiting_of_done {ts : List (Task κ V)} (hdone : ∀ t ∈ ts, t.isDone = true) :
    ts.filterMap waiting = [] := by
  rw [List.filterMap_eq_nil_iff]
  intro t ht
  unfold waiting
  rw [pc_of_isDone (hdone t ht)]

theorem free_of_done (h : Reach ok step (init value jobs) s) (hdone : ∀ t ∈ s.threads, t.isDone = true) (a : κ) :
    s.shared.locked a = false := by
  refine (run_exclusive h).free fun t ht => ?_
  unfold holds
  rw [pc_of_isDone (hdone t ht)]

/-- **The updates have the effect of the jobs one after another**: where all jobs have come to their end, the
    values are those of some serial order. -/
theorem run_serial (h : Reach ok step (init value jobs) s) (hdone : ∀ t ∈ s.threads, t.isDone = true) :
    ∃ order : List (Job κ V), order.Perm jobs ∧ s.shared.value = runAll (order.flatMap Job.updates) value := by
  obtain ⟨-, honce⟩ := run_order h
  refine ⟨s.shared.entered, ?_, ?_⟩
  · unfold EachOnce at honce
    rwa [waiting_of_done hdone, List.append_nil] at honce
  · funext a
    exact run_free h (free_of_done h hdone a)

/-! ## The end of the jobs -/

/-- The job holds a mutex. -/
def holdsAny (t : Task κ V) : Bool :=
  match t.pc with
  | .start | .lock | .done => false
  | _ => true

/-- What a job has before it, seen from far. -/
def weight (t : Task κ V) : Int := if t.isDone then 0 else if holdsAny t then 3 else 2

omit [DecidableEq κ] in
theorem weight_nonneg (t : Task κ V) : 0 ≤ weight t := by
  unfold weight
  split
  · omega
  · split <;> omega

theorem holdsAny_of_holds {a : κ} {t : Task κ V} (h : holds a t = true) : holdsAny t = true := by
  unfold holds at h
  unfold holdsAny
  split at h <;> simp_all

/-- A job that holds both mutexes goes on to its end. -/
theorem alone_body (job : Job κ V) : ∀ (rest : List (Update κ V)) (sh : Shared κ V),
    ∃ sh', Alone program (sh, (⟨job, .body rest⟩ : Task κ V)) (sh', ⟨job, .done⟩)
  | [], sh => by
    have h1 : Alone program (sh, (⟨job, .body []⟩ : Task κ V)) (sh, ⟨job, .unlockSecond⟩) := .one false rfl
    have h2 : Alone program (sh, (⟨job, .unlockSecond⟩ : Task κ V)) (sh.unlock job.second, ⟨job, .unlockFirst⟩) :=
      .one false rfl
    exact ⟨_, (h1.trans h2).trans (.one false rfl)⟩
  | u :: rest, sh => by
    obtain ⟨sh', h⟩ := alone_body job rest { sh with value := u.run sh.value }
    have h1 : Alone program (sh, (⟨job, .body (u :: rest)⟩ : Task κ V))
        ({ sh with value := u.run sh.value }, ⟨job, .body rest⟩) := .one false rfl
    exact ⟨sh', h1.trans h⟩

theorem alone_tryOther (job : Job κ V) {c : Bool} {sh : Shared κ V} (h : sh.locked (job.other c) = false) :
    ∃ sh', Alone program (sh, (⟨job, .tryOther c⟩ : Task κ V)) (sh', ⟨job, .done⟩) := by
  obtain ⟨sh', hb⟩ := alone_body job job.updates { sh.lock (job.other c) with entered := sh.entered ++ [job] }
  have h1 : Alone program (sh, (⟨job, .tryOther c⟩ : Task κ V))
      ({ sh.lock (job.other c) with entered := sh.entered ++ [job] }, ⟨job, .body job.updates⟩) := by
    refine .one false ?_
    show taskStep sh (⟨job, .tryOther c⟩ : Task κ V) false = _
    simp [taskStep, h]
  exact ⟨sh', h1.trans hb⟩

/-- A job that holds a mutex goes on to where it holds none. -/
theorem alone_release {sh : Shared κ V} {t : Task κ V} (h : holdsAny t = true) :
    ∃ sh' t', Alone program (sh, t) (sh', t') ∧ weight t' < weight t := by
  obtain ⟨job, pc⟩ := t
  have hback : ∀ c, Alone program (sh, (⟨job, .backOff c⟩ : Task κ V)) (sh.unlock (job.one c), ⟨job, .lock⟩) :=
    fun c => .one false rfl
  have hlt : ∀ pc : Pc κ V, holdsAny (⟨job, pc⟩ : Task κ V) = true → weight (⟨job, pc⟩ : Task κ V) = 3 := by
    intro pc hpc
    cases pc <;> first | rfl | cases hpc
  have hdone : weight (⟨job, .done⟩ : Task κ V) < 3 := by show (0 : Int) < 3; decide
  have hlock : weight (⟨job, .lock⟩ : Task κ V) < 3 := by show (2 : Int) < 3; decide
  rw [hlt pc h]
  cases pc with
  | start | lock | done => cases h
  | tryOther c =>
    by_cases hfree : sh.locked (job.other c) = false
    · obtain ⟨sh', hr⟩ := alone_tryOther job hfree
      exact ⟨sh', _, hr, hdone⟩
    · have h1 : Alone program (sh, (⟨job, .tryOther c⟩ : Task κ V)) (sh, ⟨job, .backOff c⟩) := by
        refine .one false ?_
        show taskStep sh (⟨job, .tryOther c⟩ : Task κ V) false = _
        simp only [Bool.not_eq_false] at hfree
        simp [taskStep, hfree]
      exact ⟨_, _, h1.trans (hback c), hlock⟩
  | backOff c => exact ⟨_, _, hback c, hlock⟩
  | body rest =>
    obtain ⟨sh', hr⟩ := alone_body job rest sh
    exact ⟨sh', _, hr, hdone⟩
  | unlockSecond =>
    have h1 : Alone program (sh, (⟨job, .unlockSecond⟩ : Task κ V)) (sh.unlock job.second, ⟨job, .unlockFirst⟩) :=
      .one false rfl
    exact ⟨_, _, h1.trans (.one false rfl), hdone⟩
  | unlockFirst => exact ⟨_, _, .one false rfl, hdone⟩

/-- With nothing locked, a job goes on to its end. -/
theorem alone_finish {sh : Shared κ V} {t : Task κ V} (hfree : ∀ a, sh.locked a = false)
    (hn : holdsAny t = false) (hd : t.isDone = false) :
    ∃ sh' t', Alone program (sh, t) (sh', t') ∧ weight t' < weight t := by
  obtain ⟨job, pc⟩ := t
  have hlock : ∃ sh', Alone program (sh, (⟨job, .lock⟩ : Task κ V)) (sh', ⟨job, .done⟩) := by
    have h1 : Alone program (sh, (⟨job, .lock⟩ : Task κ V)) (sh.lock (job.one false), ⟨job, .tryOther false⟩) := by
      refine .one false ?_
      show taskStep sh (⟨job, .lock⟩ : Task κ V) false = _
      simp [taskStep, hfree]
    have hother : (sh.lock (job.one false)).locked (job.other false) = false := by
      show Function.update sh.locked (job.one false) true (job.other false) = false
      rw [Function.update_of_ne (Ne.symm (job.one_ne_other false)), hfree]
    obtain ⟨sh', hr⟩ := alone_tryOther job hother
    exact ⟨sh', h1.trans hr⟩
  obtain ⟨sh', hr⟩ := hlock
  have hlt : weight (⟨job, .done⟩ : Task κ V) < 2 := by show (0 : Int) < 2; decide
  cases pc with
  | start =>
    have h1 : Alone program (sh, (⟨job, .start⟩ : Task κ V)) (sh, ⟨job, .lock⟩) := .one false rfl
    exact ⟨sh', _, h1.trans hr, hlt⟩
  | lock => exact ⟨sh', _, hr, hlt⟩
  | done => cases hd
  | tryOther c | backOff c | body rest | unlockSecond | unlockFirst => cases hn

/-- **All jobs can still come to their end**, from every state of every run. -/
theorem can_finish (h : Reach anyStep step (init value jobs) s) :
    ∃ s', Reach anyStep step s s' ∧ ∀ t ∈ s'.threads, t.isDone = true := by
  refine h.can_reach (D := fun s => ∀ t ∈ s.threads, t.isDone = true)
    (μ := fun s => (tally weight s.threads).toNat) ?_
  intro s hr hd
  simp only [not_forall] at hd
  obtain ⟨t, hmem, hnd⟩ := hd
  have hl := run_exclusive hr
  have hstep : ∀ u ∈ s.threads, (∃ sh' t', Alone program (s.shared, u) (sh', t') ∧ weight t' < weight u) →
      ∃ s', Reach anyStep step s s' ∧ (tally weight s'.threads).toNat < (tally weight s.threads).toNat := by
    rintro u hu ⟨sh', t', ha, hlt⟩
    obtain ⟨i, hi⟩ := List.mem_iff_getElem?.mp hu
    refine ⟨_, ha.reach hi, ?_⟩
    have hset : tally weight (s.threads.set i t') = tally weight s.threads - weight u + weight t' := tally_set hi
    have hle : weight u ≤ tally weight s.threads := le_tally weight_nonneg hu
    have hpos := weight_nonneg t'
    show (tally weight (s.threads.set i t')).toNat < _
    omega
  by_cases hany : ∃ u ∈ s.threads, holdsAny u = true
  · obtain ⟨u, hu, hh⟩ := hany
    exact hstep u hu (alone_release hh)
  · have hnone : ∀ u ∈ s.threads, holdsAny u = false := by
      intro u hu
      exact Bool.eq_false_of_not_eq_true fun hh => hany ⟨u, hu, hh⟩
    have hfree : ∀ a, s.shared.locked a = false := by
      intro a
      refine hl.free fun u hu => Bool.eq_false_of_not_eq_true fun hh => ?_
      have := hnone u hu
      rw [holdsAny_of_holds hh] at this
      cases this
    exact hstep t hmem (alone_finish hfree (hnone t hmem) (Bool.eq_false_of_not_eq_true hnd))

end Library.ScopedLock
