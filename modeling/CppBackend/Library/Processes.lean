import CppBackend.Library.Transition
import CppBackend.Library.Tally

/-!
# Processes

A process is at a program point, and the program says which call it makes there: `fork`, `waitpid(-1, …)`, a
line of output, which may contain its own number and that of its parent, or its end.  A process that has ended
is a zombie until its parent has waited for it: `SIGCHLD` has its default disposition.  When a process ends, its
children become children of the `reaper`, the process 1 or a child subreaper above the program; the numbers in
`outer` are those of the processes outside of the program.

A signal may kill any process at any time.  `fork` returns any number that is not in use, or fails.

* `step_moves` — what one step can do;
* `Budget` — program points with the forks that a process can still make: `forks_le` bounds the forks of a run,
  and `forks_by` says that only processes with a budget fork;
* `Recorded` — a zombie has ended with its status, and whoever has been waited for too;
* `Costs` — a cost of the program points that every step lowers; it bounds the length of a run
  (`run_length_le`).
-/

set_option autoImplicit false

namespace Library.Processes

open Library.Transition Library.Tally

/-- How a process has ended. -/
inductive Status where
  | exited (code : Nat)
  | signaled (sig : Nat)
  deriving DecidableEq, Repr

/-- The next call of a process. -/
inductive Call (τ L : Type) where
  | fork (inChild : τ) (inParent : Nat → τ) (failed : τ)
  | wait (reaped : Nat → Status → τ) (noChild : τ)
  /-- `line` gets `getpid()` and `getppid()`. -/
  | put (line : Nat → Nat → L) (next : τ)
  | exit (code : Nat)

inductive Life (τ : Type) where
  | running (pc : τ)
  | zombie (status : Status)
  deriving DecidableEq, Repr

def Life.runs {τ : Type} : Life τ → Bool
  | .running _ => true
  | .zombie _ => false

structure Proc (τ : Type) where
  pid : Nat
  ppid : Nat
  life : Life τ
  deriving DecidableEq, Repr

inductive Event (L : Type) where
  | forked (pid child : Nat)
  | forkFailed (pid : Nat)
  | printed (pid : Nat) (line : L)
  | ended (pid : Nat) (status : Status)
  | reaped (pid child : Nat) (status : Status)
  | noChild (pid : Nat)
  deriving DecidableEq, Repr

structure System (τ L : Type) where
  outer : List Nat
  /-- Whose children the orphans become. -/
  reaper : Nat
  procs : List (Proc τ)
  log : List (Event L)
  deriving DecidableEq, Repr

inductive Action where
  /-- Process `i` makes its next call; the choice is the number of the new process, or which child is waited
  for. -/
  | run (i : Nat) (choice : Option Nat)
  | kill (i : Nat) (sig : Nat)
  /-- A process outside of the program waits for its child `i`. -/
  | adopt (i : Nat)
  deriving DecidableEq, Repr

variable {τ L : Type}

def pids (procs : List (Proc τ)) : List Nat := procs.map Proc.pid

/-- The children of a process that ends. -/
def orphan (reaper pid : Nat) (p : Proc τ) : Proc τ := if p.ppid = pid then { p with ppid := reaper } else p

/-- Process `i` ends. -/
def System.ends (s : System τ L) (i : Nat) (p : Proc τ) (status : Status) : System τ L :=
  { s with
    procs := (s.procs.set i { p with life := .zombie status }).map (orphan s.reaper p.pid)
    log := s.log ++ [.ended p.pid status] }

/-- Process `i` goes on at `pc`. -/
def System.goes (s : System τ L) (i : Nat) (p : Proc τ) (pc : τ) (e : Event L) : System τ L :=
  { s with procs := s.procs.set i { p with life := .running pc }, log := s.log ++ [e] }

/-- Process `i` has forked. -/
def System.forks (s : System τ L) (i : Nat) (p : Proc τ) (inChild inParent : τ) (pid : Nat) : System τ L :=
  { s with
    procs := s.procs.set i { p with life := .running inParent } ++ [⟨pid, p.pid, .running inChild⟩]
    log := s.log ++ [.forked p.pid pid] }

/-- Process `i` has waited for process `j`. -/
def System.reaps (s : System τ L) (i : Nat) (p : Proc τ) (pc : τ) (j child : Nat) (status : Status) : System τ L :=
  { s with
    procs := (s.procs.set i { p with life := .running pc }).eraseIdx j
    log := s.log ++ [.reaped p.pid child status] }

def call (s : System τ L) (i : Nat) (p : Proc τ) (choice : Option Nat) : Call τ L → Option (System τ L)
  | .fork inChild inParent failed =>
    match choice with
    | none => some (s.goes i p failed (.forkFailed p.pid))
    | some pid => if pid ∈ s.outer ∨ pid ∈ pids s.procs then none else some (s.forks i p inChild (inParent pid) pid)
  | .wait reaped noChild =>
    match choice with
    | none => if p.pid ∈ s.procs.map Proc.ppid then none else some (s.goes i p noChild (.noChild p.pid))
    | some j =>
      match s.procs[j]? with
      | some ⟨child, ppid, .zombie status⟩ =>
        if ppid = p.pid then some (s.reaps i p (reaped child status) j child status) else none
      | _ => none
  | .put line next => some (s.goes i p next (.printed p.pid (line p.pid p.ppid)))
  | .exit code => some (s.ends i p (.exited code))

/-- One step of the program `next`. -/
def step (next : τ → Call τ L) (s : System τ L) : Action → Option (System τ L)
  | .run i choice =>
    match s.procs[i]? with
    | some ⟨pid, ppid, .running pc⟩ => call s i ⟨pid, ppid, .running pc⟩ choice (next pc)
    | _ => none
  | .kill i sig =>
    match s.procs[i]? with
    | some ⟨pid, ppid, .running pc⟩ => some (s.ends i ⟨pid, ppid, .running pc⟩ (.signaled sig))
    | _ => none
  | .adopt i =>
    match s.procs[i]? with
    | some ⟨pid, ppid, .zombie status⟩ =>
      if ppid ∈ s.outer then
        some { s with procs := s.procs.eraseIdx i, log := s.log ++ [.reaped ppid pid status] }
      else none
    | _ => none

/-- A program that a process outside of it has started, without children. -/
def start (outer : List Nat) (reaper pid ppid : Nat) (pc : τ) : System τ L :=
  ⟨outer, reaper, [⟨pid, ppid, .running pc⟩], []⟩

/-! ## What a step can do -/

inductive Moves (next : τ → Call τ L) (s : System τ L) : Action → System τ L → Prop where
  | fork {i pid ppid child : Nat} {pc inChild failed : τ} {inParent : Nat → τ}
      (hi : s.procs[i]? = some ⟨pid, ppid, .running pc⟩) (hn : next pc = .fork inChild inParent failed)
      (ho : child ∉ s.outer) (hp : child ∉ pids s.procs) :
      Moves next s (.run i (some child)) (s.forks i ⟨pid, ppid, .running pc⟩ inChild (inParent child) child)
  | forkFails {i pid ppid : Nat} {pc inChild failed : τ} {inParent : Nat → τ}
      (hi : s.procs[i]? = some ⟨pid, ppid, .running pc⟩) (hn : next pc = .fork inChild inParent failed) :
      Moves next s (.run i none) (s.goes i ⟨pid, ppid, .running pc⟩ failed (.forkFailed pid))
  | reap {i pid ppid j child : Nat} {pc noChild : τ} {reaped : Nat → Status → τ} {status : Status}
      (hi : s.procs[i]? = some ⟨pid, ppid, .running pc⟩) (hn : next pc = .wait reaped noChild)
      (hj : s.procs[j]? = some ⟨child, pid, .zombie status⟩) :
      Moves next s (.run i (some j)) (s.reaps i ⟨pid, ppid, .running pc⟩ (reaped child status) j child status)
  | noChild {i pid ppid : Nat} {pc noChild : τ} {reaped : Nat → Status → τ}
      (hi : s.procs[i]? = some ⟨pid, ppid, .running pc⟩) (hn : next pc = .wait reaped noChild)
      (h : ∀ q ∈ s.procs, q.ppid ≠ pid) :
      Moves next s (.run i none) (s.goes i ⟨pid, ppid, .running pc⟩ noChild (.noChild pid))
  | put {i pid ppid : Nat} {choice : Option Nat} {pc pc' : τ} {line : Nat → Nat → L}
      (hi : s.procs[i]? = some ⟨pid, ppid, .running pc⟩) (hn : next pc = .put line pc') :
      Moves next s (.run i choice) (s.goes i ⟨pid, ppid, .running pc⟩ pc' (.printed pid (line pid ppid)))
  | exit {i pid ppid : Nat} {choice : Option Nat} {pc : τ} {code : Nat}
      (hi : s.procs[i]? = some ⟨pid, ppid, .running pc⟩) (hn : next pc = .exit code) :
      Moves next s (.run i choice) (s.ends i ⟨pid, ppid, .running pc⟩ (.exited code))
  | kill {i pid ppid sig : Nat} {pc : τ} (hi : s.procs[i]? = some ⟨pid, ppid, .running pc⟩) :
      Moves next s (.kill i sig) (s.ends i ⟨pid, ppid, .running pc⟩ (.signaled sig))
  | adopt {i pid ppid : Nat} {status : Status} (hi : s.procs[i]? = some ⟨pid, ppid, .zombie status⟩)
      (ho : ppid ∈ s.outer) :
      Moves next s (.adopt i) { s with procs := s.procs.eraseIdx i, log := s.log ++ [.reaped ppid pid status] }

variable {next : τ → Call τ L} {s s' : System τ L} {a : Action}

theorem orphan_life (r q : Nat) (p : Proc τ) : (orphan r q p).life = p.life := by
  unfold orphan
  split <;> rfl

theorem orphan_pid (r q : Nat) (p : Proc τ) : (orphan r q p).pid = p.pid := by
  unfold orphan
  split <;> rfl

/-- **Inversion of a step.** -/
theorem step_moves (h : step next s a = some s') : Moves next s a s' := by
  cases a with
  | kill i sig =>
    simp only [step] at h
    split at h
    · cases h
      exact .kill (by assumption)
    · cases h
  | adopt i =>
    simp only [step] at h
    split at h
    · split at h
      · cases h
        exact .adopt (by assumption) (by assumption)
      · cases h
    · cases h
  | run i choice =>
    simp only [step] at h
    split at h
    · rename_i pid ppid pc hi
      cases hn : next pc with
      | fork inChild inParent failed =>
        rw [hn] at h
        cases choice with
        | none => cases h; exact .forkFails hi hn
        | some child =>
          simp only [call] at h
          split at h
          · cases h
          · rename_i hfree
            cases h
            rw [not_or] at hfree
            exact .fork hi hn hfree.1 hfree.2
      | wait reaped noChild =>
        rw [hn] at h
        cases choice with
        | none =>
          simp only [call] at h
          split at h
          · cases h
          · rename_i hnone
            cases h
            exact .noChild hi hn fun q hq he => hnone (List.mem_map.mpr ⟨q, hq, he⟩)
        | some j =>
          simp only [call] at h
          split at h
          · rename_i child pp status hj
            split at h
            · rename_i he
              cases h
              exact .reap hi hn (he ▸ hj)
            · cases h
          · cases h
      | put line pc' => rw [hn] at h; cases h; exact .put hi hn
      | exit code => rw [hn] at h; cases h; exact .exit hi hn
    · cases h

/-! ## Weights of the processes -/

/-- A weight for each program point, and one for a zombie. -/
def weigh (f : τ → Int) (z : Int) (p : Proc τ) : Int :=
  match p.life with
  | .running pc => f pc
  | .zombie _ => z

section Weights

variable {f : τ → Int} {z : Int} {i j pid ppid child : Nat} {pc pc' : τ} {status : Status}

theorem tally_goes (hi : s.procs[i]? = some ⟨pid, ppid, .running pc⟩) (e : Event L) :
    tally (weigh f z) (s.goes i ⟨pid, ppid, .running pc⟩ pc' e).procs =
      tally (weigh f z) s.procs - f pc + f pc' := tally_set hi

theorem tally_forks (hi : s.procs[i]? = some ⟨pid, ppid, .running pc⟩) (inChild : τ) :
    tally (weigh f z) (s.forks i ⟨pid, ppid, .running pc⟩ inChild pc' child).procs =
      tally (weigh f z) s.procs - f pc + f pc' + f inChild := by
  unfold System.forks
  rw [tally_append, tally_set hi, tally_cons, tally_nil, add_zero]
  rfl

theorem tally_ends (hi : s.procs[i]? = some ⟨pid, ppid, .running pc⟩) (status : Status) :
    tally (weigh f z) (s.ends i ⟨pid, ppid, .running pc⟩ status).procs = tally (weigh f z) s.procs - f pc + z := by
  have horphan : ∀ p : Proc τ, weigh f z (orphan s.reaper pid p) = weigh f z p := by
    intro p
    unfold weigh
    rw [orphan_life]
  unfold System.ends
  rw [tally_map, tally_congr fun p _ => horphan p, tally_set hi]
  rfl

theorem ne_of_running (hi : s.procs[i]? = some ⟨pid, ppid, .running pc⟩) {q : Nat}
    (hj : s.procs[j]? = some ⟨child, q, .zombie status⟩) : i ≠ j := by
  rintro rfl
  rw [hi] at hj
  cases hj

theorem tally_reaps (hi : s.procs[i]? = some ⟨pid, ppid, .running pc⟩)
    (hj : s.procs[j]? = some ⟨child, pid, .zombie status⟩) :
    tally (weigh f z) (s.reaps i ⟨pid, ppid, .running pc⟩ pc' j child status).procs =
      tally (weigh f z) s.procs - f pc + f pc' - z := by
  have hj' : (s.procs.set i ⟨pid, ppid, .running pc'⟩)[j]? = some ⟨child, pid, .zombie status⟩ := by
    rw [List.getElem?_set_ne (ne_of_running hi hj), hj]
  unfold System.reaps
  rw [tally_eraseIdx hj', tally_set hi]
  rfl

theorem tally_adopts (hi : s.procs[i]? = some ⟨pid, ppid, .zombie status⟩) :
    tally (weigh f z) (s.procs.eraseIdx i) = tally (weigh f z) s.procs - z := tally_eraseIdx hi

end Weights

/-! ## The number of forks -/

/-- The forks that a process can still make at a program point, and that children do not fork. -/
structure Budget (next : τ → Call τ L) (forks : τ → Nat) : Prop where
  fork : ∀ {pc inChild inParent failed}, next pc = .fork inChild inParent failed →
    forks inChild = 0 ∧ (∀ pid, forks (inParent pid) < forks pc) ∧ forks failed ≤ forks pc
  wait : ∀ {pc reaped noChild}, next pc = .wait reaped noChild →
    (∀ pid status, forks (reaped pid status) ≤ forks pc) ∧ forks noChild ≤ forks pc
  put : ∀ {pc line pc'}, next pc = .put line pc' → forks pc' ≤ forks pc

/-- The passes of a loop from this one on, up to `last`. -/
def passes (last : Nat) : Option Nat → Nat
  | some i => last - i + 1
  | none => 0

/-- What a process can be at behind the pass `i`: a later pass, or none. -/
def Behind (last i : Nat) (pass : Option Nat) : Prop := ∀ j, pass = some j → i < j ∧ j ≤ last

theorem Behind.passes_lt {last i : Nat} {pass : Option Nat} (h : Behind last i pass) :
    passes last pass < passes last (some i) := by
  cases pass with
  | none => exact Nat.succ_pos _
  | some j =>
    have hj := h j rfl
    simp only [passes]
    omega

/-- A program that forks once in each pass of a loop, which its children leave. -/
theorem Budget.of_passes {last : Nat} {pass : τ → Option Nat}
    (fork : ∀ {pc inChild inParent failed}, next pc = .fork inChild inParent failed → ∃ i, pass pc = some i ∧
      pass inChild = none ∧ (∀ child, Behind last i (pass (inParent child))) ∧ Behind last i (pass failed))
    (wait : ∀ {pc reaped noChild}, next pc = .wait reaped noChild →
      (∀ child status, pass (reaped child status) = none) ∧ pass noChild = none)
    (put : ∀ {pc line pc'}, next pc = .put line pc' → pass pc' = none) :
    Budget next fun pc => passes last (pass pc) := by
  constructor
  · intro pc inChild inParent failed h
    obtain ⟨i, hi, hchild, hparent, hfailed⟩ := fork h
    rw [hi, hchild]
    exact ⟨rfl, fun child => (hparent child).passes_lt, le_of_lt hfailed.passes_lt⟩
  · intro pc reaped noChild h
    obtain ⟨hreaped, hnone⟩ := wait h
    rw [hnone]
    exact ⟨fun child status => by rw [hreaped]; exact Nat.zero_le _, Nat.zero_le _⟩
  · intro pc line pc' h
    rw [put h]
    exact Nat.zero_le _

/-- The forks, with who forked whom. -/
def forkings (log : List (Event L)) : List (Nat × Nat) :=
  log.filterMap fun e => match e with
    | .forked pid child => some (pid, child)
    | _ => none

theorem forkings_append (log : List (Event L)) (e : Event L) :
    forkings (log ++ [e]) = forkings log ++ forkings [e] := List.filterMap_append

/-- Every event that is not a fork. -/
theorem forkings_other {log : List (Event L)} {e : Event L} (he : forkings [e] = []) :
    forkings (log ++ [e]) = forkings log := by rw [forkings_append, he, List.append_nil]

/-- The forks that the processes can still make. -/
def forksLeft (forks : τ → Nat) : Proc τ → Int := weigh (fun pc => (forks pc : Int)) 0

variable {forks : τ → Nat}

theorem forksLeft_nonneg (p : Proc τ) : 0 ≤ forksLeft forks p := by
  unfold forksLeft weigh
  split
  · exact Int.natCast_nonneg _
  · omega

/-- What a run has forked and what its processes can still fork become no more. -/
theorem forks_step (hb : Budget next forks) (h : step next s a = some s') :
    ((forkings s'.log).length : Int) + tally (forksLeft forks) s'.procs ≤
      (forkings s.log).length + tally (forksLeft forks) s.procs := by
  unfold forksLeft
  cases step_moves h with
  | @fork i pid ppid child pc inChild failed inParent hi hn ho hp =>
    obtain ⟨hc, hlt, -⟩ := hb.fork hn
    have hlt := hlt child
    have hlog : (forkings (s.log ++ [.forked pid child])).length = (forkings s.log).length + 1 := by
      rw [forkings_append, List.length_append]
      rfl
    rw [tally_forks hi, hc]
    show ((forkings (s.log ++ [.forked pid child])).length : Int) + _ ≤ _
    rw [hlog]
    push_cast
    omega
  | forkFails hi hn =>
    have hle := (hb.fork hn).2.2
    rw [tally_goes hi]
    unfold System.goes
    rw [forkings_other rfl]
    omega
  | noChild hi hn h =>
    have hle := (hb.wait hn).2
    rw [tally_goes hi]
    unfold System.goes
    rw [forkings_other rfl]
    omega
  | put hi hn =>
    have hle := hb.put hn
    rw [tally_goes hi]
    unfold System.goes
    rw [forkings_other rfl]
    omega
  | exit hi hn =>
    rw [tally_ends hi]
    unfold System.ends
    rw [forkings_other rfl]
    omega
  | kill hi =>
    rw [tally_ends hi]
    unfold System.ends
    rw [forkings_other rfl]
    omega
  | @reap i pid ppid j child pc noChild reaped status hi hn hj =>
    have hle := (hb.wait hn).1 child status
    rw [tally_reaps hi hj]
    unfold System.reaps
    rw [forkings_other rfl]
    omega
  | adopt hi ho =>
    rw [tally_adopts hi, forkings_other rfl]
    omega

variable {outer : List Nat} {reaper pid ppid : Nat} {pc : τ} {ok : System τ L → Action → System τ L → Prop}

/-- **A run forks no more often than its first process can.** -/
theorem forks_le (hb : Budget next forks) (h : Reach ok (step next) (start outer reaper pid ppid pc) s) :
    (forkings s.log).length ≤ forks pc := by
  have hle : ((forkings s.log).length : Int) + tally (forksLeft forks) s.procs ≤ forks pc := by
    refine h.invariant (I := fun s => ((forkings s.log).length : Int) + tally (forksLeft forks) s.procs ≤ forks pc)
      ?_ fun _ _ _ hi hs _ => le_trans (forks_step hb hs) hi
    simp [forksLeft, start, forkings, weigh]
  have hpos : 0 ≤ tally (forksLeft forks) s.procs := tally_nonneg forksLeft_nonneg
  omega

theorem step_reaper (h : step next s a = some s') : s'.reaper = s.reaper := by
  cases step_moves h <;> rfl

/-- The reaper stays. -/
theorem run_reaper (h : Reach ok (step next) (start outer reaper pid ppid pc) s) : s.reaper = reaper :=
  h.invariant (I := fun s => s.reaper = reaper) rfl fun _ _ _ hi hs _ => (step_reaper hs).trans hi

/-! ## Laws of every process -/

/-- A process can go on from `pc` to `pc'`. -/
inductive Follows (next : τ → Call τ L) (pc : τ) : τ → Prop where
  | forked {inChild failed : τ} {inParent : Nat → τ} (h : next pc = .fork inChild inParent failed) (child : Nat) :
      Follows next pc (inParent child)
  | forkFailed {inChild failed : τ} {inParent : Nat → τ} (h : next pc = .fork inChild inParent failed) :
      Follows next pc failed
  | reaped {noChild : τ} {reaped : Nat → Status → τ} (h : next pc = .wait reaped noChild) (child : Nat)
      (status : Status) : Follows next pc (reaped child status)
  | noChild {noChild : τ} {reaped : Nat → Status → τ} (h : next pc = .wait reaped noChild) : Follows next pc noChild
  | put {pc' : τ} {line : Nat → Nat → L} (h : next pc = .put line pc') : Follows next pc pc'

/-- **Rule for laws of every process**: whoever goes on, is forked, ends or is orphaned keeps the law. -/
theorem each_step {Q : Proc τ → Prop}
    (goes : ∀ pid ppid pc pc', Q ⟨pid, ppid, .running pc⟩ → Follows next pc pc' → Q ⟨pid, ppid, .running pc'⟩)
    (child : ∀ pid ppid pc inChild inParent failed child, Q ⟨pid, ppid, .running pc⟩ →
      next pc = .fork inChild inParent failed → Q ⟨child, pid, .running inChild⟩)
    (ends : ∀ pid ppid pc status, Q ⟨pid, ppid, .running pc⟩ → Q ⟨pid, ppid, .zombie status⟩)
    (orphaned : ∀ reaper pid p, Q p → Q (orphan reaper pid p)) (hQ : ∀ p ∈ s.procs, Q p) (h : step next s a = some s') :
    ∀ p ∈ s'.procs, Q p := by
  have hset : ∀ {i : Nat} {q : Proc τ}, Q q → ∀ p ∈ s.procs.set i q, Q p := by
    intro i q hq p hp
    rcases List.mem_or_eq_of_mem_set hp with hold | rfl
    · exact hQ p hold
    · exact hq
  have hends : ∀ {i pid ppid : Nat} {pc : τ} {status : Status}, s.procs[i]? = some ⟨pid, ppid, .running pc⟩ →
      ∀ p ∈ (s.ends i ⟨pid, ppid, .running pc⟩ status).procs, Q p := by
    intro i pid ppid pc status hi p hp
    obtain ⟨q, hq, rfl⟩ := List.mem_map.mp hp
    exact orphaned _ _ q (hset (ends _ _ _ _ (hQ _ (List.mem_of_getElem? hi))) q hq)
  cases step_moves h with
  | fork hi hn ho hp =>
    have hq := hQ _ (List.mem_of_getElem? hi)
    intro p hp'
    rcases List.mem_append.mp hp' with hold | hnew
    · exact hset (goes _ _ _ _ hq (.forked hn _)) p hold
    · rw [List.mem_singleton] at hnew
      exact hnew ▸ child _ _ _ _ _ _ _ hq hn
  | forkFails hi hn => exact hset (goes _ _ _ _ (hQ _ (List.mem_of_getElem? hi)) (.forkFailed hn))
  | noChild hi hn _ => exact hset (goes _ _ _ _ (hQ _ (List.mem_of_getElem? hi)) (.noChild hn))
  | put hi hn => exact hset (goes _ _ _ _ (hQ _ (List.mem_of_getElem? hi)) (.put hn))
  | reap hi hn hj =>
    intro p hp
    exact hset (goes _ _ _ _ (hQ _ (List.mem_of_getElem? hi)) (.reaped hn _ _)) p (List.mem_of_mem_eraseIdx hp)
  | exit hi hn => exact hends hi
  | kill hi => exact hends hi
  | adopt hi ho => exact fun p hp => hQ p (List.mem_of_mem_eraseIdx hp)

theorem Budget.follows (hb : Budget next forks) {pc pc' : τ} (h : Follows next pc pc') : forks pc' ≤ forks pc := by
  cases h with
  | forked h child => exact le_of_lt ((hb.fork h).2.1 child)
  | forkFailed h => exact (hb.fork h).2.2
  | reaped h child status => exact (hb.wait h).1 child status
  | noChild h => exact (hb.wait h).2
  | put h => exact hb.put h

/-- Only the process `pid` can fork, or has forked. -/
structure Flat (forks : τ → Nat) (pid : Nat) (s : System τ L) : Prop where
  budget : ∀ p ∈ s.procs, 0 < forksLeft forks p → p.pid = pid
  forked : ∀ e ∈ forkings s.log, e.1 = pid

theorem flat_step (hb : Budget next forks) (hf : Flat forks pid s) (h : step next s a = some s') :
    Flat forks pid s' := by
  refine ⟨each_step (Q := fun p => 0 < forksLeft forks p → p.pid = pid) ?_ ?_ ?_ ?_ hf.budget h, ?_⟩
  · intro p pp pc pc' hq hn hpos
    have hle := hb.follows hn
    have hpos' : (0 : Int) < forks pc' := hpos
    exact hq (show (0 : Int) < forks pc by omega)
  · intro p pp pc inChild inParent failed child _ hn hpos
    have hpos' : (0 : Int) < forks inChild := hpos
    rw [(hb.fork hn).1] at hpos'
    exact absurd hpos' (by decide)
  · intro p pp pc status _ hpos
    exact absurd (show (0 : Int) < 0 from hpos) (by decide)
  · intro reaper parent p hq hpos
    rw [orphan_pid]
    rw [forksLeft, weigh, orphan_life] at hpos
    exact hq hpos
  · intro e he
    cases step_moves h with
    | @fork i p pp child pc inChild failed inParent hi hn ho hp =>
      have hmem : e ∈ forkings (s.log ++ [.forked p child]) := he
      rw [forkings_append, List.mem_append] at hmem
      rcases hmem with hold | hnew
      · exact hf.forked e hold
      · have heq : e = (p, child) := by simpa [forkings] using hnew
        have hlt := (hb.fork hn).2.1 child
        have hpos : (0 : Int) < forks pc := by omega
        exact heq ▸ hf.budget _ (List.mem_of_getElem? hi) hpos
    | forkFails | noChild | put =>
      unfold System.goes at he
      rw [forkings_other rfl] at he
      exact hf.forked e he
    | exit | kill =>
      unfold System.ends at he
      rw [forkings_other rfl] at he
      exact hf.forked e he
    | reap =>
      unfold System.reaps at he
      rw [forkings_other rfl] at he
      exact hf.forked e he
    | adopt =>
      rw [forkings_other rfl] at he
      exact hf.forked e he

/-- **Only the first process forks.** -/
theorem forks_by (hb : Budget next forks) (h : Reach ok (step next) (start outer reaper pid ppid pc) s) :
    ∀ e ∈ forkings s.log, e.1 = pid := by
  refine (h.invariant (I := Flat forks pid) ⟨?_, ?_⟩ fun _ _ _ hi hs _ => flat_step hb hi hs).forked
  · intro p hp _
    rw [start, List.mem_singleton] at hp
    exact congrArg Proc.pid hp
  · intro e he
    cases he

/-! ## How processes have ended -/

/-- A zombie has ended with its status, and so has whoever has been waited for. -/
structure Recorded (s : System τ L) : Prop where
  zombies : ∀ p ∈ s.procs, ∀ status, p.life = .zombie status → .ended p.pid status ∈ s.log
  reaped : ∀ parent child status, .reaped parent child status ∈ s.log → .ended child status ∈ s.log

theorem Recorded.goes (hr : Recorded s) {i q : Nat} {pc₁ pc₂ : τ} {e : Event L}
    (he : ∀ parent child status, e ≠ .reaped parent child status) :
    Recorded (s.goes i ⟨pid, q, .running pc₁⟩ pc₂ e) := by
  refine ⟨fun p hp status hst => ?_, fun parent child status hmem => ?_⟩
  · apply List.mem_append_left
    rcases List.mem_or_eq_of_mem_set hp with hold | rfl
    · exact hr.zombies p hold status hst
    · cases hst
  · apply List.mem_append_left
    rcases List.mem_append.mp hmem with hold | hnew
    · exact hr.reaped parent child status hold
    · rw [List.mem_singleton] at hnew
      exact absurd hnew.symm (he parent child status)

theorem Recorded.ends (hr : Recorded s) {i q : Nat} {pc₁ : τ} (status : Status) :
    Recorded (s.ends i ⟨pid, q, .running pc₁⟩ status) := by
  refine ⟨fun p hp st hst => ?_, fun parent child st hmem => ?_⟩
  · obtain ⟨x, hx, rfl⟩ := List.mem_map.mp hp
    rw [orphan_life] at hst
    rw [orphan_pid]
    rcases List.mem_or_eq_of_mem_set hx with hold | rfl
    · exact List.mem_append_left _ (hr.zombies x hold st hst)
    · cases hst
      exact List.mem_append_right _ List.mem_cons_self
  · apply List.mem_append_left
    rcases List.mem_append.mp hmem with hold | hnew
    · exact hr.reaped parent child st hold
    · rw [List.mem_singleton] at hnew
      cases hnew

theorem recorded_step (hr : Recorded s) (h : step next s a = some s') : Recorded s' := by
  cases step_moves h with
  | @fork i p q child pc₁ inChild failed inParent hi hn ho hp =>
    refine ⟨fun x hx status hst => ?_, fun parent c status hmem => ?_⟩
    · apply List.mem_append_left
      rcases List.mem_append.mp hx with hold | hnew
      · rcases List.mem_or_eq_of_mem_set hold with hold | rfl
        · exact hr.zombies x hold status hst
        · cases hst
      · rw [List.mem_singleton] at hnew
        subst hnew
        cases hst
    · apply List.mem_append_left
      rcases List.mem_append.mp hmem with hold | hnew
      · exact hr.reaped parent c status hold
      · rw [List.mem_singleton] at hnew
        cases hnew
  | forkFails hi hn => exact hr.goes (by simp)
  | noChild hi hn hnone => exact hr.goes (by simp)
  | put hi hn => exact hr.goes (by simp)
  | exit hi hn => exact hr.ends _
  | kill hi => exact hr.ends _
  | @reap i p q j child pc₁ noChild reaped status hi hn hj =>
    refine ⟨fun x hx st hst => ?_, fun parent c st hmem => ?_⟩
    · apply List.mem_append_left
      rcases List.mem_or_eq_of_mem_set (List.mem_of_mem_eraseIdx hx) with hold | rfl
      · exact hr.zombies x hold st hst
      · cases hst
    · apply List.mem_append_left
      rcases List.mem_append.mp hmem with hold | hnew
      · exact hr.reaped parent c st hold
      · rw [List.mem_singleton] at hnew
        cases hnew
        exact hr.zombies _ (List.mem_of_getElem? hj) _ rfl
  | @adopt i p q status hi ho =>
    refine ⟨fun x hx st hst => ?_, fun parent c st hmem => ?_⟩
    · exact List.mem_append_left _ (hr.zombies x (List.mem_of_mem_eraseIdx hx) st hst)
    · apply List.mem_append_left
      rcases List.mem_append.mp hmem with hold | hnew
      · exact hr.reaped parent c st hold
      · rw [List.mem_singleton] at hnew
        cases hnew
        exact hr.zombies _ (List.mem_of_getElem? hi) _ rfl

theorem run_recorded (h : Reach ok (step next) (start outer reaper pid ppid pc) s) : Recorded s := by
  refine h.invariant ⟨fun p hp status hst => ?_, fun _ _ _ hmem => (by cases hmem)⟩ fun _ _ _ hi hs _ =>
    recorded_step hi hs
  rw [start, List.mem_singleton] at hp
  subst hp
  cases hst

/-! ## The end of a run -/

/-- A cost of every program point, and one of a zombie, that pays for what follows. -/
structure Costs (next : τ → Call τ L) (cost : τ → Nat) (zombie : Nat) : Prop where
  pos : 0 < zombie
  fork : ∀ {pc inChild inParent failed}, next pc = .fork inChild inParent failed →
    (∀ child, cost (inParent child) + cost inChild < cost pc) ∧ cost failed < cost pc
  wait : ∀ {pc reaped noChild}, next pc = .wait reaped noChild →
    (∀ child status, cost (reaped child status) < cost pc + zombie) ∧ cost noChild < cost pc
  put : ∀ {pc line pc'}, next pc = .put line pc' → cost pc' < cost pc
  ends : ∀ pc, zombie < cost pc

/-- What the processes still cost. -/
def expense (cost : τ → Nat) (zombie : Nat) (s : System τ L) : Int :=
  tally (weigh (fun pc => (cost pc : Int)) zombie) s.procs

variable {cost : τ → Nat} {zombie : Nat}

theorem expense_step (hc : Costs next cost zombie) (h : step next s a = some s') :
    expense cost zombie s' + 1 ≤ expense cost zombie s := by
  have hz := hc.pos
  unfold expense
  cases step_moves h with
  | @fork i p q child pc₁ inChild failed inParent hi hn ho hp =>
    have hlt := (hc.fork hn).1 child
    rw [tally_forks hi]
    omega
  | forkFails hi hn =>
    have hlt := (hc.fork hn).2
    rw [tally_goes hi]
    omega
  | @reap i p q j child pc₁ noChild reaped status hi hn hj =>
    have hlt := (hc.wait hn).1 child status
    rw [tally_reaps hi hj]
    omega
  | noChild hi hn hnone =>
    have hlt := (hc.wait hn).2
    rw [tally_goes hi]
    omega
  | put hi hn =>
    have hlt := hc.put hn
    rw [tally_goes hi]
    omega
  | @exit i p q choice pc₁ code hi hn =>
    have hlt := hc.ends pc₁
    rw [tally_ends hi]
    omega
  | @kill i p q sig pc₁ hi =>
    have hlt := hc.ends pc₁
    rw [tally_ends hi]
    omega
  | adopt hi ho =>
    rw [tally_adopts hi]
    omega

theorem expense_nonneg (cost : τ → Nat) (zombie : Nat) (s : System τ L) : 0 ≤ expense cost zombie s := by
  refine tally_nonneg fun p => ?_
  unfold weigh
  split <;> exact Int.natCast_nonneg _

/-- **No run goes on for ever.** -/
theorem run_length_le (hc : Costs next cost zombie) (as : List Action)
    (h : exec (step next) (start outer reaper pid ppid pc) as = some s) : as.length ≤ cost pc := by
  have hgen : ∀ (as : List Action) (s₁ : System τ L), exec (step next) s₁ as = some s →
      (as.length : Int) + expense cost zombie s ≤ expense cost zombie s₁ := by
    intro as
    induction as with
    | nil =>
      intro s₁ h₁
      cases h₁
      simp
    | cons a as ih =>
      intro s₁ h₁
      obtain ⟨s₂, hs, hrest⟩ := exec_cons h₁
      have h2 := ih s₂ hrest
      have h3 := expense_step hc hs
      rw [List.length_cons]
      push_cast
      omega
  have hle := hgen as _ h
  have hpos := expense_nonneg cost zombie s
  have hstart : expense cost zombie (start (L := L) outer reaper pid ppid pc) = cost pc := by
    simp [expense, start, weigh]
  omega

end Library.Processes
