import CppBackend.SharedMutexs.Model

/-!
# Every reader prints the value that was current

The output is a history of the value: while no writer has `rw_mtx`, `config_value` is what the last writer has
printed, and a reader prints what the last writer before it has printed, or 100 (`Current`).  A reader knows that
the value which it has read is still current (`Knows`), since no writer can come in between.

The pieces of the readers' lines may be mixed.  A writer prints its line as a whole (`Whole`).
-/

set_option autoImplicit false

namespace CppBackend.SharedMutexs

open Library.Transition Library.Tally Library.Threads Library.SharedMutex

/-! ## One step of a thread -/

/-- A reader prints this piece, and goes on. -/
inductive ReaderPrints (id : Nat) : ReaderPc → Piece → ReaderPc → Prop where
  | label : ReaderPrints id .label (.text "Reader ") .threadId
  | threadId : ReaderPrints id .threadId (.threadId id) .text
  | text : ReaderPrints id .text (.text ": config_value = ") .read
  | value {v : Int} : ReaderPrints id (.value v) (.value v) .endl
  | endl : ReaderPrints id .endl .endl .unlock

/-- A writer prints this piece, and goes on. -/
inductive WriterPrints (v : Int) : WriterPc → Piece → WriterPc → Prop where
  | label : WriterPrints v .label (.text "Writer: update config_value to ") .value
  | value : WriterPrints v .value (.value v) .endl
  | endl : WriterPrints v .endl .endl .unlock

/-- Everything that a thread can do in one step. -/
inductive Moves (sh : Shared) : Thread → Shared → Thread → Prop where
  | lockShared {id : Nat} (h : sh.writing = false) :
      Moves sh (.reader id .lock) { sh with readers := sh.readers + 1 } (.reader id .label)
  | read {id : Nat} : Moves sh (.reader id .read) sh (.reader id (.value sh.configValue))
  | readerPrints {id : Nat} {pc pc' : ReaderPc} {piece : Piece} (h : ReaderPrints id pc piece pc') :
      Moves sh (.reader id pc) (sh.print (.reader id piece)) (.reader id pc')
  | unlockShared {id : Nat} :
      Moves sh (.reader id .unlock) { sh with readers := sh.readers - 1 } (.reader id .done)
  | lock {v : Int} (h : sh.writing = false) (h0 : sh.readers = 0) :
      Moves sh (.writer v .lock) { sh with writing := true } (.writer v .write)
  | write {v : Int} : Moves sh (.writer v .write) { sh with configValue := v } (.writer v .label)
  | writerPrints {v : Int} {pc pc' : WriterPc} {piece : Piece} (h : WriterPrints v pc piece pc') :
      Moves sh (.writer v pc) (sh.print (.writer piece)) (.writer v pc')
  | unlock {v : Int} : Moves sh (.writer v .unlock) { sh with writing := false } (.writer v .done)
  | join {pc pc' : MainPc} (h : joins pc = some pc') : Moves sh (.main pc) sh (.main pc')

theorem reader_moves {sh sh' : Shared} {id : Nat} {pc pc' : ReaderPc} (h : readConfig id sh pc = some (sh', pc')) :
    Moves sh (.reader id pc) sh' (.reader id pc') := by
  cases pc with
  | lock =>
    simp only [readConfig] at h
    split at h <;> cases h
    exact .lockShared (by simpa using ‹¬sh.writing = true›)
  | label => cases h; exact .readerPrints .label
  | threadId => cases h; exact .readerPrints .threadId
  | text => cases h; exact .readerPrints .text
  | read => cases h; exact .read
  | value v => cases h; exact .readerPrints .value
  | endl => cases h; exact .readerPrints .endl
  | unlock => cases h; exact .unlockShared
  | done => cases h

theorem writer_moves {sh sh' : Shared} {v : Int} {pc pc' : WriterPc} (h : writeConfig v sh pc = some (sh', pc')) :
    Moves sh (.writer v pc) sh' (.writer v pc') := by
  cases pc with
  | lock =>
    simp only [writeConfig] at h
    split at h <;> cases h
    rename_i hn
    simp only [Bool.or_eq_true, decide_eq_true_eq, not_or, not_not, Bool.not_eq_true] at hn
    exact .lock hn.1 hn.2
  | write => cases h; exact .write
  | label => cases h; exact .writerPrints .label
  | value => cases h; exact .writerPrints .value
  | endl => cases h; exact .writerPrints .endl
  | unlock => cases h; exact .unlock
  | done => cases h

theorem thread_moves {sh sh' : Shared} {t t' : Thread} {sig : Signal Unit}
    (h : threadStep sh t () = some (sh', t', sig)) : Moves sh t sh' t' ∧ sig = .quiet := by
  cases t with
  | reader id pc =>
    obtain ⟨⟨sh₁, pc₁⟩, hr, he⟩ := Option.map_eq_some_iff.mp h
    cases he
    exact ⟨reader_moves hr, rfl⟩
  | writer v pc =>
    obtain ⟨⟨sh₁, pc₁⟩, hw, he⟩ := Option.map_eq_some_iff.mp h
    cases he
    exact ⟨writer_moves hw, rfl⟩
  | main pc =>
    obtain ⟨pc₁, hm, he⟩ := Option.map_eq_some_iff.mp h
    cases he
    exact ⟨.join hm, rfl⟩

variable {last : Nat} {s s' : Run} {a : Nat × Unit} {values : List Int}
  {ok : Run → Nat × Unit → Run → Prop}

/-- **Inversion of a step.** -/
theorem step_moves (h : step last s a = some s') :
    ∃ t t', s.threads[a.1]? = some t ∧ Moves s.shared t s'.shared t' ∧ s'.threads = s.threads.set a.1 t' ∧
      joining last s.threads t = false := by
  obtain ⟨t, t', sig, ht, hp, hd⟩ := step_inv h
  obtain ⟨hm, rfl⟩ := thread_moves hp
  generalize hts : s.threads.set a.1 t' = ts at hd
  cases hd
  exact ⟨t, t', ht, hm, hts.symm, step_not_joining h ht⟩

/-! ## The history of the value -/

/-- The value that the last writer has printed, when it was `v` before. -/
def valueAfter (v : Int) : List Output → Int
  | [] => v
  | .writer (.value v') :: cout => valueAfter v' cout
  | _ :: cout => valueAfter v cout

/-- Every reader prints the value that was current. -/
def Current (v : Int) : List Output → Prop
  | [] => True
  | .reader _ (.value v') :: cout => v' = v ∧ Current v cout
  | o :: cout => Current (valueAfter v [o]) cout

theorem valueAfter_append (cout cout' : List Output) (v : Int) :
    valueAfter v (cout ++ cout') = valueAfter (valueAfter v cout) cout' := by
  induction cout generalizing v with
  | nil => rfl
  | cons o cout ih =>
    cases o with
    | reader id p => exact ih v
    | writer p => cases p <;> exact ih _

theorem current_append (cout cout' : List Output) (v : Int) :
    Current v (cout ++ cout') ↔ Current v cout ∧ Current (valueAfter v cout) cout' := by
  induction cout generalizing v with
  | nil => simp [Current, valueAfter]
  | cons o cout ih =>
    cases o with
    | reader id p => cases p <;> simp [Current, valueAfter, ih, and_assoc]
    | writer p => cases p <;> simp [Current, valueAfter, ih]

/-- A value that a reader has printed. -/
theorem Current.split {v w : Int} {pre post : List Output} {id : Nat}
    (h : Current v (pre ++ .reader id (.value w) :: post)) : w = valueAfter v pre :=
  ((current_append pre _ v).mp h).2.1

theorem valueAfter_reader {v : Int} {cout : List Output} {id : Nat} {p : Piece} :
    valueAfter v (cout ++ [.reader id p]) = valueAfter v cout := by
  rw [valueAfter_append]
  rfl

theorem current_reader {v : Int} {cout : List Output} {id : Nat} {p : Piece} :
    Current v (cout ++ [.reader id p]) ↔ Current v cout ∧ ∀ w, p = .value w → w = valueAfter v cout := by
  rw [current_append]
  cases p <;> simp [Current]

/-! ## The lines of the writers -/

/-- `"Writer: update config_value to " << new_value << std::endl`. -/
def writerLine (v : Int) : List Output :=
  [.writer (.text "Writer: update config_value to "), .writer (.value v), .writer .endl]

/-- Nobody has printed inside a line of a writer. -/
inductive Whole : List Output → Prop where
  | nil : Whole []
  | reader {cout : List Output} {id : Nat} {p : Piece} (h : Whole cout) : Whole (cout ++ [.reader id p])
  | writer {cout : List Output} {v : Int} (h : Whole cout) : Whole (cout ++ writerLine v)

/-! ## What `rw_mtx` protects -/

structure Settled (sh : Shared) : Prop where
  current : Current 100 sh.cout
  whole : Whole sh.cout
  value : sh.configValue = valueAfter 100 sh.cout

/-- A writer has written the value, and printed `k` pieces of its line. -/
def Printing (v : Int) (k : Nat) (sh : Shared) : Prop :=
  sh.configValue = v ∧ ∃ done, sh.cout = done ++ (writerLine v).take k ∧ Current 100 done ∧ Whole done

/-- What the holder of `rw_mtx` knows at its program point. -/
def Knows : Thread → Shared → Prop
  | .reader _ (.value v), sh => v = sh.configValue
  | .reader _ _, _ => True
  | .writer v .label, sh => Printing v 0 sh
  | .writer v .value, sh => Printing v 1 sh
  | .writer v .endl, sh => Printing v 2 sh
  | .writer _ _, sh => Settled sh
  | .main _, _ => True

theorem settled_reader {sh : Shared} {id : Nat} {p : Piece} (h : Settled sh)
    (hp : ∀ w, p = .value w → w = sh.configValue) : Settled (sh.print (.reader id p)) := by
  refine ⟨current_reader.mpr ⟨h.current, fun w hw => ?_⟩, .reader h.whole, ?_⟩
  · rw [hp w hw, h.value]
  · show sh.configValue = _
    rw [h.value]
    exact valueAfter_reader.symm

theorem current_writerLine {done : List Output} {v : Int} (h : Current 100 done) (k : Nat) :
    Current 100 (done ++ (writerLine v).take k) := by
  rw [current_append]
  refine ⟨h, ?_⟩
  rcases k with _ | _ | _ | k <;> simp [writerLine, Current]

theorem settled_writer {sh : Shared} {v : Int} (h : Printing v 3 sh) : Settled sh := by
  obtain ⟨hv, done, hcout, hcur, hwhole⟩ := h
  refine ⟨?_, ?_, ?_⟩
  · rw [hcout]
    exact current_writerLine hcur 3
  · rw [hcout]
    exact .writer hwhole
  · rw [hcout, hv, valueAfter_append]
    rfl

theorem printing_print {sh : Shared} {v : Int} {k : Nat} {o : Output} (h : Printing v k sh)
    (ho : (writerLine v)[k]? = some o) : Printing v (k + 1) (sh.print o) := by
  obtain ⟨hv, done, hcout, hcur, hwhole⟩ := h
  refine ⟨hv, done, ?_, hcur, hwhole⟩
  show sh.cout ++ [o] = _
  rw [hcout, List.append_assoc, List.take_add_one, ho]
  rfl

theorem Knows.output {t : Thread} {sh : Shared} (h : Knows t sh) (ht : hold t = .exclusive) :
    ∃ v k, ∃ done, sh.cout = done ++ (writerLine v).take k ∧ Current 100 done ∧ Whole done := by
  have hsettled : Settled sh → ∃ v k, ∃ done, sh.cout = done ++ (writerLine v).take k ∧ Current 100 done ∧ Whole done :=
    fun hs => ⟨0, 0, sh.cout, by simp, hs.current, hs.whole⟩
  cases t with
  | reader id pc => cases pc <;> cases ht
  | main pc => cases ht
  | writer v pc =>
    cases pc with
    | label => exact ⟨v, 0, h.2⟩
    | value => exact ⟨v, 1, h.2⟩
    | endl => exact ⟨v, 2, h.2⟩
    | write | unlock => exact hsettled h
    | lock | done => cases ht

/-- A reader's knowledge is about the value only. -/
theorem knows_reader {sh sh' : Shared} {u : Thread} (hu : hold u = .shared)
    (hv : sh'.configValue = sh.configValue) (h : Knows u sh) : Knows u sh' := by
  cases u with
  | reader id pc =>
    cases pc with
    | value v => exact Eq.trans (b := sh.configValue) h hv.symm
    | _ => trivial
  | writer v pc => cases pc <;> cases hu
  | main pc => cases hu

/-- Who has `rw_mtx` does not matter to what is known. -/
theorem knows_same {sh sh' : Shared} {u : Thread} (hv : sh'.configValue = sh.configValue)
    (hc : sh'.cout = sh.cout) (h : Knows u sh) : Knows u sh' := by
  have hs : Settled sh → Settled sh' := fun h => ⟨hc ▸ h.current, hc ▸ h.whole, by rw [hv, hc]; exact h.value⟩
  have hp : ∀ v k, Printing v k sh → Printing v k sh' := by
    rintro v k ⟨hval, done, hcout, hcur⟩
    exact ⟨hv.trans hval, done, hc.trans hcout, hcur⟩
  cases u with
  | reader id pc =>
    cases pc with
    | value v => exact Eq.trans (b := sh.configValue) h hv.symm
    | _ => trivial
  | writer v pc =>
    cases pc with
    | label | value | endl => exact hp _ _ h
    | _ => exact hs h
  | main pc => trivial

theorem readerPrints_guarded {sh : Shared} {id : Nat} {pc pc' : ReaderPc} {piece : Piece}
    (h : ReaderPrints id pc piece pc') :
    Guarded rwMtx Settled Knows sh (.reader id pc) (sh.print (.reader id piece)) (.reader id pc') := by
  have hheld : hold (.reader id pc) = .shared ∧ hold (.reader id pc') = .shared := by
    cases h <;> exact ⟨rfl, rfl⟩
  refine .reading rfl rfl hheld.1 hheld.2 (fun hs hk => ⟨settled_reader hs fun w hw => ?_, ?_⟩)
    fun u hu => knows_reader hu rfl
  · cases h with
    | value =>
      cases hw
      exact hk
    | label | threadId | text | endl => cases hw
  · cases h <;> trivial

theorem writerPrints_guarded {sh : Shared} {v : Int} {pc pc' : WriterPc} {piece : Piece}
    (h : WriterPrints v pc piece pc') :
    Guarded rwMtx Settled Knows sh (.writer v pc) (sh.print (.writer piece)) (.writer v pc') := by
  cases h with
  | label => exact .writing rfl rfl rfl rfl fun hp => printing_print (k := 0) hp rfl
  | value => exact .writing rfl rfl rfl rfl fun hp => printing_print (k := 1) hp rfl
  | endl => exact .writing rfl rfl rfl rfl fun hp => settled_writer (printing_print (k := 2) hp rfl)

theorem moves_guarded {sh sh' : Shared} {t t' : Thread} (h : Moves sh t sh' t')
    (hpos : hold t = .shared → 0 < sh.readers) : Guarded rwMtx Settled Knows sh t sh' t' := by
  cases h with
  | lockShared h =>
    exact .lockShared h h rfl rfl rfl (fun hs => ⟨⟨hs.current, hs.whole, hs.value⟩, trivial⟩) fun u =>
      knows_same rfl rfl
  | read => exact .reading rfl rfl rfl rfl (fun hs _ => ⟨hs, rfl⟩) fun u _ hu => hu
  | readerPrints h => exact readerPrints_guarded h
  | unlockShared =>
    have h0 := hpos rfl
    exact .unlockShared rfl (show sh.readers = sh.readers - 1 + 1 by omega) rfl rfl
      (fun hs _ => ⟨hs.current, hs.whole, hs.value⟩) fun u hu => knows_reader hu rfl
  | lock h h0 => exact .lock h h0 rfl h0 rfl rfl fun hs => ⟨hs.current, hs.whole, hs.value⟩
  | write =>
    refine .writing rfl rfl rfl rfl fun (hs : Settled sh) => ⟨rfl, sh.cout, ?_, hs.current, hs.whole⟩
    rw [List.take_zero, List.append_nil]
  | writerPrints h => exact writerPrints_guarded h
  | unlock => exact .unlock rfl rfl rfl rfl fun (hs : Settled sh) => ⟨hs.current, hs.whole, hs.value⟩
  | join h => exact .outside rfl rfl rfl rfl id fun u hu => hu

structure Locks (s : Run) : Prop where
  excludes : Excludes rwMtx s
  kept : Kept rwMtx Settled Knows s

theorem locks_step (hl : Locks s) (h : step last s a = some s') : Locks s' := by
  obtain ⟨t, t', ht, hm, hs, -⟩ := step_moves h
  have hd : Delivered (program last) .quiet (s.threads.set a.1 t') s'.threads := by
    rw [hs]
    exact .quiet _
  have hasleep : ∀ (cv : Unit) (u : Thread), (program last).asleep cv u = true → False := fun _ _ h => by cases h
  have hpos : hold t = .shared → 0 < s.shared.readers := by
    intro hh
    have hcount := hl.excludes.readers
    have hone := tally_ind_pos (p := rwMtx.reads) (List.mem_of_getElem? ht) (by simp [Mutex.reads, rwMtx, hh])
    rw [hcount] at hone
    exact_mod_cast hone
  have hg := moves_guarded hm hpos
  exact ⟨excludes_step (fun cv u hu => (hasleep cv u hu).elim) hl.excludes ht hg hd,
    kept_step (fun cv u hu => (hasleep cv u hu).elim) (fun cv u hu => (hasleep cv u hu).elim) hl.excludes hl.kept
      ht hg hd⟩

theorem hold_init {t : Thread} (ht : t ∈ (init last values).threads) : hold t = .free := by
  simp only [init, startReaders, List.mem_append, List.mem_map, List.mem_singleton] at ht
  rcases ht with (⟨v, -, rfl⟩ | ⟨k, -, rfl⟩) | rfl <;> rfl

theorem locks_init (last : Nat) (values : List Int) : Locks (init last values) := by
  refine ⟨⟨?_, ?_, fun h => (by cases h)⟩, fun _ => ⟨trivial, .nil, rfl⟩, fun j t ht hh => ?_⟩
  · exact tally_eq_zero fun t ht => by simp [ind, Mutex.writes, rwMtx, hold_init ht]
  · exact tally_eq_zero fun t ht => by simp [ind, Mutex.reads, rwMtx, hold_init ht]
  · exact absurd (hold_init (List.mem_of_getElem? ht)) hh

theorem run_locks (h : Reach ok (step last) (init last values) s) : Locks s :=
  h.invariant (locks_init last values) fun _ _ _ hl hs _ => locks_step hl hs

/-- The output is a history of the value, and a writer may be in the middle of its line. -/
theorem Locks.output (hl : Locks s) :
    ∃ v k done, s.shared.cout = done ++ (writerLine v).take k ∧ Current 100 done ∧ Whole done ∧
      (s.shared.writing = false → k = 0) := by
  cases hw : s.shared.writing with
  | false =>
    have hs := hl.kept.unwritten hw
    exact ⟨0, 0, s.shared.cout, by simp, hs.current, hs.whole, fun _ => rfl⟩
  | true =>
    have hcount : tally (ind rwMtx.writes) s.threads = 1 := by
      rw [hl.excludes.writer]
      exact if_pos hw
    obtain ⟨t, ht, hh⟩ := exists_of_tally_ind (p := rwMtx.writes) (l := s.threads) (by omega)
    have hhold : hold t = .exclusive := of_decide_eq_true hh
    have hk : Knows t s.shared := hl.kept.held.mem ht (by rw [show rwMtx.hold t = _ from hhold]; decide)
    obtain ⟨v, k, done, hcout, hcur, hwhole⟩ := hk.output hhold
    refine ⟨v, k, done, hcout, hcur, hwhole, fun hc => ?_⟩
    cases hc

/-- **Every reader prints the value that was current**: the one that the last writer before it has printed, or 100.
    While no writer has `rw_mtx`, this value is in `config_value`.  A writer has `rw_mtx` alone, and nobody prints
    inside its line. -/
theorem lines_current (last : Nat) (values : List Int) (s : Run)
    (h : Reach anyStep (step last) (init last values) s) :
    (∀ pre post id v, s.shared.cout = pre ++ .reader id (.value v) :: post → v = valueAfter 100 pre) ∧
    (∃ v k done, s.shared.cout = done ++ (writerLine v).take k ∧ Whole done ∧ (s.shared.writing = false → k = 0)) ∧
    (s.shared.writing = false → s.shared.configValue = valueAfter 100 s.shared.cout) ∧
    ∀ (i j : Nat) (t u : Thread), s.threads[i]? = some t → s.threads[j]? = some u → j ≠ i →
      hold t = .exclusive → hold u = .free := by
  have hl := run_locks h
  obtain ⟨v, k, done, hcout, hcur, hwhole, hk⟩ := hl.output
  refine ⟨fun pre post id w hc => ?_, ⟨v, k, done, hcout, hwhole, hk⟩, fun hw => (hl.kept.unwritten hw).value,
    fun i j t u ht hu hij hh => hl.excludes.alone ht hh hu hij⟩
  have hall := current_writerLine (v := v) hcur k
  rw [← hcout, hc] at hall
  exact hall.split

theorem lines_current_readers :
    let s := (exec (step 2) (init 2 [200]) readersFirst).get (by decide)
    s.shared.cout = [.reader 2 (.text "Reader "), .reader 1 (.text "Reader "), .reader 1 (.threadId 1),
        .reader 2 (.threadId 2), .reader 2 (.text ": config_value = "), .reader 1 (.text ": config_value = "),
        .reader 2 (.value 100), .reader 2 .endl, .reader 1 (.value 100), .reader 1 .endl] ++ writerLine 200 ∧
      (∀ pre post id v, s.shared.cout = pre ++ .reader id (.value v) :: post → v = valueAfter 100 pre) ∧
      (∃ v k done, s.shared.cout = done ++ (writerLine v).take k ∧ Whole done ∧
        (s.shared.writing = false → k = 0)) ∧
      (s.shared.writing = false → s.shared.configValue = valueAfter 100 s.shared.cout) ∧
      ∀ (i j : Nat) (t u : Thread), s.threads[i]? = some t → s.threads[j]? = some u → j ≠ i →
        hold t = .exclusive → hold u = .free :=
  ⟨rfl, lines_current 2 [200] _ (exec_reach_get readersFirst (by decide))⟩

end CppBackend.SharedMutexs
