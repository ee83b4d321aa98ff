import CppBackend.SharedMutexs.Lines
import Mathlib.Data.List.Nodup

/-!
# The end of `main`

`main` returns only when all threads have ended.  By then each reader has printed the pieces of its line, in their
order and once (`Printed`), each writer has printed its line, and `config_value` has what the last one wrote
(`returned_complete`).  Nothing keeps `main` from getting there:
whoever holds `rw_mtx` goes on to its end without waiting, and when nobody holds it, anybody can lock it
(`can_return`).
-/

set_option autoImplicit false

namespace CppBackend.SharedMutexs

open Library.Transition Library.Tally Library.Threads Library.SharedMutex

variable {last : Nat} {s s' : Run} {a : Nat × Unit} {values : List Int}
  {ok : Run → Nat × Unit → Run → Prop}

/-! ## Every reader prints its line once -/

/-- `"Reader " << thread_id << ": config_value = " << config_value << std::endl`. -/
def readerLine (id : Nat) (v : Int) : List Piece :=
  [.text "Reader ", .threadId id, .text ": config_value = ", .value v, .endl]

def Output.by (id : Nat) : Output → Option Piece
  | .reader k p => if k = id then some p else none
  | .writer _ => none

/-- What the reader with this number has printed. -/
def printedBy (id : Nat) (cout : List Output) : List Piece := cout.filterMap (Output.by id)

/-- How many pieces of its line a reader has printed. -/
def ReaderPc.printed : ReaderPc → Nat
  | .lock | .label => 0
  | .threadId => 1
  | .text => 2
  | .read | .value _ => 3
  | .endl => 4
  | .unlock | .done => 5

/-- A reader has printed the beginning of its line. -/
def Printed (sh : Shared) : Thread → Prop
  | .reader id pc => ∃ v, printedBy id sh.cout = (readerLine id v).take pc.printed ∧ ∀ w, pc = .value w → v = w
  | _ => True

def readerId : Thread → Option Nat
  | .reader id _ => some id
  | _ => none

/-- The numbers that `main` gives to the readers. -/
def ids (last : Nat) : List Nat := (List.range last).map fun k => k + 1

theorem nodup_ids (last : Nat) : (ids last).Nodup :=
  List.Nodup.map (fun _ _ h => Nat.succ.inj h) List.nodup_range

theorem moves_readerId {sh sh' : Shared} {t t' : Thread} (h : Moves sh t sh' t') : readerId t' = readerId t := by
  cases h <;> rfl

theorem readerIds (h : Reach ok (step last) (init last values) s) :
    s.threads.filterMap readerId = ids last := by
  refine h.invariant (I := fun s => s.threads.filterMap readerId = ids last) ?_ fun s a s' hi hs _ => ?_
  · simp only [init, startReaders, ids, List.filterMap_append, List.filterMap_map]
    simp [readerId, Function.comp_def]
  · obtain ⟨t, t', ht, hm, hset, -⟩ := step_moves hs
    rw [hset, filterMap_set_same ht (moves_readerId hm)]
    exact hi

/-- A reader that is about to print has the next piece of its line. -/
theorem readerPrints_next {id : Nat} {pc pc' : ReaderPc} {piece : Piece} (h : ReaderPrints id pc piece pc') (v : Int)
    (hv : ∀ w, pc = .value w → v = w) : (readerLine id v)[pc.printed]? = some piece ∧ pc'.printed = pc.printed + 1 := by
  cases h with
  | @value w =>
    rw [hv w rfl]
    exact ⟨rfl, rfl⟩
  | label | threadId | text | endl => exact ⟨rfl, rfl⟩

theorem printedBy_print (id : Nat) (cout : List Output) (o : Output) :
    printedBy id (cout ++ [o]) = printedBy id cout ++ (o.by id).toList := by
  rw [printedBy, List.filterMap_append, printedBy]
  cases ho : o.by id <;> simp [ho]

theorem moves_printed {sh sh' : Shared} {t t' : Thread} (h : Moves sh t sh' t') (hp : Printed sh t) :
    Printed sh' t' := by
  cases h with
  | @readerPrints id pc pc' piece h =>
    obtain ⟨v, hprinted, hv⟩ := hp
    obtain ⟨hnext, hcount⟩ := readerPrints_next h v hv
    refine ⟨v, ?_, fun w hw => ?_⟩
    · show printedBy id (sh.cout ++ [.reader id piece]) = _
      rw [printedBy_print, hprinted, hcount, List.take_add_one, hnext]
      simp [Output.by]
    · subst hw
      cases h
  | lockShared | unlockShared =>
    obtain ⟨v, hprinted, -⟩ := hp
    exact ⟨v, hprinted, fun w hw => by cases hw⟩
  | read =>
    obtain ⟨v, hprinted, -⟩ := hp
    refine ⟨sh.configValue, hprinted, fun w hw => ?_⟩
    cases hw
    rfl
  | lock | write | writerPrints | unlock | join => trivial

/-- Nobody else prints a piece of a reader. -/
theorem moves_others {sh sh' : Shared} {t t' : Thread} (h : Moves sh t sh' t') {id : Nat}
    (hne : readerId t ≠ some id) : printedBy id sh'.cout = printedBy id sh.cout := by
  cases h with
  | @readerPrints k pc pc' piece h =>
    have hk : k ≠ id := by
      rintro rfl
      exact hne rfl
    show printedBy id (sh.cout ++ [.reader k piece]) = _
    rw [printedBy_print]
    simp [Output.by, hk]
  | writerPrints h =>
    show printedBy id (sh.cout ++ [.writer _]) = _
    rw [printedBy_print]
    simp [Output.by]
  | lockShared | read | unlockShared | lock | write | unlock | join => rfl

/-- Two threads do not have the same number. -/
theorem readerId_ne (h : Reach ok (step last) (init last values) s) {i j : Nat} {t u : Thread} {id : Nat}
    (ht : s.threads[i]? = some t) (hu : s.threads[j]? = some u) (hji : j ≠ i) (hid : readerId u = some id) :
    readerId t ≠ some id := by
  intro hid'
  have hnodup : (s.threads.filterMap readerId).Nodup := by
    rw [readerIds h]
    exact nodup_ids last
  have hpair := List.pairwise_filterMap.mp hnodup
  obtain ⟨hi, rfl⟩ := List.getElem?_eq_some_iff.mp ht
  obtain ⟨hj, rfl⟩ := List.getElem?_eq_some_iff.mp hu
  rcases Nat.lt_or_gt_of_ne hji with hlt | hlt
  · exact List.pairwise_iff_getElem.mp hpair j i hj hi hlt id hid id hid' rfl
  · exact List.pairwise_iff_getElem.mp hpair i j hi hj hlt id hid' id hid rfl

theorem run_printed (h : Reach anyStep (step last) (init last values) s) : Each Printed s := by
  refine h.invariant_of (I := fun s => Each Printed s) (fun _ hr => hr) ?_ fun s a s' hr hi hs _ => ?_
  · intro j t ht
    have hmem := List.mem_of_getElem? ht
    simp only [init, startReaders, List.mem_append, List.mem_map, List.mem_singleton] at hmem
    rcases hmem with (⟨v, -, rfl⟩ | ⟨k, -, rfl⟩) | rfl
    · trivial
    · exact ⟨0, rfl, fun w hw => by cases hw⟩
    · trivial
  · obtain ⟨t, t', ht, hm, hset, -⟩ := step_moves hs
    have hd : Delivered (program last) .quiet (s.threads.set a.1 t') s'.threads := by
      rw [hset]
      exact .quiet _
    refine each_moved hd (moves_printed hm (hi a.1 t ht)) (fun j u hj hu => ?_) fun cv sh u hu => by cases hu
    have hold := hi j u hu
    cases u with
    | reader id pc =>
      obtain ⟨v, hprinted, hv⟩ := hold
      exact ⟨v, (moves_others hm (readerId_ne hr ht hu hj rfl)).trans hprinted, hv⟩
    | writer v pc => trivial
    | main pc => trivial

/-! ## Every writer prints its line once -/

/-- The values that writers have printed. -/
def writtenValues (cout : List Output) : List Int :=
  cout.filterMap fun o => match o with
    | .writer (.value v) => some v
    | _ => none

/-- The value of a writer that has not printed it. -/
def unprintedValue : Thread → Option Int
  | .writer v .lock | .writer v .write | .writer v .label | .writer v .value => some v
  | _ => none

theorem moves_writtenValues {sh sh' : Shared} {t t' : Thread} (h : Moves sh t sh' t') :
    Once (fun sh => writtenValues sh.cout) unprintedValue sh t sh' t' := by
  cases h with
  | readerPrints h => exact .keep (by simp [writtenValues, Shared.print]) rfl
  | writerPrints h =>
    cases h with
    | label => exact .keep (by simp [writtenValues, Shared.print]) rfl
    | value => exact .logs rfl rfl (by simp [writtenValues, Shared.print])
    | endl => exact .keep (by simp [writtenValues, Shared.print]) rfl
  | join h => exact .keep rfl rfl
  | lockShared | read | unlockShared | lock | write | unlock => exact .keep rfl rfl

theorem run_writtenValues (h : Reach ok (step last) (init last values) s) :
    (writtenValues s.shared.cout ++ s.threads.filterMap unprintedValue).Perm values := by
  refine h.invariant (I := fun s => (writtenValues s.shared.cout ++ s.threads.filterMap unprintedValue).Perm values)
    ?_ fun s a s' hi hs _ => ?_
  · apply List.Perm.of_eq
    simp only [init, startReaders, writtenValues, List.filterMap_nil, List.nil_append, List.filterMap_append,
      List.filterMap_map]
    simp [unprintedValue, Function.comp_def]
  · obtain ⟨t, t', ht, hm, hset, -⟩ := step_moves hs
    exact once_step ht hset (moves_writtenValues hm) hi

/-! ## What `main` has joined -/

/-- The thread is a reader or a writer that has not ended. -/
def runs (t : Thread) : Bool := someReaderRuns t || writerRuns t

theorem moves_runs {sh sh' : Shared} {t t' : Thread} (h : Moves sh t sh' t') :
    (writerRuns t = false → writerRuns t' = false) ∧ (someReaderRuns t = false → someReaderRuns t' = false) := by
  cases h with
  | readerPrints h => cases h <;> simp [writerRuns, someReaderRuns]
  | writerPrints h => cases h <;> simp [writerRuns, someReaderRuns]
  | _ => simp [writerRuns, someReaderRuns]

theorem moves_of_main {sh sh' : Shared} {t' : Thread} {pc : MainPc} (h : Moves sh (.main pc) sh' t') :
    ∃ pc', t' = .main pc' ∧ joins pc = some pc' := by
  cases h with
  | join h => exact ⟨_, rfl, h⟩

theorem moves_to_main {sh sh' : Shared} {t : Thread} {pc' : MainPc} (h : Moves sh t sh' (.main pc')) :
    ∃ pc, t = .main pc ∧ joins pc = some pc' := by
  cases h with
  | join h => exact ⟨_, rfl, h⟩

structure Joined (ts : List Thread) : Prop where
  writers : .main .joinReaders ∈ ts ∨ .main .returned ∈ ts → ∀ u ∈ ts, writerRuns u = false
  readers : .main .returned ∈ ts → ∀ u ∈ ts, someReaderRuns u = false

theorem joined_init (last : Nat) (values : List Int) : Joined (init last values).threads := by
  have hmain : ∀ pc, .main pc ∈ (init last values).threads → pc = .joinBack := by
    intro pc h
    simp only [init, startReaders, List.mem_append, List.mem_map, List.mem_singleton] at h
    rcases h with (⟨v, -, h⟩ | ⟨k, -, h⟩) | h <;> cases h
    rfl
  constructor
  · rintro (h | h) <;> cases hmain _ h
  · intro h
    cases hmain _ h

theorem joined_step (hj : Joined s.threads) (h : step last s a = some s') : Joined s'.threads := by
  obtain ⟨t, t', ht, hm, hs, hjoin⟩ := step_moves h
  have hmem := List.mem_of_getElem? ht
  obtain ⟨hw, hr⟩ := moves_runs hm
  rw [hs]
  -- Whoever does not run does not run again.
  have hkeep : ∀ (f : Thread → Bool), (f t = false → f t' = false) → (∀ u ∈ s.threads, f u = false) →
      ∀ u ∈ s.threads.set a.1 t', f u = false := by
    intro f hf hall u hu
    rcases List.mem_or_eq_of_mem_set hu with hold | rfl
    · exact hall u hold
    · exact hf (hall t hmem)
  -- A program point of `main` is there already, or `main` has just come to it.
  have hcame : ∀ pc', .main pc' ∈ s.threads.set a.1 t' →
      .main pc' ∈ s.threads ∨ ∃ pc, t = .main pc ∧ joins pc = some pc' := by
    intro pc' hin
    rcases List.mem_or_eq_of_mem_set hin with hold | heq
    · exact Or.inl hold
    · subst heq
      exact Or.inr (moves_to_main hm)
  have hreturns : .main .returned ∈ s.threads.set a.1 t' → .main .returned ∈ s.threads ∨ t = .main .joinReaders := by
    intro hin
    rcases hcame _ hin with hold | ⟨pc, rfl, hpc⟩
    · exact Or.inl hold
    · cases pc <;> cases hpc
      exact Or.inr rfl
  constructor
  · intro hpc
    apply hkeep writerRuns hw
    rcases hpc with hpc | hpc
    · rcases hcame _ hpc with hold | ⟨pc, rfl, hpc⟩
      · exact hj.writers (Or.inl hold)
      · cases pc <;> cases hpc
        intro u hu
        exact Bool.eq_false_of_not_eq_true fun hrun =>
          absurd (List.any_eq_true.mpr ⟨u, hu, hrun⟩) (by rw [show s.threads.any writerRuns = false from hjoin]; decide)
    · rcases hreturns hpc with hold | rfl
      · exact hj.writers (Or.inr hold)
      · exact hj.writers (Or.inl hmem)
  · intro hpc
    apply hkeep someReaderRuns hr
    rcases hreturns hpc with hold | rfl
    · exact hj.readers hold
    · intro u hu
      exact Bool.eq_false_of_not_eq_true fun hrun =>
        absurd (List.any_eq_true.mpr ⟨u, hu, hrun⟩)
          (by rw [show s.threads.any someReaderRuns = false from hjoin]; decide)

theorem unprinted_of_ended {t : Thread} (hw : writerRuns t = false) (hr : someReaderRuns t = false) :
    unprintedValue t = none ∧ hold t = .free := by
  cases t with
  | reader id pc => cases pc <;> simp [someReaderRuns] at hr; exact ⟨rfl, rfl⟩
  | writer v pc => cases pc <;> simp [writerRuns] at hw; exact ⟨rfl, rfl⟩
  | main pc => exact ⟨rfl, rfl⟩

/-- **When `main` returns**, all threads have ended, each reader has printed its line, in pieces, and each writer
    as a whole; `config_value` is what the last writer has printed. -/
theorem returned_complete (last : Nat) (values : List Int) (s : Run)
    (h : Reach anyStep (step last) (init last values) s) (hret : .main .returned ∈ s.threads) :
    (∀ t ∈ s.threads, runs t = false) ∧
      (∀ id ∈ ids last, ∃ v, printedBy id s.shared.cout = readerLine id v) ∧
      Whole s.shared.cout ∧ (writtenValues s.shared.cout).Perm values ∧
      s.shared.configValue = valueAfter 100 s.shared.cout := by
  have hj : Joined s.threads := h.invariant (I := fun s => Joined s.threads) (joined_init last values)
    fun _ _ _ hi hs _ => joined_step hi hs
  have hl := run_locks h
  have hw := hj.writers (Or.inr hret)
  have hr := hj.readers hret
  have hvalues : s.threads.filterMap unprintedValue = [] :=
    List.filterMap_eq_nil_iff.mpr fun t ht => (unprinted_of_ended (hw t ht) (hr t ht)).1
  have hwrites := run_writtenValues h
  rw [hvalues, List.append_nil] at hwrites
  have hfree := hl.excludes.free_of_none fun t ht => (unprinted_of_ended (hw t ht) (hr t ht)).2
  have hsettled := hl.kept.unwritten hfree.1
  refine ⟨fun t ht => ?_, fun id hid => ?_, hsettled.whole, hwrites, hsettled.value⟩
  · rw [runs, hw t ht, hr t ht]
    rfl
  · rw [← readerIds h, List.mem_filterMap] at hid
    obtain ⟨t, ht, hid⟩ := hid
    have hended := hr t ht
    have hprinted := (run_printed h).mem ht
    cases t with
    | reader k pc =>
      cases hid
      cases pc <;> simp [someReaderRuns] at hended
      obtain ⟨v, hv, -⟩ := hprinted
      exact ⟨v, hv⟩
    | writer v pc => cases hid
    | main pc => cases hid

theorem returned_complete_readers :
    let s := (exec (step 2) (init 2 [200]) readersFirst).get (by decide)
    (∀ t ∈ s.threads, runs t = false) ∧
      (∀ id ∈ ids 2, ∃ v, printedBy id s.shared.cout = readerLine id v) ∧
      Whole s.shared.cout ∧ (writtenValues s.shared.cout).Perm [200] ∧
      s.shared.configValue = valueAfter 100 s.shared.cout :=
  returned_complete 2 [200] _ (exec_reach_get readersFirst (by decide)) (by decide)

/-! ## `main` can return -/

/-- The joins that `main` has before it. -/
def joinsLeft : Thread → Int
  | .main .joinBack => 3
  | .main .joinWriters => 2
  | .main .joinReaders => 1
  | _ => 0

def weight (t : Thread) : Int := ind runs t + joinsLeft t

theorem weight_nonneg (t : Thread) : 0 ≤ weight t := by
  have h := ind_nonneg runs t
  unfold weight joinsLeft
  split <;> omega

/-- A thread alone goes on to its end. -/
def Ends (last : Nat) (sh : Shared) (t : Thread) : Prop :=
  ∃ sh' t', Alone (program last) (sh, t) (sh', t') ∧ weight t' < weight t

theorem Ends.after {sh sh' : Shared} {t t' : Thread} (h : Alone (program last) (sh, t) (sh', t'))
    (hw : weight t' = weight t) (he : Ends last sh' t') : Ends last sh t := by
  obtain ⟨sh'', t'', ha, hlt⟩ := he
  exact ⟨sh'', t'', h.trans ha, hw ▸ hlt⟩

/-- A reader that has `rw_mtx` goes on to its end. -/
theorem reader_ends {sh : Shared} {id : Nat} {pc : ReaderPc} (h : hold (.reader id pc) ≠ .free) :
    Ends last sh (.reader id pc) := by
  have hunlock : ∀ sh, Ends last sh (.reader id .unlock) := fun sh =>
    ⟨_, .reader id .done, .one () rfl, show (0 : Int) < 1 by decide⟩
  have hendl : ∀ sh, Ends last sh (.reader id .endl) := fun sh => .after (.one () rfl) rfl (hunlock _)
  have hvalue : ∀ sh v, Ends last sh (.reader id (.value v)) := fun sh v => .after (.one () rfl) rfl (hendl _)
  have hread : ∀ sh, Ends last sh (.reader id .read) := fun sh => .after (.one () rfl) rfl (hvalue _ _)
  have htext : ∀ sh, Ends last sh (.reader id .text) := fun sh => .after (.one () rfl) rfl (hread _)
  have hid : ∀ sh, Ends last sh (.reader id .threadId) := fun sh => .after (.one () rfl) rfl (htext _)
  cases pc with
  | lock | done => exact absurd rfl h
  | label => exact .after (.one () rfl) rfl (hid _)
  | threadId => exact hid sh
  | text => exact htext sh
  | read => exact hread sh
  | value v => exact hvalue sh v
  | endl => exact hendl sh
  | unlock => exact hunlock sh

/-- A writer that has `rw_mtx` goes on to its end. -/
theorem writer_ends {sh : Shared} {v : Int} {pc : WriterPc} (h : hold (.writer v pc) ≠ .free) :
    Ends last sh (.writer v pc) := by
  have hunlock : ∀ sh, Ends last sh (.writer v .unlock) := fun sh =>
    ⟨_, .writer v .done, .one () rfl, show (0 : Int) < 1 by decide⟩
  have hendl : ∀ sh, Ends last sh (.writer v .endl) := fun sh => .after (.one () rfl) rfl (hunlock _)
  have hvalue : ∀ sh, Ends last sh (.writer v .value) := fun sh => .after (.one () rfl) rfl (hendl _)
  have hlabel : ∀ sh, Ends last sh (.writer v .label) := fun sh => .after (.one () rfl) rfl (hvalue _)
  cases pc with
  | lock | done => exact absurd rfl h
  | write => exact .after (.one () rfl) rfl (hlabel _)
  | label => exact hlabel sh
  | value => exact hvalue sh
  | endl => exact hendl sh
  | unlock => exact hunlock sh

/-- A thread that holds `rw_mtx` does not have to wait. -/
theorem ends_of_holder {sh : Shared} {t : Thread} (h : hold t ≠ .free) : Ends last sh t := by
  cases t with
  | main pc => exact absurd rfl h
  | reader id pc => exact reader_ends h
  | writer v pc => exact writer_ends h

/-- When `rw_mtx` is free, nobody has to wait. -/
theorem ends_of_free {sh : Shared} {t : Thread} (hw : sh.writing = false) (h0 : sh.readers = 0)
    (ht : runs t = true) : Ends last sh t := by
  by_cases hh : hold t = .free
  · cases t with
    | main pc => cases ht
    | reader id pc =>
      cases pc with
      | lock =>
        have hlock : Alone (program last) (sh, .reader id .lock)
            ({ sh with readers := sh.readers + 1 }, .reader id .label) := by
          refine .one () ?_
          show threadStep sh (.reader id .lock) () = _
          simp [threadStep, readConfig, hw]
        exact .after hlock rfl (ends_of_holder (by simp [hold]))
      | done => cases ht
      | label | threadId | text | read | value v | endl | unlock => cases hh
    | writer v pc =>
      cases pc with
      | lock =>
        have hlock : Alone (program last) (sh, .writer v .lock) ({ sh with writing := true }, .writer v .write) := by
          refine .one () ?_
          show threadStep sh (.writer v .lock) () = _
          simp [threadStep, writeConfig, hw, h0]
        exact .after hlock rfl (ends_of_holder (by simp [hold]))
      | done => cases ht
      | write | label | value | endl | unlock => cases hh
  · exact ends_of_holder hh

/-- `main` is one of the threads. -/
theorem run_main (h : Reach ok (step last) (init last values) s) : ∃ pc, .main pc ∈ s.threads := by
  refine h.invariant (I := fun s => ∃ pc, .main pc ∈ s.threads) ⟨.joinBack, ?_⟩ fun s a s' hi hs _ => ?_
  · exact List.mem_append_right _ List.mem_cons_self
  · obtain ⟨pc, hpc⟩ := hi
    obtain ⟨t, t', ht, hm, hset, -⟩ := step_moves hs
    rw [hset]
    obtain ⟨j, hj⟩ := List.mem_iff_getElem?.mp hpc
    by_cases hja : j = a.1
    · rw [← hja, hj, Option.some.injEq] at ht
      subst ht
      obtain ⟨pc', rfl, -⟩ := moves_of_main hm
      rw [← hja]
      exact ⟨pc', List.mem_set (List.getElem?_eq_some_iff.mp hj).1 _⟩
    · refine ⟨pc, List.mem_iff_getElem?.mpr ⟨j, ?_⟩⟩
      rw [List.getElem?_set_ne (Ne.symm hja), hj]

/-- When no reader and no writer runs, `main` goes on. -/
theorem main_joins (hn : ∀ t ∈ s.threads, runs t = false) {i : Nat} {pc pc' : MainPc}
    (hi : s.threads[i]? = some (.main pc)) (hpc : joins pc = some pc') :
    step last s (i, ()) = some ⟨s.shared, s.threads.set i (.main pc')⟩ := by
  have hany : ∀ f : Thread → Bool, (∀ t, f t = true → runs t = true) → s.threads.any f = false := by
    intro f hf
    apply Bool.eq_false_of_not_eq_true
    intro hex
    obtain ⟨t, ht, hft⟩ := List.any_eq_true.mp hex
    have := hn t ht
    rw [hf t hft] at this
    cases this
  have hstep : threadStep s.shared (.main pc) () = some (s.shared, .main pc', .quiet) := by simp [threadStep, hpc]
  refine step_of hi ?_ hstep rfl
  cases pc with
  | joinBack =>
    apply hany
    intro t ht
    cases t with
    | reader id pc => simp_all [readerRuns, runs, someReaderRuns]
    | writer v pc => cases ht
    | main pc => cases ht
  | joinWriters => exact hany _ fun t ht => by simp [runs, ht]
  | joinReaders => exact hany _ fun t ht => by simp [runs, ht]
  | returned => rfl

theorem joins_lower {pc : MainPc} (h : pc ≠ .returned) :
    ∃ pc', joins pc = some pc' ∧ weight (.main pc') < weight (.main pc) := by
  cases pc with
  | joinBack => exact ⟨_, rfl, by decide⟩
  | joinWriters => exact ⟨_, rfl, by decide⟩
  | joinReaders => exact ⟨_, rfl, by decide⟩
  | returned => exact absurd rfl h

/-- **`main` can return** from every state of every run. -/
theorem can_return (last : Nat) (values : List Int) (s : Run)
    (h : Reach anyStep (step last) (init last values) s) :
    ∃ s', Reach anyStep (step last) s s' ∧ .main .returned ∈ s'.threads := by
  refine h.can_reach (D := fun s => .main .returned ∈ s.threads)
    (μ := fun s => (tally weight s.threads).toNat) fun s hr hnot => ?_
  have hl := run_locks hr
  have hlower : ∀ (i : Nat) (t t' : Thread) (sh' : Shared), s.threads[i]? = some t →
      Reach anyStep (step last) s ⟨sh', s.threads.set i t'⟩ → weight t' < weight t →
      ∃ s', Reach anyStep (step last) s s' ∧ (tally weight s'.threads).toNat < (tally weight s.threads).toNat := by
    intro i t t' sh' ht hreach hlt
    have hset : tally weight (s.threads.set i t') = tally weight s.threads - weight t + weight t' := tally_set ht
    have hle : weight t ≤ tally weight s.threads := le_tally weight_nonneg (List.mem_of_getElem? ht)
    have hpos := weight_nonneg t'
    refine ⟨_, hreach, ?_⟩
    show (tally weight (s.threads.set i t')).toNat < _
    omega
  have hends : ∀ u ∈ s.threads, Ends last s.shared u →
      ∃ s', Reach anyStep (step last) s s' ∧ (tally weight s'.threads).toNat < (tally weight s.threads).toNat := by
    rintro u hu ⟨sh', t', ha, hlt⟩
    obtain ⟨i, hi⟩ := List.mem_iff_getElem?.mp hu
    exact hlower i u t' sh' hi (ha.reach hi) hlt
  by_cases hheld : ∃ u ∈ s.threads, hold u ≠ .free
  · obtain ⟨u, hu, hh⟩ := hheld
    exact hends u hu (ends_of_holder hh)
  · simp only [not_exists, not_and, not_not] at hheld
    obtain ⟨hw, h0⟩ := hl.excludes.free_of_none hheld
    by_cases hruns : ∃ u ∈ s.threads, runs u = true
    · obtain ⟨u, hu, hrun⟩ := hruns
      exact hends u hu (ends_of_free hw h0 hrun)
    · obtain ⟨pc, hpc⟩ := run_main hr
      obtain ⟨i, hi⟩ := List.mem_iff_getElem?.mp hpc
      have hne : pc ≠ .returned := by
        rintro rfl
        exact hnot hpc
      obtain ⟨pc', hjoin, hlt⟩ := joins_lower hne
      have hn : ∀ t ∈ s.threads, runs t = false := fun t ht =>
        Bool.eq_false_of_not_eq_true fun hrun => hruns ⟨t, ht, hrun⟩
      exact hlower i (.main pc) (.main pc') s.shared hi
        (Reach.refl.tail (main_joins hn hi hjoin) trivial) hlt

theorem can_return_readers :
    ∃ s', Reach anyStep (step 2) ((exec (step 2) (init 2 [200]) (readersFirst.take 5)).get (by decide)) s' ∧
      .main .returned ∈ s'.threads :=
  can_return 2 [200] _ (exec_reach_get (readersFirst.take 5) (by decide))

end CppBackend.SharedMutexs
