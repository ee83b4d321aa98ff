import CppBackend.ProducerConsumer.Fifo
import CppBackend.Library.WakeUp
import CppBackend.Library.Budget
import Mathlib.Algebra.BigOperators.Ring.Finset

/-!
# No lost wake-up, and the end of a run

Producers and consumers notify the same variable, and a consumer that has taken an element notifies
another consumer.  A consumer that is awake always comes back to the test of the queue, so it answers
for an element, and so does a producer from its push to its notification (`no_wakeup_lost`).

Apart from spurious wake-ups no run goes on for ever (`run_length_le`); where it stops, all elements have
been consumed and `main` waits for consumers that never return (`drained`).
-/

set_option autoImplicit false

namespace CppBackend.ProducerConsumer

open Library.Transition Library.Tally Library.Threads Library.Mutex Library.WakeUp Library.Budget

/-! ## Elements answered for -/

/-- Has pushed and not yet executed `notify_one`. -/
def mustNotify : Thread → Bool
  | .producer _ (.print _) | .producer _ (.unlock _) | .producer _ (.notify _) => true
  | _ => false

/-- A consumer that is not asleep and not about to sleep. -/
def awake : Thread → Bool
  | .consumer _ .doze | .consumer _ .sleep | .consumer _ .undefined => false
  | .consumer _ _ => true
  | _ => false

def cover (t : Thread) : Int := ind mustNotify t + ind awake t

def work (sh : Shared) : Int := sh.dataQueue.length

theorem duty : Duty program () cover where
  nonneg t := Int.add_nonneg (ind_nonneg mustNotify t) (ind_nonneg awake t)
  awake c t h := by
    obtain ⟨id, rfl⟩ := asleep_cases h
    rfl
  woken t h := by
    obtain ⟨id, rfl⟩ := asleep_cases h
    rfl
  others c t h := by
    obtain ⟨id, rfl⟩ := asleep_cases h
    have hle : (0 : Int) ≤ 1 := by decide
    exact hle

theorem moves_cover {sh sh' : Shared} {t t' : Thread} {sig : Signal Unit} (h : Moves sh t sh' t' sig)
    (hk : holdsMtx t = true → Knows t sh) : CoverStep program () cover work sh t sh' t' sig := by
  have hempty : ∀ {sh : Shared}, sh.dataQueue = [] → work sh ≤ 0 := by
    intro sh hq
    rw [work, hq]
    decide
  cases h with
  | push =>
    refine .keeps (fun h => by cases h) ?_
    show ((sh.dataQueue ++ [_]).length : Int) + 0 ≤ sh.dataQueue.length + 1
    rw [List.length_append]
    exact le_refl _
  | notifyPushed => exact .notifies (fun h => by cases h) (le_refl _)
  | @nextPass id i =>
    unfold ProducerConsumer.nextPass
    split <;> exact .keeps (fun h => by cases h) (le_refl _)
  | unready h => exact .idle (hempty h)
  | sleep => exact .idle (hempty (hk rfl).1)
  | spurious =>
    have hle : (0 : Int) ≤ 1 := by decide
    exact .keeps (fun h => by cases h) (Int.add_le_add_left hle _)
  | frontOfNothing h => exact .idle (hempty h)
  | @pop id data queue h =>
    refine .keeps (fun h => by cases h) ?_
    show (queue.length : Int) + 1 ≤ (sh.dataQueue.length : Int) + 1
    rw [h, List.length_cons]
    push_cast
    omega
  | _ => exact .keeps (fun h => by cases h) (le_refl _)

variable {ok : Run → Nat × Choice → Run → Prop} {n m : Nat} {s : Run}

theorem run_covered (h : Reach ok step (init n m) s) : Covered program () cover work s := by
  refine h.invariant_of (K := Locks) (fun s hr => run_locks hr) (I := Covered program () cover work) ?_ ?_
  · intro _
    exact tally_nonneg duty.nonneg
  · intro s a s' hl hi hs _
    obtain ⟨t, t', sig, ht, hm, hd⟩ := step_moves hs
    exact covered_step duty hi ht (moves_cover hm (hl.protects.held a.1 t ht)) hd

/-- **No lost wake-up**, for any number of producers and consumers and every interleaving.  While some
    consumer sleeps in `cv.wait`, the elements in the queue are at most the producers that have pushed
    and not yet notified plus the consumers that are awake. -/
theorem no_wakeup_lost (n m : Nat) (s : Run) (h : Reach anyStep step (init n m) s)
    (hs : 0 < s.threads.countP sleeping) :
    s.shared.dataQueue.length ≤ s.threads.countP mustNotify + s.threads.countP awake := by
  have hsl : ((s.threads.countP sleeping : Nat) : Int) = tally (ind sleeping) s.threads :=
    countP_eq_tally sleeping s.threads
  have hcov : (s.shared.dataQueue.length : Int) ≤ tally cover s.threads :=
    run_covered h (show 0 < tally (ind sleeping) s.threads by omega)
  have hsum : tally cover s.threads =
      tally (ind mustNotify) s.threads + tally (ind awake) s.threads := tally_add
  rw [← countP_eq_tally, ← countP_eq_tally] at hsum
  omega

/-- A consumer sleeps; the producer has pushed and not yet notified. -/
def sleepThenPush : List (Nat × Choice) := List.replicate 3 (1, .go) ++ List.replicate 4 (0, .go)

theorem no_wakeup_lost_one :
    0 < ((exec (step) (init 1 1) sleepThenPush).get (by decide)).threads.countP sleeping ∧
    ((exec step (init 1 1) sleepThenPush).get (by decide)).shared.dataQueue.length ≤ 1 + 0 :=
  ⟨by decide, no_wakeup_lost 1 1 _ (exec_reach_get sleepThenPush (by decide)) (by decide)⟩

/-! ## Every run ends -/

/-- The steps that a thread still has before it, with what it may cause by pushing and by waking. -/
def weight : Thread → Int
  | .producer _ (.lock i) => 18 * i.toNat + 18
  | .producer _ (.push i) => 18 * i.toNat + 17
  | .producer _ (.print i) => 18 * i.toNat + 7
  | .producer _ (.unlock i) => 18 * i.toNat + 6
  | .producer _ (.notify i) => 18 * i.toNat + 5
  | .producer _ (.pause i) => 18 * i.toNat + 1
  | .producer _ .done => 0
  | .consumer _ .lock => 3
  | .consumer _ .pred => 2
  | .consumer _ .doze => 1
  | .consumer _ .sleep => 0
  | .consumer _ .woken => 3
  | .consumer _ .front => 1
  | .consumer _ (.print _) => 9
  | .consumer _ .notify => 8
  | .consumer _ .unlock => 4
  | .consumer _ .undefined => 0
  | .main .joinProducers => 2
  | .main .joinConsumers => 1
  | .main .returned => 0

def potential (s : Run) : Int := 9 * s.shared.dataQueue.length + tally weight s.threads

theorem weight_nonneg (t : Thread) : 0 ≤ weight t := by
  unfold weight
  split <;> omega

/-- A spurious wake-up is paid for apart. -/
def refund (a : Nat × Choice) : Int := if decide (a.2 = .wakeUp) then 4 else 0

/-- What a signal may add: one woken consumer. -/
def wakes : Signal Unit → Int
  | .one _ _ => 3
  | _ => 0

theorem weight_delivered {sig : Signal Unit} {ts ts' : List Thread} (h : Delivered program sig ts ts')
    (hall : ∀ c, sig ≠ .all c) : tally weight ts' ≤ tally weight ts + wakes sig := by
  cases h with
  | quiet => exact le_of_eq (add_zero _).symm
  | nobody h =>
    have hle : (0 : Int) ≤ 3 := by decide
    exact le_add_of_nonneg_right hle
  | one ht hs =>
    obtain ⟨id, rfl⟩ := asleep_cases hs
    rw [tally_set ht]
    show tally weight ts - 0 + 3 ≤ tally weight ts + 3
    omega
  | all c => exact absurd rfl (hall c)

/-- A step that is no spurious wake-up costs at least a unit. -/
theorem moves_weight {sh sh' : Shared} {t t' : Thread} {sig : Signal Unit} (h : Moves sh t sh' t' sig) :
    (sleeping t = true ∧ sig = .quiet ∧ sh' = sh ∧ weight t' = weight t + 3) ∨
    ((∀ c, sig ≠ .all c) ∧
      9 * (sh'.dataQueue.length : Int) + weight t' + wakes sig + 1 ≤ 9 * sh.dataQueue.length + weight t) := by
  cases h with
  | push =>
    refine Or.inr ⟨fun _ h => (by cases h), ?_⟩
    simp only [weight, wakes, List.length_append, List.length_singleton]
    push_cast
    omega
  | @nextPass id i =>
    refine Or.inr ⟨fun _ h => (by cases h), ?_⟩
    unfold ProducerConsumer.nextPass
    split <;> simp only [weight, wakes] <;> omega
  | spurious => exact Or.inl ⟨rfl, rfl, rfl, rfl⟩
  | @pop id data queue h =>
    refine Or.inr ⟨fun _ h => (by cases h), ?_⟩
    simp only [weight, wakes, h, List.length_cons]
    push_cast
    omega
  | _ =>
    refine Or.inr ⟨fun _ h => (by cases h), ?_⟩
    simp only [weight, wakes]
    omega

/-- A sleeper moves on its own only by a spurious wake-up. -/
theorem sleeping_step {sh : Shared} {t : Thread} {ch : Choice} {r : Shared × Thread × Signal Unit}
    (hs : sleeping t = true) (h : threadStep sh t ch = some r) : ch = .wakeUp := by
  cases t with
  | consumer id pc =>
    cases pc <;> try cases hs
    by_contra hne
    simp only [threadStep, consumer, if_neg hne, Option.map_none] at h
    cases h
  | producer id pc => cases hs
  | main pc => cases hs

theorem step_potential {s' : Run} {a : Nat × Choice} (h : step s a = some s') :
    potential s' + 1 ≤ potential s + refund a := by
  obtain ⟨t, t', sig, ht, hp, hd⟩ := step_inv h
  have hset : tally weight (s.threads.set a.1 t') = tally weight s.threads - weight t + weight t' :=
    tally_set ht
  have hrefund : 0 ≤ refund a := by
    unfold refund
    split <;> decide
  unfold potential
  rcases moves_weight (thread_moves hp) with ⟨hsl, rfl, hsh, hw⟩ | ⟨hall, hw⟩
  · have hch : a.2 = .wakeUp := sleeping_step hsl hp
    have hle := weight_delivered hd (fun _ h => by cases h)
    rw [hset] at hle
    rw [hsh, refund, if_pos (decide_eq_true hch)]
    simp only [wakes] at hle
    omega
  · have hle := weight_delivered hd hall
    rw [hset] at hle
    omega

theorem potential_init (n m : Nat) : potential (init n m) = 108 * n + 3 * m + 2 := by
  have hp : tally weight (producers n) = n * 108 := by
    simp [producers, tally, weight, Function.comp_def]
  have hc : tally weight (consumers m) = m * 3 := by
    simp [consumers, tally, weight, Function.comp_def]
  simp only [potential, init, tally_append, hp, hc, tally_cons, tally_nil, weight, List.length_nil]
  push_cast
  omega

theorem potential_nonneg (s : Run) : 0 ≤ potential s := by
  have hw := tally_nonneg weight_nonneg (l := s.threads)
  unfold potential
  omega

/-- **Every run ends**, if the sleepers are woken spuriously only so often. -/
theorem run_length_le (as : List (Nat × Choice)) (h : exec step (init n m) as = some s) :
    as.length ≤ 108 * n + 3 * m + 2 + 4 * as.countP (·.2 = .wakeUp) := by
  have hle := exec_length_le potential_nonneg (fun _ _ _ hs => step_potential hs) as h
  rw [potential_init] at hle
  push_cast at hle
  omega

/-! ## Where a run ends -/

/-- Nobody can move but by a spurious wake-up. -/
def Stuck (s : Run) : Prop := ∀ i ch, ch ≠ .wakeUp → step s (i, ch) = none

/-- A thread that is not joining and can move makes its step. -/
theorem Stuck.not_moves (hst : Stuck s) {j : Nat} {t t' : Thread} {sh' : Shared}
    (ht : s.threads[j]? = some t) (hj : joining s.threads t = false)
    (hp : threadStep s.shared t .go = some (sh', t', .quiet)) : False := by
  have hs := hst j .go (by decide)
  have : step s (j, .go) = some ⟨sh', s.threads.set j t'⟩ := step_of ht hj hp rfl
  rw [hs] at this
  cases this

theorem Stuck.not_notifies (hst : Stuck s) {j : Nat} {t : Thread} (t' : Thread)
    (ht : s.threads[j]? = some t) (hj : joining s.threads t = false)
    (hp : ∀ ch, threadStep s.shared t ch = some (s.shared, t', .one () ch.wakes)) : False := by
  obtain ⟨target, ts', hd⟩ := exists_target program () (s.threads.set j t')
  obtain ⟨ch, hne, hch⟩ : ∃ ch : Choice, ch ≠ .wakeUp ∧ ch.wakes = target := by
    cases target with
    | none => exact ⟨.go, by decide, rfl⟩
    | some k => exact ⟨.target k, (by intro h; cases h), rfl⟩
  have hs := hst j ch hne
  have : step s (j, ch) = some ⟨s.shared, ts'⟩ := step_of ht hj (hp ch) (by rw [hch]; exact hd)
  rw [hs] at this
  cases this

theorem finished_idle {t : Thread} (h : finished t = true) : mustNotify t = false ∧ awake t = false := by
  cases t with
  | producer id pc => cases pc <;> first | exact ⟨rfl, rfl⟩ | cases h
  | consumer id pc => cases h
  | main pc => cases h

theorem sleeping_idle {t : Thread} (h : sleeping t = true) : mustNotify t = false ∧ awake t = false := by
  cases t with
  | consumer id pc => cases pc <;> first | exact ⟨rfl, rfl⟩ | cases h
  | producer id pc => cases h
  | main pc => cases h

/-- In a stuck state nobody holds `mtx`. -/
theorem Stuck.free (hst : Stuck s) (hl : Locks s) : s.shared.mtx = false := by
  by_contra hm
  have hx := hl.exclusive
  unfold Exclusive at hx
  rw [if_pos (by simpa using hm)] at hx
  obtain ⟨t, hmem, hh⟩ := exists_of_tally_ind (p := holdsMtx) (l := s.threads) (by omega)
  obtain ⟨j, ht⟩ := List.mem_iff_getElem?.mp hmem
  have hk := hl.protects.held j t ht hh
  cases t with
  | producer id pc =>
    cases pc <;> try cases hh
    · exact hst.not_moves ht rfl rfl
    · exact hst.not_moves ht rfl rfl
    · exact hst.not_moves ht rfl rfl
  | consumer id pc =>
    cases pc <;> try cases hh
    · exact hst.not_moves ht rfl rfl
    · exact hst.not_moves ht rfl rfl
    · obtain ⟨hne, _⟩ := hk
      obtain ⟨data, queue, hq⟩ := List.exists_cons_of_ne_nil hne
      refine hst.not_moves ht rfl (?_ : threadStep s.shared _ .go =
        some ({ s.shared with dataQueue := queue }, .consumer id (.print data), .quiet))
      simp only [threadStep, consumer, hq, Option.map_some]
    · exact hst.not_moves ht rfl rfl
    · exact hst.not_notifies (.consumer id .unlock) ht rfl fun _ => rfl
    · exact hst.not_moves ht rfl rfl
    · exact hk.elim
  | main pc => cases hh

/-- In a stuck state the producers have returned and the consumers are asleep. -/
theorem Stuck.ended (hst : Stuck s) (hl : Locks s) {t : Thread} (hmem : t ∈ s.threads) :
    finished t = true ∨ sleeping t = true ∨ ∃ pc, t = .main pc := by
  have hf := hst.free hl
  have hout := hl.exclusive.none_of_free hf hmem
  obtain ⟨j, ht⟩ := List.mem_iff_getElem?.mp hmem
  cases t with
  | producer id pc =>
    cases pc with
    | lock i =>
      refine (hst.not_moves ht rfl (?_ : threadStep s.shared _ .go =
        some ({ s.shared with mtx := true }, .producer id (.push i), .quiet))).elim
      simp [threadStep, producer, hf]
    | notify i => exact (hst.not_notifies (.producer id (.pause i)) ht rfl fun _ => rfl).elim
    | pause i => exact (hst.not_moves ht rfl rfl).elim
    | done => exact Or.inl rfl
    | push i | print i | unlock i => cases hout
  | consumer id pc =>
    have hlock : ∀ pc, consumer id s.shared pc .go = some ({ s.shared with mtx := true }, .pred, .quiet) →
        s.threads[j]? = some (.consumer id pc) → False := by
      intro pc hc hj
      refine hst.not_moves hj rfl (?_ : threadStep s.shared _ .go =
        some ({ s.shared with mtx := true }, .consumer id .pred, .quiet))
      simp only [threadStep, hc, Option.map_some]
    cases pc with
    | lock => exact (hlock .lock (by simp [consumer, hf]) ht).elim
    | woken => exact (hlock .woken (by simp [consumer, hf]) ht).elim
    | sleep => exact Or.inr (Or.inl rfl)
    | pred | doze | front | print data | notify | unlock | undefined => cases hout
  | main pc => exact Or.inr (Or.inr ⟨pc, rfl⟩)

/-- The lines of a producer that has returned. -/
theorem produced_all (h : Reach ok step (init n m) s) (hend : ∀ t ∈ s.threads, finished t = true ∨
    sleeping t = true ∨ ∃ pc, t = .main pc) {k : Nat} (hk : k < n) :
    producedBy (k + 1) s.shared.cout = [5, 4, 3, 2, 1, 0] := by
  have hrole : (s.threads.map role)[k]? = some (.producer (k + 1)) := by
    rw [run_roles h]
    simp only [init, producers, List.map_append, List.map_map, List.append_assoc]
    rw [List.getElem?_append_left (by simpa using hk)]
    simp [hk, role]
  rw [List.getElem?_map, Option.map_eq_some_iff] at hrole
  obtain ⟨t, ht, hr⟩ := hrole
  cases t with
  | producer id pc =>
    cases hr
    rcases hend _ (List.mem_of_getElem? ht) with hf | hsl | ⟨pc', he⟩
    · cases pc <;> try cases hf
      exact run_printed h k _ ht
    · cases hsl
    · cases he
  | consumer id pc => cases hr
  | main pc => cases hr

/-- Only the producers of the program produce. -/
def Known (n : Nat) (cout : List Line) : Prop := ∀ id i, Line.produced id i ∈ cout → ∃ k < n, id = k + 1

theorem run_known (h : Reach ok step (init n m) s) : Known n s.shared.cout := by
  refine h.invariant_of (K := fun s => Reach ok step (init n m) s) (fun _ hr => hr)
    (I := fun s => Known n s.shared.cout) ?_ ?_
  · intro id i hmem
    cases hmem
  · intro s a s' hr hi hs _
    obtain ⟨t, t', sig, ht, hm, hd⟩ := step_moves hs
    generalize hsh : s'.shared = sh' at hm
    cases hm with
    | @printProduced id i =>
      intro k x hmem
      rcases List.mem_append.mp hmem with hold | hnew
      · exact hi k x hold
      · rw [List.mem_singleton, Line.produced.injEq] at hnew
        have hplace := producer_place hr ht
        have hrole : ((init n m).threads.map role)[a.1]? = some (.producer id) := by
          rw [← run_roles hr, List.getElem?_map, ht]
          rfl
        refine ⟨a.1, ?_, hnew.1.trans hplace⟩
        by_contra hge
        simp only [init, producers, consumers, List.map_append, List.map_map, List.append_assoc] at hrole
        rw [List.getElem?_append_right (by simpa using hge)] at hrole
        have hmem := List.mem_of_getElem? hrole
        simp [role] at hmem
    | @printConsumed id data =>
      intro k x hmem
      rcases List.mem_append.mp hmem with hold | hnew
      · exact hi k x hold
      · simp at hnew
    | _ => exact hi

/-- What has been produced is what the producers have produced, one by one. -/
theorem count_produced (x : Int) : ∀ {cout : List Line}, Known n cout →
    (produced cout).count x = ∑ k ∈ Finset.range n, (producedBy (k + 1) cout).count x
  | [], _ => by simp [produced, producedBy]
  | .consumed id data size :: cout, h => by
    have hk : Known n cout := fun id i hmem => h id i (List.mem_cons_of_mem _ hmem)
    have ih := count_produced x hk
    simpa [produced, producedBy] using ih
  | .produced id i :: cout, h => by
    have hk : Known n cout := fun id i hmem => h id i (List.mem_cons_of_mem _ hmem)
    have ih := count_produced x hk
    obtain ⟨p, hp, rfl⟩ := h id i List.mem_cons_self
    have hl : produced (.produced (p + 1) i :: cout) = i :: produced cout := rfl
    have hr : ∀ k, (producedBy (k + 1) (.produced (p + 1) i :: cout)).count x =
        (producedBy (k + 1) cout).count x + if p = k then (if i = x then 1 else 0) else 0 := by
      intro k
      by_cases hk : p = k <;> simp [producedBy, hk, List.count_cons]
    rw [hl, List.count_cons, ih, Finset.sum_congr rfl fun k _ => hr k, Finset.sum_add_distrib,
      Finset.sum_ite_eq, if_pos (Finset.mem_range.mpr hp)]
    simp

theorem count_flatten_replicate (l : List Int) (x : Int) : ∀ n,
    (List.replicate n l).flatten.count x = n * l.count x
  | 0 => by simp
  | n + 1 => by
    rw [List.replicate_succ, List.flatten_cons, List.count_append, count_flatten_replicate l x n]
    ring

/-- A consumer is there, whatever it does. -/
theorem consumer_mem (hm : 0 < m) (h : Reach ok step (init n m) s) : ∃ t ∈ s.threads, isConsumer t = true := by
  have hmem : Role.consumer 1 ∈ s.threads.map role := by
    rw [run_roles h]
    simp [init, consumers, producers, role, hm]
  obtain ⟨t, ht, hr⟩ := List.mem_map.mp hmem
  cases t with
  | consumer id pc => exact ⟨_, ht, rfl⟩
  | producer id pc => cases hr
  | main pc => cases hr

/-- `main` does not return while there is a consumer. -/
theorem not_returned (hm : 0 < m) (h : Reach ok step (init n m) s) :
    Each (fun _ t => t ≠ .main .returned) s := by
  refine h.invariant_of (K := fun s => Reach ok step (init n m) s) (fun _ hr => hr)
    (I := Each fun _ t => t ≠ .main .returned) ?_ ?_
  · intro j t ht
    rcases init_cases (List.mem_of_getElem? ht) with ⟨k, _, rfl⟩ | ⟨k, _, rfl⟩ | rfl
    all_goals
      intro he
      cases he
  · intro s a s' hr hi hs _
    obtain ⟨t, t', sig, ht, hmv, hd⟩ := step_moves hs
    have hj : joining s.threads t = false := step_not_joining hs ht
    refine each_moved hd ?_ (fun j u _ hu => hi j u hu) ?_
    · generalize s'.shared = sh' at hmv
      cases hmv with
      | returns =>
        obtain ⟨u, hu, hc⟩ := consumer_mem hm hr
        have hany : s.threads.any isConsumer = true := List.any_eq_true.mpr ⟨u, hu, hc⟩
        rw [joining, hany] at hj
        cases hj
      | _ => exact fun he => by cases he
    · intro c sh u hsl _
      obtain ⟨id, rfl⟩ := asleep_cases hsl
      exact fun he => by cases he

/-- **The end of a run.**  With at least one consumer, a run is no longer than a bound that depends on the
    spurious wake-ups alone; and where nobody can move any more but by one of these, every producer has
    produced 5, 4, …, 0, the queue is empty, the elements consumed are all that were produced, each once,
    every consumer sleeps, and `main` is still waiting to join them. -/
theorem drained (n m : Nat) (hm : 0 < m) :
    (∀ as s, exec step (init n m) as = some s →
      as.length ≤ 108 * n + 3 * m + 2 + 4 * as.countP (·.2 = .wakeUp)) ∧
    ∀ s, Reach anyStep step (init n m) s → Stuck s →
      s.shared.dataQueue = [] ∧ consumed s.shared.cout = produced s.shared.cout ∧
      (consumed s.shared.cout).Perm (List.replicate n [5, 4, 3, 2, 1, 0]).flatten ∧
      (∀ t ∈ s.threads, finished t = true ∨ sleeping t = true ∨ t = .main .joinConsumers) := by
  refine ⟨fun as s => run_length_le as, fun s h hst => ?_⟩
  have hl := run_locks h
  have hend : ∀ t ∈ s.threads, finished t = true ∨ sleeping t = true ∨ ∃ pc, t = .main pc :=
    fun t ht => hst.ended hl ht
  obtain ⟨c, hc, hcons⟩ := consumer_mem hm h
  have hsl : sleeping c = true := by
    rcases hend c hc with hf | hs | ⟨pc, rfl⟩
    · cases c with
      | consumer id pc => cases hf
      | producer id pc => cases hcons
      | main pc => cases hcons
    · exact hs
    · cases hcons
  have hq : s.shared.dataQueue = [] := by
    have hle := no_wakeup_lost n m s h (List.countP_pos_iff.mpr ⟨c, hc, hsl⟩)
    have hidle : ∀ t ∈ s.threads, mustNotify t = false ∧ awake t = false := by
      intro t ht
      rcases hend t ht with hf | hs | ⟨pc, rfl⟩
      · exact finished_idle hf
      · exact sleeping_idle hs
      · exact ⟨rfl, rfl⟩
    have hn : s.threads.countP mustNotify = 0 :=
      List.countP_eq_zero.mpr fun t ht => by rw [(hidle t ht).1]; decide
    have ha : s.threads.countP awake = 0 :=
      List.countP_eq_zero.mpr fun t ht => by rw [(hidle t ht).2]; decide
    rw [hn, ha] at hle
    exact List.length_eq_zero_iff.mp (by omega)
  have hall : consumed s.shared.cout = produced s.shared.cout := by
    have horder := (hl.protects.free (hst.free hl)).order
    rw [hq, List.append_nil] at horder
    exact horder
  refine ⟨hq, hall, ?_, fun t ht => ?_⟩
  · rw [hall, List.perm_iff_count]
    intro x
    rw [count_produced x (run_known h), count_flatten_replicate, Finset.sum_congr rfl fun k hk => by
      rw [produced_all h hend (Finset.mem_range.mp hk)]]
    simp
  · rcases hend t ht with hf | hs | ⟨pc, rfl⟩
    · exact Or.inl hf
    · exact Or.inr (Or.inl hs)
    · obtain ⟨j, hj⟩ := List.mem_iff_getElem?.mp ht
      cases pc with
      | joinConsumers => exact Or.inr (Or.inr rfl)
      | joinProducers =>
        refine (hst.not_moves hj ?_ rfl).elim
        refine List.any_eq_false.mpr fun u hu => ?_
        rcases hend u hu with hf | hs | ⟨pc, rfl⟩
        · simp [hf]
        · cases u with
          | consumer id pc => simp [isProducer]
          | producer id pc => cases hs
          | main pc => cases hs
        · simp [isProducer]
      | returned => exact absurd rfl (not_returned hm h j _ hj)

/-- The producer comes to its end, then the consumer takes everything and sleeps. -/
def oneEach : List (Nat × Choice) :=
  List.replicate 36 (0, .go) ++ List.replicate 39 (1, .go) ++ [(2, .go)]

/-- A state in which everybody has come to the end is stuck. -/
theorem stuck_of_ended {shared : Shared} (id k : Nat) :
    Stuck ⟨shared, [.producer id .done, .consumer k .sleep, .main .joinConsumers]⟩ := by
  intro i ch hne
  rcases i with _ | _ | _ | i
  · rfl
  · simp [step, World.step, program, joining, threadStep, consumer, hne]
  · rfl
  · rfl

theorem drained_one : ∃ s, exec step (init 1 1) oneEach = some s ∧ s.shared.dataQueue = [] ∧
    (consumed s.shared.cout).Perm (List.replicate 1 [5, 4, 3, 2, 1, 0]).flatten := by
  have hrun : exec step (init 1 1) oneEach = some ⟨((exec step (init 1 1) oneEach).get (by decide)).shared,
      [.producer 1 .done, .consumer 1 .sleep, .main .joinConsumers]⟩ := by decide
  obtain ⟨hq, _, hperm, _⟩ := (drained 1 1 (by decide)).2 _ (exec_reach oneEach hrun) (stuck_of_ended 1 1)
  exact ⟨_, hrun, hq, hperm⟩

end CppBackend.ProducerConsumer
