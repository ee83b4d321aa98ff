import CppBackend.ProducerConsumer.Model
import CppBackend.Library.Mutex

/-!
# Every element is consumed once, in the order of the pushes

What `mtx` protects is the queue together with the output (`Balanced`): the elements printed as
consumed, followed by the queue, are the elements printed as produced.  Between a push or a pop and the
line that reports it, the thread that holds `mtx` knows what is missing (`Knows`).
-/

set_option autoImplicit false

namespace CppBackend.ProducerConsumer

open Library.Transition Library.Tally Library.Threads Library.Mutex

/-! ## One step of a thread -/

/-- Everything that a thread can do in one step. -/
inductive Moves (sh : Shared) : Thread → Shared → Thread → Signal Unit → Prop where
  | lockToPush {id : Nat} {i : Int} (h : sh.mtx = false) :
      Moves sh (.producer id (.lock i)) { sh with mtx := true } (.producer id (.push i)) .quiet
  | push {id : Nat} {i : Int} :
      Moves sh (.producer id (.push i)) { sh with dataQueue := sh.dataQueue ++ [i] }
        (.producer id (.print i)) .quiet
  | printProduced {id : Nat} {i : Int} :
      Moves sh (.producer id (.print i)) { sh with cout := sh.cout ++ [.produced id i] }
        (.producer id (.unlock i)) .quiet
  | unlockPushed {id : Nat} {i : Int} :
      Moves sh (.producer id (.unlock i)) { sh with mtx := false } (.producer id (.notify i)) .quiet
  | notifyPushed {id : Nat} {i : Int} {j : Option Nat} :
      Moves sh (.producer id (.notify i)) sh (.producer id (.pause i)) (.one () j)
  | nextPass {id : Nat} {i : Int} :
      Moves sh (.producer id (.pause i)) sh (.producer id (nextPass i)) .quiet
  | lockToWait {id : Nat} (h : sh.mtx = false) :
      Moves sh (.consumer id .lock) { sh with mtx := true } (.consumer id .pred) .quiet
  | ready {id : Nat} (h : sh.dataQueue ≠ []) :
      Moves sh (.consumer id .pred) sh (.consumer id .front) .quiet
  | unready {id : Nat} (h : sh.dataQueue = []) :
      Moves sh (.consumer id .pred) sh (.consumer id .doze) .quiet
  | sleep {id : Nat} :
      Moves sh (.consumer id .doze) { sh with mtx := false } (.consumer id .sleep) .quiet
  | spurious {id : Nat} : Moves sh (.consumer id .sleep) sh (.consumer id .woken) .quiet
  | relock {id : Nat} (h : sh.mtx = false) :
      Moves sh (.consumer id .woken) { sh with mtx := true } (.consumer id .pred) .quiet
  | frontOfNothing {id : Nat} (h : sh.dataQueue = []) :
      Moves sh (.consumer id .front) sh (.consumer id .undefined) .quiet
  | pop {id : Nat} {data : Int} {queue : List Int} (h : sh.dataQueue = data :: queue) :
      Moves sh (.consumer id .front) { sh with dataQueue := queue } (.consumer id (.print data)) .quiet
  | printConsumed {id : Nat} {data : Int} :
      Moves sh (.consumer id (.print data))
        { sh with cout := sh.cout ++ [.consumed id data sh.dataQueue.length] } (.consumer id .notify) .quiet
  | notifyPopped {id : Nat} {j : Option Nat} :
      Moves sh (.consumer id .notify) sh (.consumer id .unlock) (.one () j)
  | unlockPopped {id : Nat} :
      Moves sh (.consumer id .unlock) { sh with mtx := false } (.consumer id .lock) .quiet
  | joined : Moves sh (.main .joinProducers) sh (.main .joinConsumers) .quiet
  | returns : Moves sh (.main .joinConsumers) sh (.main .returned) .quiet

theorem producer_moves {id : Nat} {sh sh' : Shared} {pc pc' : ProducerPc} {ch : Choice} {sig : Signal Unit}
    (h : producer id sh pc ch = some (sh', pc', sig)) :
    Moves sh (.producer id pc) sh' (.producer id pc') sig := by
  cases pc <;> simp only [producer] at h
  case lock =>
    split at h <;> cases h
    exact .lockToPush (by simpa using ‹¬sh.mtx = true›)
  case push => cases h; exact .push
  case print => cases h; exact .printProduced
  case unlock => cases h; exact .unlockPushed
  case notify => cases h; exact .notifyPushed
  case pause => cases h; exact .nextPass
  case done => cases h

theorem consumer_moves {id : Nat} {sh sh' : Shared} {pc pc' : ConsumerPc} {ch : Choice} {sig : Signal Unit}
    (h : consumer id sh pc ch = some (sh', pc', sig)) :
    Moves sh (.consumer id pc) sh' (.consumer id pc') sig := by
  cases pc <;> simp only [consumer] at h
  case lock =>
    split at h <;> cases h
    exact .lockToWait (by simpa using ‹¬sh.mtx = true›)
  case pred =>
    cases h
    split
    · rename_i hq; exact .ready (by simpa using hq)
    · rename_i hq; exact .unready (by simpa using hq)
  case doze => cases h; exact .sleep
  case sleep =>
    split at h <;> cases h
    exact .spurious
  case woken =>
    split at h <;> cases h
    exact .relock (by simpa using ‹¬sh.mtx = true›)
  case front =>
    split at h <;> cases h
    · exact .frontOfNothing (by assumption)
    · exact .pop (by assumption)
  case print => cases h; exact .printConsumed
  case notify => cases h; exact .notifyPopped
  case unlock => cases h; exact .unlockPopped
  case undefined => cases h

theorem thread_moves {sh sh' : Shared} {t t' : Thread} {ch : Choice} {sig : Signal Unit}
    (h : threadStep sh t ch = some (sh', t', sig)) : Moves sh t sh' t' sig := by
  cases t with
  | producer id pc =>
    obtain ⟨⟨sh₁, pc₁, sig₁⟩, hr, he⟩ := Option.map_eq_some_iff.mp h
    cases he
    exact producer_moves hr
  | consumer id pc =>
    obtain ⟨⟨sh₁, pc₁, sig₁⟩, hr, he⟩ := Option.map_eq_some_iff.mp h
    cases he
    exact consumer_moves hr
  | main pc =>
    cases pc <;> cases h
    · exact .joined
    · exact .returns

/-- **Inversion of a step** of the program. -/
theorem step_moves {s s' : Run} {a : Nat × Choice} (h : step s a = some s') :
    ∃ t t' sig, s.threads[a.1]? = some t ∧ Moves s.shared t s'.shared t' sig ∧
      Delivered program sig (s.threads.set a.1 t') s'.threads := by
  obtain ⟨t, t', sig, ht, hp, hd⟩ := step_inv h
  exact ⟨t, t', sig, ht, thread_moves hp, hd⟩

theorem asleep_cases {c : Unit} {t : Thread} (h : program.asleep c t = true) :
    ∃ id, t = .consumer id .sleep := by
  cases t with
  | consumer id pc => cases pc <;> first | exact ⟨id, rfl⟩ | cases h
  | producer id pc => cases h
  | main pc => cases h

/-! ## The output -/

def produced (cout : List Line) : List Int :=
  cout.filterMap fun l => match l with
    | .produced _ i => some i
    | _ => none

def consumed (cout : List Line) : List Int :=
  cout.filterMap fun l => match l with
    | .consumed _ data _ => some data
    | _ => none

/-- What one producer has printed. -/
def producedBy (id : Nat) (cout : List Line) : List Int :=
  cout.filterMap fun l => match l with
    | .produced k i => if k = id then some i else none
    | _ => none

@[simp] theorem produced_produced (cout : List Line) (id : Nat) (i : Int) :
    produced (cout ++ [.produced id i]) = produced cout ++ [i] := by
  simp [produced]

@[simp] theorem produced_consumed (cout : List Line) (id : Nat) (data : Int) (size : Nat) :
    produced (cout ++ [.consumed id data size]) = produced cout := by
  simp [produced]

@[simp] theorem consumed_produced (cout : List Line) (id : Nat) (i : Int) :
    consumed (cout ++ [.produced id i]) = consumed cout := by
  simp [consumed]

@[simp] theorem consumed_consumed (cout : List Line) (id : Nat) (data : Int) (size : Nat) :
    consumed (cout ++ [.consumed id data size]) = consumed cout ++ [data] := by
  simp [consumed]

@[simp] theorem producedBy_produced (id k : Nat) (cout : List Line) (i : Int) :
    producedBy id (cout ++ [.produced k i]) = producedBy id cout ++ if k = id then [i] else [] := by
  by_cases h : k = id <;> simp [producedBy, h]

@[simp] theorem producedBy_consumed (id k : Nat) (cout : List Line) (data : Int) (size : Nat) :
    producedBy id (cout ++ [.consumed k data size]) = producedBy id cout := by
  simp [producedBy]

/-- Every printed queue size is what the lines printed before it say. -/
def SizesRight (cout : List Line) : Prop :=
  ∀ pre id data size post, cout = pre ++ .consumed id data size :: post →
    size + (consumed pre).length + 1 = (produced pre).length

/-- The output and a queue fit together. -/
structure Balanced (cout : List Line) (queue : List Int) : Prop where
  order : consumed cout ++ queue = produced cout
  sizes : SizesRight cout

/-- A line in a list that has grown by one is the new line or was there. -/
theorem append_split {β : Type} {l pre post : List β} {x y : β} (h : l ++ [x] = pre ++ y :: post) :
    (pre = l ∧ y = x) ∨ ∃ post', l = pre ++ y :: post' := by
  rcases List.eq_nil_or_concat post with rfl | ⟨post', z, rfl⟩
  · obtain ⟨hl, hx⟩ := List.append_inj' h rfl
    cases hx
    exact Or.inl ⟨hl.symm, rfl⟩
  · have hcat : l ++ [x] = (pre ++ y :: post') ++ [z] := by
      rw [h]
      simp
    exact Or.inr ⟨post', (List.append_inj' hcat rfl).1⟩

theorem Balanced.produce {cout : List Line} {queue : List Int} (h : Balanced cout queue) (id : Nat)
    (i : Int) : Balanced (cout ++ [.produced id i]) (queue ++ [i]) := by
  refine ⟨?_, fun pre k data size post he => ?_⟩
  · rw [consumed_produced, produced_produced, ← List.append_assoc, h.order]
  · rcases append_split he with ⟨_, hx⟩ | ⟨post', hl⟩
    · cases hx
    · exact h.sizes pre k data size post' hl

theorem Balanced.consume {cout : List Line} {queue : List Int} {data : Int}
    (h : Balanced cout (data :: queue)) (id : Nat) :
    Balanced (cout ++ [.consumed id data queue.length]) queue := by
  have horder : consumed cout ++ data :: queue = produced cout := h.order
  refine ⟨?_, fun pre k x size post he => ?_⟩
  · rw [consumed_consumed, produced_consumed, ← horder]
    simp
  · rcases append_split he with ⟨hpre, hx⟩ | ⟨post', hl⟩
    · cases hx
      rw [hpre, ← horder, List.length_append, List.length_cons]
      omega
    · exact h.sizes pre k x size post' hl

/-! ## What `mtx` protects -/

def holdsMtx : Thread → Bool
  | .producer _ (.push _) | .producer _ (.print _) | .producer _ (.unlock _) => true
  | .consumer _ .pred | .consumer _ .doze | .consumer _ .front | .consumer _ (.print _) => true
  | .consumer _ .notify | .consumer _ .unlock | .consumer _ .undefined => true
  | _ => false

/-- What a thread that holds `mtx` knows. -/
def Knows : Thread → Shared → Prop
  | .producer _ (.print i), sh => ∃ queue, sh.dataQueue = queue ++ [i] ∧ Balanced sh.cout queue
  | .consumer _ .doze, sh => sh.dataQueue = [] ∧ Balanced sh.cout sh.dataQueue
  | .consumer _ .front, sh => sh.dataQueue ≠ [] ∧ Balanced sh.cout sh.dataQueue
  | .consumer _ (.print data), sh => Balanced sh.cout (data :: sh.dataQueue)
  | .consumer _ .undefined, _ => False
  | _, sh => Balanced sh.cout sh.dataQueue

def Settled (sh : Shared) : Prop := Balanced sh.cout sh.dataQueue

theorem moves_guarded {sh sh' : Shared} {t t' : Thread} {sig : Signal Unit} (h : Moves sh t sh' t' sig) :
    Guarded Shared.mtx holdsMtx Settled Knows sh t sh' t' := by
  cases h with
  | lockToPush h => exact .enter h rfl rfl rfl fun hs => hs
  | push => exact .inside rfl rfl rfl fun hk => ⟨_, rfl, hk⟩
  | @printProduced id i =>
    refine .inside rfl rfl rfl fun hk => ?_
    obtain ⟨queue, hq, hb⟩ := hk
    show Balanced (sh.cout ++ [.produced id i]) sh.dataQueue
    rw [hq]
    exact hb.produce id i
  | unlockPushed => exact .leave rfl rfl rfl fun hk => hk
  | notifyPushed => exact .outside rfl rfl rfl id fun _ => id
  | @nextPass k i =>
    refine .outside rfl rfl ?_ id fun _ => id
    unfold ProducerConsumer.nextPass
    split <;> rfl
  | lockToWait h => exact .enter h rfl rfl rfl fun hs => hs
  | ready h => exact .inside rfl rfl rfl fun hk => ⟨h, hk⟩
  | unready h => exact .inside rfl rfl rfl fun hk => ⟨h, hk⟩
  | sleep => exact .leave rfl rfl rfl fun hk => hk.2
  | spurious => exact .outside rfl rfl rfl id fun _ => id
  | relock h => exact .enter h rfl rfl rfl fun hs => hs
  | frontOfNothing h => exact .inside rfl rfl rfl fun hk => hk.1 h
  | @pop id data queue h =>
    refine .inside rfl rfl rfl fun hk => ?_
    show Balanced sh.cout (data :: queue)
    rw [← h]
    exact hk.2
  | @printConsumed id data => exact .inside rfl rfl rfl fun hk => Balanced.consume hk id
  | notifyPopped => exact .inside rfl rfl rfl fun hk => hk
  | unlockPopped => exact .leave rfl rfl rfl fun hk => hk
  | joined => exact .outside rfl rfl rfl id fun _ => id
  | returns => exact .outside rfl rfl rfl id fun _ => id

theorem blind_holdsMtx : Blind program holdsMtx := by
  intro c t h
  obtain ⟨id, rfl⟩ := asleep_cases h
  rfl

theorem asleep_outside (c : Unit) (t : Thread) (h : program.asleep c t = true) : holdsMtx t = false := by
  obtain ⟨id, rfl⟩ := asleep_cases h
  rfl

variable {ok : Run → Nat × Choice → Run → Prop} {n m : Nat} {s : Run}

theorem init_cases {t : Thread} (h : t ∈ (init n m).threads) :
    (∃ k < n, t = .producer (k + 1) (.lock 5)) ∨ (∃ k < m, t = .consumer (k + 1) .lock) ∨
      t = .main .joinProducers := by
  simp only [init, producers, consumers, List.mem_append, List.mem_map, List.mem_range,
    List.mem_singleton] at h
  rcases h with (⟨k, hk, rfl⟩ | ⟨k, hk, rfl⟩) | rfl
  · exact Or.inl ⟨k, hk, rfl⟩
  · exact Or.inr (Or.inl ⟨k, hk, rfl⟩)
  · exact Or.inr (Or.inr rfl)

theorem init_outside {t : Thread} (h : t ∈ (init n m).threads) : holdsMtx t = false := by
  rcases init_cases h with ⟨k, _, rfl⟩ | ⟨k, _, rfl⟩ | rfl <;> rfl

theorem exclusive_init (n m : Nat) : Exclusive Shared.mtx holdsMtx (init n m) := by
  show tally (ind holdsMtx) (init n m).threads = 0
  rw [tally_congr (g := fun _ => 0) fun t ht => ind_of_false (init_outside ht)]
  simp [tally]

theorem balanced_nil : Balanced [] [] :=
  ⟨rfl, fun pre id data size post h => by simp at h⟩

/-- `mtx` is held by one thread, and protects the queue and the output. -/
structure Locks (s : Run) : Prop where
  exclusive : Exclusive Shared.mtx holdsMtx s
  protects : Protects Shared.mtx holdsMtx Settled Knows s

theorem locks_step {s' : Run} {a : Nat × Choice} (hl : Locks s) (h : step s a = some s') : Locks s' := by
  obtain ⟨t, t', sig, ht, hm, hd⟩ := step_moves h
  have hg := moves_guarded hm
  exact ⟨mutex_step blind_holdsMtx hl.exclusive ht hg.lockStep hd,
    protects_step blind_holdsMtx asleep_outside hl.exclusive hl.protects ht hg hd⟩

theorem locks_init (n m : Nat) : Locks (init n m) := by
  refine ⟨exclusive_init n m, fun _ => balanced_nil, fun j t ht hh => ?_⟩
  rw [init_outside (List.mem_of_getElem? ht)] at hh
  cases hh

theorem run_locks (h : Reach ok step (init n m) s) : Locks s :=
  h.invariant (locks_init n m) fun _ _ _ hl hs _ => locks_step hl hs

/-- Whoever holds `mtx`, the elements consumed are the first ones produced. -/
theorem knows_prefix {t : Thread} {sh : Shared} (h : Knows t sh) :
    consumed sh.cout <+: produced sh.cout := by
  have hb : ∀ {queue : List Int}, Balanced sh.cout queue → consumed sh.cout <+: produced sh.cout :=
    fun h => ⟨_, h.order⟩
  unfold Knows at h
  split at h
  · obtain ⟨_, _, h⟩ := h
    exact hb h
  · exact hb h.2
  · exact hb h.2
  · exact hb h
  · exact h.elim
  · exact hb h

theorem knows_sizes {t : Thread} {sh : Shared} (h : Knows t sh) : SizesRight sh.cout := by
  unfold Knows at h
  split at h
  · obtain ⟨_, _, h⟩ := h
    exact h.sizes
  · exact h.2.sizes
  · exact h.2.sizes
  · exact h.sizes
  · exact h.elim
  · exact h.sizes

/-- The queue and the output are as `mtx` protects them, or some thread knows how they are not. -/
theorem Locks.settled_or_known (h : Locks s) :
    Settled s.shared ∨ ∃ t, Knows t s.shared := by
  have hx := h.exclusive
  unfold Exclusive at hx
  cases hm : s.shared.mtx with
  | false => exact Or.inl (h.protects.free hm)
  | true =>
    rw [hm, if_pos rfl] at hx
    obtain ⟨t, ht, hh⟩ := exists_of_tally_ind (p := holdsMtx) (l := s.threads) (by omega)
    obtain ⟨j, hj⟩ := List.mem_iff_getElem?.mp ht
    exact Or.inr ⟨t, h.protects.held j t hj hh⟩

/-! ## The lines of one producer -/

/-- What a thread is, whatever its point. -/
inductive Role where
  | producer (id : Nat)
  | consumer (id : Nat)
  | main
  deriving DecidableEq

def role : Thread → Role
  | .producer id _ => .producer id
  | .consumer id _ => .consumer id
  | .main _ => .main

theorem moves_role {sh sh' : Shared} {t t' : Thread} {sig : Signal Unit} (h : Moves sh t sh' t' sig) :
    role t' = role t := by
  cases h <;> rfl

theorem wake_role (c : Unit) (t : Thread) (h : program.asleep c t = true) :
    role (program.wake t) = role t := by
  obtain ⟨id, rfl⟩ := asleep_cases h
  rfl

theorem map_set_of_getElem? {β γ : Type} {f : β → γ} {l : List β} {i : Nat} {x y : β}
    (hx : l[i]? = some x) (h : f y = f x) : (l.set i y).map f = l.map f := by
  rw [List.map_set, h]
  refine List.ext_getElem? fun k => ?_
  rw [List.getElem?_set]
  split
  · rename_i hk
    subst hk
    rw [List.getElem?_map, hx, List.length_map, if_pos (List.getElem?_eq_some_iff.mp hx).1]
    rfl
  · rfl

theorem run_roles (h : Reach ok step (init n m) s) :
    s.threads.map role = (init n m).threads.map role := by
  refine h.invariant (I := fun s => s.threads.map role = (init n m).threads.map role) rfl ?_
  intro s a s' hi hs _
  obtain ⟨t, t', sig, ht, hm, hd⟩ := step_moves hs
  rw [hd.map_eq wake_role, map_set_of_getElem? ht (moves_role hm), hi]

theorem init_role {j id : Nat} (h : ((init n m).threads.map role)[j]? = some (.producer id)) :
    id = j + 1 := by
  simp only [init, producers, consumers, List.map_append, List.map_map, List.append_assoc] at h
  by_cases hj : j < n
  · rw [List.getElem?_append_left (by simpa using hj)] at h
    simp [hj, role] at h
    exact h.symm
  · rw [List.getElem?_append_right (by simpa using hj)] at h
    have hmem := List.mem_of_getElem? h
    simp [role] at hmem

/-- The producer with a number stands at one place in the list of threads. -/
theorem producer_place (h : Reach ok step (init n m) s) {j id : Nat} {pc : ProducerPc}
    (hj : s.threads[j]? = some (.producer id pc)) : id = j + 1 := by
  refine init_role (n := n) (m := m) ?_
  rw [← run_roles h, List.getElem?_map, hj]
  rfl

/-- What a producer has printed at each of its points. -/
def Printed (sh : Shared) : Thread → Prop
  | .producer id (.lock i) | .producer id (.push i) | .producer id (.print i) =>
    0 ≤ i ∧ i ≤ 5 ∧ producedBy id sh.cout = [5, 4, 3, 2, 1, 0].take (5 - i).toNat
  | .producer id (.unlock i) | .producer id (.notify i) | .producer id (.pause i) =>
    0 ≤ i ∧ i ≤ 5 ∧ producedBy id sh.cout = [5, 4, 3, 2, 1, 0].take (6 - i).toNat
  | .producer id .done => producedBy id sh.cout = [5, 4, 3, 2, 1, 0]
  | _ => True

theorem moves_printed {sh sh' : Shared} {t t' : Thread} {sig : Signal Unit} (h : Moves sh t sh' t' sig)
    (hp : Printed sh t) : Printed sh' t' := by
  cases h with
  | lockToPush => exact hp
  | push => exact hp
  | @printProduced id i =>
    obtain ⟨h0, h5, hl⟩ := hp
    refine ⟨h0, h5, ?_⟩
    rw [producedBy_produced, if_pos rfl, hl]
    have hcases : i = 0 ∨ i = 1 ∨ i = 2 ∨ i = 3 ∨ i = 4 ∨ i = 5 := by omega
    rcases hcases with rfl | rfl | rfl | rfl | rfl | rfl <;> rfl
  | unlockPushed => exact hp
  | notifyPushed => exact hp
  | @nextPass id i =>
    obtain ⟨h0, h5, hl⟩ := hp
    unfold ProducerConsumer.nextPass
    split
    · refine ⟨by omega, by omega, ?_⟩
      rw [hl]
      congr 2
      omega
    · have hi : i = 0 := by omega
      subst hi
      exact hl
  | _ => trivial

/-- A step of another thread leaves a producer's lines alone. -/
theorem moves_printed_other {sh sh' : Shared} {t t' u : Thread} {sig : Signal Unit}
    (h : Moves sh t sh' t' sig) (hne : ∀ id pc pc', t = .producer id pc → u ≠ .producer id pc')
    (hu : Printed sh u) : Printed sh' u := by
  have hkeep : ∀ id pc', u = .producer id pc' → producedBy id sh'.cout = producedBy id sh.cout := by
    intro id pc' hpc
    cases h with
    | @printProduced k i =>
      show producedBy id (sh.cout ++ [.produced k i]) = _
      rw [producedBy_produced, if_neg, List.append_nil]
      rintro rfl
      exact hne k _ pc' rfl hpc
    | @printConsumed k data => exact producedBy_consumed id k sh.cout data _
    | _ => rfl
  cases u with
  | producer id pc =>
    have := hkeep id pc rfl
    cases pc <;> simp only [Printed, this] at hu ⊢ <;> exact hu
  | consumer id pc => trivial
  | main pc => trivial

theorem run_printed (h : Reach ok step (init n m) s) : Each Printed s := by
  refine h.invariant_of (K := fun s => Reach ok step (init n m) s) (fun _ hr => hr) (I := Each Printed) ?_ ?_
  · intro j t ht
    rcases init_cases (List.mem_of_getElem? ht) with ⟨k, _, rfl⟩ | ⟨k, _, rfl⟩ | rfl
    · exact ⟨by decide, by decide, rfl⟩
    · trivial
    · trivial
  · intro s a s' hr hi hs _
    obtain ⟨t, t', sig, ht, hm, hd⟩ := step_moves hs
    refine each_moved hd (moves_printed hm (hi a.1 t ht)) ?_ ?_
    · intro j u hj hu
      refine moves_printed_other hm ?_ (hi j u hu)
      rintro id pc pc' rfl rfl
      have h1 := producer_place hr ht
      have h2 := producer_place hr hu
      exact hj (by omega)
    · intro c sh u hs' _
      obtain ⟨id, rfl⟩ := asleep_cases hs'
      trivial

theorem printed_prefix {sh : Shared} {id : Nat} {pc : ProducerPc} (h : Printed sh (.producer id pc)) :
    producedBy id sh.cout <+: [5, 4, 3, 2, 1, 0] := by
  cases pc with
  | lock i | push i | print i | unlock i | notify i | pause i =>
    obtain ⟨_, _, hl⟩ := h
    rw [hl]
    exact List.take_prefix _ _
  | done => exact h ▸ List.prefix_refl _

/-- **First in, first out, each element once**, for any number of producers and consumers and every
    interleaving: the elements consumed are the first ones produced, in this order; with `mtx` free, the
    queue has exactly the others; each queue size in the output is the number of elements that were
    produced and not consumed by then; each producer has produced 5, 4, …, 0, as far as it has come; and
    no consumer takes an element of an empty queue. -/
theorem consumed_in_order (n m : Nat) (s : Run) (h : Reach anyStep step (init n m) s) :
    consumed s.shared.cout <+: produced s.shared.cout ∧
    (s.shared.mtx = false → consumed s.shared.cout ++ s.shared.dataQueue = produced s.shared.cout) ∧
    SizesRight s.shared.cout ∧
    (∀ id pc, .producer id pc ∈ s.threads → producedBy id s.shared.cout <+: [5, 4, 3, 2, 1, 0]) ∧
    ∀ id, Thread.consumer id .undefined ∉ s.threads := by
  have hl := run_locks h
  refine ⟨?_, fun hf => (hl.protects.free hf).order, ?_, ?_, ?_⟩
  · rcases hl.settled_or_known with hb | ⟨t, hk⟩
    · exact ⟨_, hb.order⟩
    · exact knows_prefix hk
  · rcases hl.settled_or_known with hb | ⟨t, hk⟩
    · exact hb.sizes
    · exact knows_sizes hk
  · intro id pc hmem
    exact printed_prefix ((run_printed h).mem hmem)
  · intro id hmem
    obtain ⟨j, hj⟩ := List.mem_iff_getElem?.mp hmem
    exact hl.protects.held j _ hj rfl

/-- A producer pushes 5, and a consumer takes it. -/
def pushPop : List (Nat × Choice) := List.replicate 4 (0, .go) ++ List.replicate 4 (1, .go)

theorem consumed_in_order_one : consumed ((exec step (init 1 1) pushPop).get (by decide)).shared.cout = [5] ∧
    consumed ((exec step (init 1 1) pushPop).get (by decide)).shared.cout <+:
      produced ((exec step (init 1 1) pushPop).get (by decide)).shared.cout :=
  ⟨by decide, (consumed_in_order 1 1 _ (exec_reach_get pushPop (by decide))).1⟩

end CppBackend.ProducerConsumer
