import CppBackend.UdpClient.Model

/-!
# Who closes a socket

In a run in which `init` is only called on an object that holds no number, and only such an object is moved
from (`Careful`), every open socket has exactly one holder (`Owned`).  The first other step breaks this for
good: after a move there are two holders, and after a second `init` nobody holds the socket of the first one
(`Leaked`), which is then never closed.
-/

set_option autoImplicit false

namespace CppBackend.UdpClient

open Library.Descriptors Library.Transition

/-- The object `i` is alive and its `client_fd` is `fd`. -/
def Program.Holds (s : Program) (i fd : Nat) : Prop := s.clients i = some ⟨some fd⟩

/-- No two live objects hold the same open number, and no number has been closed that was not open. -/
structure Proper (s : Program) : Prop where
  exclusive : ∀ i j fd, i ≠ j → s.Holds i fd → s.Holds j fd → s.table.conn fd = none
  sound : none ∉ s.closes

/-- Every socket has been closed once. -/
def ClosedOnce (s : Program) : Prop := ∀ c < s.table.next, s.closes.count (some c) = 1

/-- `init` and the move constructor find -1 in the object. -/
def Careful (s : Program) (a : Action) (_ : Program) : Prop :=
  match a with
  | .init i _ | .move i _ => s.clients i = some ⟨none⟩
  | _ => True

variable {s s' : Program} {a : Action} {i j fd c : Nat}

/-! ## Steps -/

/-- What an operation does. -/
inductive Moves (s : Program) : Action → Program → Prop where
  | construct {i : Nat} (hi : s.clients i = none) : Moves s (.construct i) (s.put i (some ⟨none⟩))
  | initFails {i : Nat} {d : Client} (hi : s.clients i = some d) :
      Moves s (.init i none) (s.put i (some ⟨none⟩))
  | init {i fd : Nat} {d : Client} (hi : s.clients i = some d) (hfree : s.table.conn fd = none) :
      Moves s (.init i (some fd)) { s.put i (some ⟨some fd⟩) with table := s.table.accept fd }
  | same {i : Nat} {ok : Bool} : Moves s (.sendAndReceive i ok) s
  | sendFails {i fd : Nat} (hi : s.Holds i fd) :
      Moves s (.sendAndReceive i false) ((s.close fd).put i (some ⟨none⟩))
  | move {i j : Nat} {d : Client} (hi : s.clients i = some d) (hj : s.clients j = none) :
      Moves s (.move i j) (s.put j (some d))
  | destroyEmpty {i : Nat} (hi : s.clients i = some ⟨none⟩) : Moves s (.destroy i) (s.put i none)
  | destroy {i fd : Nat} (hi : s.Holds i fd) : Moves s (.destroy i) ((s.close fd).put i none)

theorem step_inv (h : step s a = some s') : Moves s a s' := by
  cases a with
  | construct i =>
    simp only [step] at h
    split at h
    · rename_i hi
      cases h
      exact .construct hi
    · cases h
  | init i fd =>
    simp only [step] at h
    split at h
    · rename_i hi
      cases h
      exact .initFails hi
    · rename_i hi
      split at h
      · rename_i hfree
        cases h
        exact .init hi hfree
      · cases h
    · cases h
  | sendAndReceive i ok =>
    simp only [step] at h
    split at h
    · rename_i d hi
      obtain ⟨o⟩ := d
      cases o with
      | none =>
        cases h
        exact .same
      | some fd =>
        cases ok with
        | true =>
          cases h
          exact .same
        | false =>
          cases h
          exact .sendFails hi
    · cases h
  | move i j =>
    simp only [step] at h
    split at h
    · rename_i hi hj
      cases h
      exact .move hi hj
    · cases h
  | destroy i =>
    simp only [step] at h
    split at h
    · rename_i d hi
      obtain ⟨o⟩ := d
      cases o with
      | none =>
        cases h
        exact .destroyEmpty hi
      | some fd =>
        cases h
        exact .destroy hi
    · cases h

/-! ## Careful runs -/

/-- The open sockets and the numbers in live objects are the same, one for one. -/
structure Owned (s : Program) : Prop where
  opened : ∀ i fd, s.Holds i fd → ∃ c, s.table.conn fd = some c
  single : ∀ i j fd, s.Holds i fd → s.Holds j fd → i = j
  held : ∀ fd c, s.table.conn fd = some c → ∃ i, s.Holds i fd
  sound : none ∉ s.closes
  gone : ∀ c, Gone s.table c → s.closes.count (some c) = 1
  live : ∀ c, ¬ Gone s.table c → s.closes.count (some c) = 0

theorem owned_init : Owned init :=
  ⟨fun _ _ h => (by cases h), fun _ _ _ h => (by cases h), fun _ _ h => (by cases h), by simp [init],
    fun _ h => absurd h.1 (Nat.not_lt_zero _), fun _ _ => rfl⟩

theorem holds_put {o : Option Client} :
    (s.put i o).Holds j fd ↔ (j = i ∧ o = some ⟨some fd⟩) ∨ (j ≠ i ∧ s.Holds j fd) := by
  unfold Program.put Program.Holds
  by_cases h : j = i
  · simp [h]
  · simp [h]

/-- An object that holds nothing comes, stays or goes. -/
theorem Owned.put (h : Owned s) (hi : ∀ fd, ¬ s.Holds i fd) {o : Option Client}
    (ho : ∀ fd, o ≠ some ⟨some fd⟩) : Owned (s.put i o) := by
  have hsame : ∀ j fd, (s.put i o).Holds j fd ↔ s.Holds j fd := by
    intro j fd
    rw [holds_put]
    constructor
    · rintro (⟨-, hh⟩ | ⟨-, hh⟩)
      · exact absurd hh (ho fd)
      · exact hh
    · intro hh
      refine Or.inr ⟨?_, hh⟩
      rintro rfl
      exact hi fd hh
  refine ⟨fun j fd hh => h.opened j fd ((hsame j fd).mp hh),
    fun j k fd hj hk => h.single j k fd ((hsame j fd).mp hj) ((hsame k fd).mp hk), fun fd c hc => ?_,
    h.sound, h.gone, h.live⟩
  obtain ⟨j, hj⟩ := h.held fd c hc
  exact ⟨j, (hsame j fd).mpr hj⟩

/-- The holder of a number closes it, and holds it no longer. -/
theorem Owned.close (h : Owned s) (hi : s.Holds i fd) {o : Option Client}
    (ho : ∀ fd, o ≠ some ⟨some fd⟩) : Owned ((s.close fd).put i o) := by
  obtain ⟨c, hc⟩ := h.opened i fd hi
  have hholds : ∀ j f, ((s.close fd).put i o).Holds j f ↔ j ≠ i ∧ s.Holds j f := by
    intro j f
    rw [holds_put]
    constructor
    · rintro (⟨-, hh⟩ | hh)
      · exact absurd hh (ho f)
      · exact hh
    · exact Or.inr
  have hcount : ∀ d, ((s.close fd).put i o).closes.count (some d) =
      s.closes.count (some d) + if d = c then 1 else 0 := by
    intro d
    show (s.closes ++ [s.table.conn fd]).count (some d) = _
    rw [List.count_append, hc, List.count_singleton]
    by_cases hd : d = c
    · simp [hd]
    · simp [hd, Ne.symm hd]
  refine ⟨fun j f hh => ?_, fun j k f hj hk => ?_, fun f d hd => ?_, fun hmem => ?_, fun d hd => ?_,
    fun d hd => ?_⟩
  · obtain ⟨hji, hj⟩ := (hholds j f).mp hh
    have hf : f ≠ fd := fun hf => hji (h.single j i fd (hf ▸ hj) hi)
    obtain ⟨d, hd⟩ := h.opened j f hj
    exact ⟨d, close_eq_some.mpr ⟨hf, hd⟩⟩
  · exact h.single j k f ((hholds j f).mp hj).2 ((hholds k f).mp hk).2
  · obtain ⟨hf, hd'⟩ := close_eq_some.mp hd
    obtain ⟨j, hj⟩ := h.held f d hd'
    refine ⟨j, (hholds j f).mpr ⟨?_, hj⟩⟩
    rintro rfl
    have hsame : s.clients j = some ⟨some f⟩ := hj
    rw [show s.clients j = some ⟨some fd⟩ from hi] at hsame
    simp only [Option.some.injEq, Client.mk.injEq] at hsame
    exact hf hsame.symm
  · have hmem' : none ∈ s.closes ++ [s.table.conn fd] := hmem
    rw [List.mem_append, hc, List.mem_singleton] at hmem'
    exact h.sound (hmem'.resolve_right (by simp))
  · rw [hcount]
    by_cases hdc : d = c
    · rw [hdc, h.live c (not_gone_of_open hc), if_pos rfl]
    · rw [if_neg hdc, h.gone d (gone_of_gone_close hc hdc hd)]
  · rw [hcount]
    have hdc : d ≠ c := by
      rintro rfl
      exact hd (gone_of_close hc)
    rw [if_neg hdc, h.live d fun hg => hd (gone_close hg fd)]

/-- A new socket for an object that holds nothing. -/
theorem Owned.init (h : Owned s) (hi : s.clients i = some ⟨none⟩) (hfree : s.table.conn fd = none) :
    Owned { s.put i (some ⟨some fd⟩) with table := s.table.accept fd } := by
  have hnone : ∀ f, ¬ s.Holds i f := by
    intro f hf
    rw [Program.Holds, hi] at hf
    cases hf
  have hnew : ∀ j, ¬ s.Holds j fd := by
    intro j hj
    obtain ⟨c, hc⟩ := h.opened j fd hj
    simp [hfree] at hc
  have hholds : ∀ j f, (s.put i (some ⟨some fd⟩)).Holds j f ↔ (j = i ∧ f = fd) ∨ s.Holds j f := by
    intro j f
    rw [holds_put]
    constructor
    · rintro (⟨hj, hf⟩ | ⟨-, hf⟩)
      · simp only [Option.some.injEq, Client.mk.injEq] at hf
        exact Or.inl ⟨hj, hf.symm⟩
      · exact Or.inr hf
    · rintro (⟨hj, hf⟩ | hf)
      · exact Or.inl ⟨hj, by rw [hf]⟩
      · refine Or.inr ⟨?_, hf⟩
        rintro rfl
        exact hnone f hf
  refine ⟨fun j f hj => ?_, fun j k f hj hk => ?_, fun f c hc => ?_, h.sound,
    fun c hc => h.gone c (gone_of_gone_accept hfree hc), fun c hc => h.live c fun hg => hc (gone_accept hg fd)⟩
  · rcases (hholds j f).mp hj with ⟨-, rfl⟩ | hj'
    · exact ⟨_, accept_self _ _⟩
    · obtain ⟨c, hc⟩ := h.opened j f hj'
      exact ⟨c, accept_open hfree hc⟩
  · rcases (hholds j f).mp hj with ⟨rfl, rfl⟩ | hj' <;> rcases (hholds k f).mp hk with ⟨rfl, hf⟩ | hk'
    · rfl
    · exact absurd hk' (hnew k)
    · exact absurd (hf ▸ hj') (hnew j)
    · exact h.single j k f hj' hk'
  · by_cases hf : f = fd
    · exact ⟨i, (hholds i f).mpr (Or.inl ⟨rfl, hf⟩)⟩
    · have hc' : (s.table.accept fd).conn f = some c := hc
      rw [accept_of_ne hf] at hc'
      obtain ⟨j, hj⟩ := h.held f c hc'
      exact ⟨j, (hholds j f).mpr (Or.inr hj)⟩

theorem not_holds_of_none {o : Option Client} (hi : s.clients i = o) (ho : ∀ fd, o ≠ some ⟨some fd⟩) (fd : Nat) :
    ¬ s.Holds i fd := fun h => ho fd (hi.symm.trans h)

theorem owned_step (h : Owned s) (hs : step s a = some s') (hc : Careful s a s') : Owned s' := by
  cases step_inv hs with
  | construct hi => exact h.put (not_holds_of_none hi (by simp)) (by simp)
  | initFails => exact h.put (not_holds_of_none hc (by simp)) (by simp)
  | init _ hfree => exact h.init hc hfree
  | same => exact h
  | sendFails hi => exact h.close hi (by simp)
  | @move i j d hi hj =>
    have hd : d = ⟨none⟩ := Option.some.inj (hi.symm.trans hc)
    subst hd
    exact h.put (not_holds_of_none hj (by simp)) (by simp)
  | destroyEmpty hi => exact h.put (not_holds_of_none hi (by simp)) (by simp)
  | destroy hi => exact h.close hi (by simp)

theorem reach_owned (hr : Reach Careful step init s) : Owned s :=
  hr.invariant owned_init fun _ _ _ hi h hc => owned_step hi h hc

theorem Owned.proper (h : Owned s) : Proper s :=
  ⟨fun i j fd hne hi hj => absurd (h.single i j fd hi hj) hne, h.sound⟩

/-- When the last object has been destroyed, every socket has been closed. -/
theorem Owned.closedOnce (h : Owned s) (hend : ∀ i, s.clients i = none) : ClosedOnce s := by
  refine fun c hc => h.gone c ⟨hc, fun fd hfd => ?_⟩
  obtain ⟨i, hi⟩ := h.held fd c hfd
  rw [Program.Holds, hend i] at hi
  cases hi

/-! ## Careless runs -/

/-- The socket `c` is open under a number that no object holds. -/
structure Leaked (s : Program) (fd c : Nat) : Prop where
  opened : s.table.conn fd = some c
  lost : ∀ i, ¬ s.Holds i fd
  never : s.closes.count (some c) = 0

theorem leaked_close {g : Nat} (h : Leaked s fd c) (hg : s.Holds i g) {o : Option Client}
    (ho : ∀ f, o ≠ some ⟨some f⟩) : Leaked ((s.close g).put i o) fd c := by
  have hne : fd ≠ g := by
    rintro rfl
    exact h.lost i hg
  refine ⟨close_eq_some.mpr ⟨hne, h.opened⟩, fun j hj => ?_, ?_⟩
  · rcases holds_put.mp hj with ⟨-, hj⟩ | ⟨-, hj⟩
    · exact ho fd hj
    · exact h.lost j hj
  · show (s.closes ++ [s.table.conn g]).count (some c) = 0
    have hother : s.table.conn g ≠ some c := fun hgc => hne (s.table.inj fd g c h.opened hgc)
    rw [List.count_append, h.never, List.count_singleton]
    simp [hother]

theorem leaked_put (h : Leaked s fd c) {o : Option Client} (ho : o ≠ some ⟨some fd⟩) :
    Leaked (s.put i o) fd c := by
  refine ⟨h.opened, fun j hj => ?_, h.never⟩
  rcases holds_put.mp hj with ⟨-, hj⟩ | ⟨-, hj⟩
  · exact ho hj
  · exact h.lost j hj

/-- No step gives the number back to an object, or closes it. -/
theorem leaked_step (h : Leaked s fd c) (hs : step s a = some s') : Leaked s' fd c := by
  cases step_inv hs with
  | construct | initFails | destroyEmpty => exact leaked_put h (by simp)
  | @init i g d _ hfree =>
    have hne : fd ≠ g := ne_of_open hfree h.opened
    have hput : Leaked (s.put i (some ⟨some g⟩)) fd c := leaked_put h (by simpa using Ne.symm hne)
    exact ⟨accept_open hfree h.opened, hput.lost, h.never⟩
  | same => exact h
  | sendFails hi | destroy hi => exact leaked_close h hi (by simp)
  | @move i j d hi => exact leaked_put h fun hd => h.lost i (hi.trans hd)

theorem ClosedOnce.not_leaked (h : ClosedOnce s) : ¬ Leaked s fd c := by
  intro hl
  have hone := h c (s.table.bounded fd c hl.opened)
  rw [hl.never] at hone
  cases hone

/-- The only holder of an open number loses it. -/
theorem Owned.leaks (h : Owned s) (hi : s.Holds i fd) (hc : s.table.conn fd = some c) {o : Option Client}
    (ho : o ≠ some ⟨some fd⟩) : Leaked (s.put i o) fd c := by
  refine ⟨hc, fun j hj => ?_, h.live c (not_gone_of_open hc)⟩
  rcases holds_put.mp hj with ⟨-, hj⟩ | ⟨hne, hj⟩
  · exact ho hj
  · exact hne (h.single j i fd hj hi)

theorem holds_of_ne {d : Client} (hi : s.clients i = some d) (hd : d ≠ ⟨none⟩) : ∃ fd, s.Holds i fd := by
  obtain ⟨o⟩ := d
  cases o with
  | none => exact absurd rfl hd
  | some fd => exact ⟨fd, hi⟩

/-- A second `init` leaves a socket behind. -/
theorem careless_init {g : Option Nat} (h : Owned s) (hs : step s (.init i g) = some s')
    (hc : s.clients i ≠ some ⟨none⟩) : ∃ fd c, Leaked s' fd c := by
  cases step_inv hs with
  | initFails hi =>
    obtain ⟨fd, hfd⟩ := holds_of_ne hi fun hd => hc (hd ▸ hi)
    obtain ⟨c, hopen⟩ := h.opened i fd hfd
    exact ⟨fd, c, h.leaks hfd hopen (by simp)⟩
  | @init _ g _ hi hfree =>
    obtain ⟨fd, hfd⟩ := holds_of_ne hi fun hd => hc (hd ▸ hi)
    obtain ⟨c, hopen⟩ := h.opened i fd hfd
    have hne : fd ≠ g := ne_of_open hfree hopen
    have hput : Leaked (s.put i (some ⟨some g⟩)) fd c := h.leaks hfd hopen (by simpa using Ne.symm hne)
    exact ⟨fd, c, accept_open hfree hopen, hput.lost, hput.never⟩

/-- A move leaves two holders of one number. -/
theorem careless_move (h : Owned s) (hs : step s (.move i j) = some s') (hc : s.clients i ≠ some ⟨none⟩) :
    ¬ Proper s' := by
  cases step_inv hs with
  | @move _ _ d hi hj =>
    obtain ⟨fd, hfd⟩ := holds_of_ne hi fun hd => hc (hd ▸ hi)
    obtain ⟨c, hopen⟩ := h.opened i fd hfd
    have hij : i ≠ j := by
      rintro rfl
      rw [hi] at hj
      cases hj
    have hto : (s.put j (some d)).Holds j fd := holds_put.mpr (Or.inl ⟨rfl, hi.symm.trans hfd⟩)
    have hfrom : (s.put j (some d)).Holds i fd := holds_put.mpr (Or.inr ⟨hij, hfd⟩)
    intro hp
    have hnone : s.table.conn fd = none := hp.exclusive i j fd hij hfrom hto
    rw [hopen] at hnone
    cases hnone

/-- The step that is not careful leaves two holders, or a socket that is never closed. -/
theorem careless (h : Owned s) (hs : step s a = some s') (hp : Proper s') :
    Careful s a s' ∨ ∃ fd c, Leaked s' fd c := by
  cases a with
  | construct | sendAndReceive | destroy => exact Or.inl trivial
  | init i g =>
    by_cases hc : s.clients i = some ⟨none⟩
    · exact Or.inl hc
    · exact Or.inr (careless_init h hs hc)
  | move i j =>
    refine Or.inl ?_
    by_contra hc
    exact careless_move h hs hc hp

theorem allowed_of_closedOnce {as : List Action} (h : exec step init as = some s) (hp : Stays Proper step init as)
    (hclosed : ClosedOnce s) : Allowed Careful step init as := by
  have hend : ¬ ∃ fd c, Leaked s fd c := fun ⟨_, _, hl⟩ => hclosed.not_leaked hl
  refine Stays.allowed_of_end Proper (fun s => ∃ fd c, Leaked s fd c)
    (fun s a s' hr hs hp => careless (reach_owned hr) hs hp) (fun s a s' _ hl hs => ?_) hend as Reach.refl h hp
  obtain ⟨fd, c, hl⟩ := hl
  exact ⟨fd, c, leaked_step hl hs⟩

/-- **A `UDPClient` owns its socket exclusively** in every run in which `init` is only called on objects that
hold no number, and only such objects are moved from; a run up to the end of the last object, in which the
sockets are owned exclusively and each is closed once, is of this kind. -/
theorem owns_exclusively_iff {as : List Action} (h : exec step init as = some s) :
    (Allowed Careful step init as → Stays Proper step init as) ∧
    ((∀ i, s.clients i = none) →
      ((Stays Proper step init as ∧ ClosedOnce s) ↔ Allowed Careful step init as)) := by
  have hproper : Allowed Careful step init as → Stays Proper step init as := fun ha =>
    ha.stays (fun _ hr => (reach_owned hr).proper) as Reach.refl
  refine ⟨hproper, fun hend => ⟨fun ⟨hp, hclosed⟩ => allowed_of_closedOnce h hp hclosed,
    fun ha => ⟨hproper ha, (reach_owned (Allowed.reach as h ha)).closedOnce hend⟩⟩⟩

/-- One object is moved before it is initialised; the other one fails to send, and is initialised again. -/
def carefulUse : List Action :=
  [.construct 0, .move 0 1, .init 1 (some 3), .sendAndReceive 1 false, .init 1 (some 3), .destroy 1,
    .destroy 0]

theorem owns_exclusively_iff_careful :
    ClosedOnce ((exec step init carefulUse).get rfl) := by
  have h := (Option.some_get (rfl : (exec step init carefulUse).isSome = true)).symm
  have hend : ∀ i, ((exec step init carefulUse).get rfl).clients i = none
    | 0 => rfl
    | 1 => rfl
    | _ + 2 => rfl
  have hallowed : Allowed Careful step init carefulUse :=
    .cons rfl trivial <| .cons rfl rfl <| .cons rfl rfl <| .cons rfl trivial <| .cons rfl rfl <|
      .cons rfl trivial <| .cons rfl trivial trivial
  exact (((owns_exclusively_iff h).2 hend).mpr hallowed).2

/-- An initialised object is moved; then both are destroyed. -/
def movedUse : List Action := [.construct 0, .init 0 (some 3), .move 0 1, .destroy 1, .destroy 0]

/-- An object is initialised twice. -/
def repeatedUse : List Action := [.construct 0, .init 0 (some 3), .init 0 (some 4), .destroy 0]

/-- The first run closes the number 3 a second time when it is not open, and has two holders of it in
between; the second one never closes it. -/
theorem move_and_init_careless :
    (∃ s, exec step init movedUse = some s ∧ s.closes = [some 0, none] ∧
      ¬ (Stays Proper step init movedUse ∧ ClosedOnce s)) ∧
    ∃ s, exec step init repeatedUse = some s ∧ s.closes = [some 1] ∧ s.table.conn 3 = some 0 ∧
      ¬ (Stays Proper step init repeatedUse ∧ ClosedOnce s) := by
  refine ⟨⟨_, rfl, rfl, fun h => ?_⟩, ⟨_, rfl, rfl, rfl, fun h => ?_⟩⟩
  · have htwo := ((h.1.2 _ rfl).2 _ rfl).2 _ rfl
    have hnone := htwo.head.exclusive 0 1 3 (by decide) rfl rfl
    exact absurd hnone (by decide)
  · exact absurd (h.2 0 (by decide)) (by decide)

end CppBackend.UdpClient
