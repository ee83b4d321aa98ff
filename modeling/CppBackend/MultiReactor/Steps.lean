import CppBackend.MultiReactor.Model
import CppBackend.SubReactors.Rotation

/-!
# Steps of the reactors

What a step of a thread does, with its guards (`Moves`), what the parts of a step leave as it is, and what the threads
have in their hands at each point of their code (`SubAt`, `MainAt`).
-/

set_option autoImplicit false

namespace CppBackend.MultiReactor

open Library.Descriptors Library.Calls Library.Storage Library.Transition

variable {s s' : Server} {v w : Who} {fd c k : Nat} {a this : Addr} {pc : Pc}

/-! ## The parts of a step -/

section Goto

variable (s w pc)

@[simp] theorem goto_process : (s.goto w pc).process = s.process := rfl
@[simp] theorem goto_objects : (s.goto w pc).objects = s.objects := rfl

@[simp] theorem goto_registered (v : Who) : ((s.goto w pc).loop v).registered = (s.loop v).registered := by
  by_cases hv : v = w
  · subst hv
    simp [Server.goto, Server.set]
  · simp [Server.goto, Server.set, hv]

@[simp] theorem goto_batch (v : Who) : ((s.goto w pc).loop v).batch = (s.loop v).batch := by
  by_cases hv : v = w
  · subst hv
    simp [Server.goto, Server.set]
  · simp [Server.goto, Server.set, hv]

@[simp] theorem goto_pc_self : ((s.goto w pc).loop w).pc = pc := by
  simp [Server.goto, Server.set]

theorem goto_pc_of_ne (hv : v ≠ w) : ((s.goto w pc).loop v).pc = (s.loop v).pc := by
  simp [Server.goto, Server.set, hv]

/-- The main thread and those of the sub-reactors stay where they are, when one of the others moves. -/
@[simp] theorem goto_main_pc (k : Nat) : ((s.goto .main pc).loop (.sub k)).pc = (s.loop (.sub k)).pc :=
  goto_pc_of_ne s .main pc (by simp)

@[simp] theorem goto_sub_pc (k : Nat) : ((s.goto (.sub k) pc).loop .main).pc = (s.loop .main).pc :=
  goto_pc_of_ne s (.sub k) pc (by simp)

theorem goto_other_pc {j k : Nat} (hj : j ≠ k) : ((s.goto (.sub k) pc).loop (.sub j)).pc = (s.loop (.sub j)).pc :=
  goto_pc_of_ne s (.sub k) pc (by simp [hj])

end Goto

theorem set_loop_of_ne {l : Loop} (hv : v ≠ w) : (s.set w l).loop v = s.loop v := by
  simp [Server.set, hv]

@[simp] theorem set_loop_self (l : Loop) : (s.set w l).loop w = l := by simp [Server.set]

/-- Both changes of a loop in one. -/
theorem set_goto (s : Server) (w : Who) (l : Loop) (pc : Pc) :
    (s.set w l).goto w pc = s.set w { l with pc := pc } := by
  simp [Server.goto, Server.set, Function.update_idem]

section Epoll

variable (s k fd v)

@[simp] theorem addChannel_pc : ((s.addChannel k fd this).loop v).pc = (s.loop v).pc := by
  by_cases hv : v = .sub k
  · subst hv
    simp [Server.addChannel]
  · simp [Server.addChannel, set_loop_of_ne hv]

@[simp] theorem addChannel_batch : ((s.addChannel k fd this).loop v).batch = (s.loop v).batch := by
  by_cases hv : v = .sub k
  · subst hv
    simp [Server.addChannel]
  · simp [Server.addChannel, set_loop_of_ne hv]

theorem addChannel_registered (f : Nat) : ((s.addChannel k fd this).loop v).registered f =
    if v = .sub k ∧ f = fd then some this else (s.loop v).registered f := by
  by_cases hv : v = .sub k
  · subst hv
    simp [Server.addChannel, Function.update_apply]
  · simp [Server.addChannel, set_loop_of_ne hv, hv]

@[simp] theorem delChannel_pc : ((s.delChannel k fd).loop v).pc = (s.loop v).pc := by
  by_cases hv : v = .sub k
  · subst hv
    simp [Server.delChannel]
  · simp [Server.delChannel, set_loop_of_ne hv]

@[simp] theorem delChannel_batch : ((s.delChannel k fd).loop v).batch = (s.loop v).batch := by
  by_cases hv : v = .sub k
  · subst hv
    simp [Server.delChannel]
  · simp [Server.delChannel, set_loop_of_ne hv]

theorem delChannel_registered (f : Nat) : ((s.delChannel k fd).loop v).registered f =
    if v = .sub k ∧ f = fd then none else (s.loop v).registered f := by
  by_cases hv : v = .sub k
  · subst hv
    simp [Server.delChannel, Function.update_apply]
  · simp [Server.delChannel, set_loop_of_ne hv, hv]

@[simp] theorem close_batch (c : Nat) : ((s.close fd c).loop v).batch = (s.loop v).batch := rfl
@[simp] theorem close_pc (c : Nat) : ((s.close fd c).loop v).pc = (s.loop v).pc := rfl

theorem close_registered (c f : Nat) :
    ((s.close fd c).loop v).registered f = if f = fd then none else (s.loop v).registered f :=
  Function.update_apply _ _ _ _

end Epoll

/-- Where `Channel::HandleRead` goes. -/
def callback (s : Server) (e : Event) : Pc :=
  match s.objects.cell e.ptr with
  | none => .dangling
  | some (.acceptor _) => if e.events.epollin then .handleAccept else .next
  | some (.connection _ _ _) => if e.events.epollin then .handleRead e.ptr else .next

theorem dispatch_nil (hb : (s.loop w).batch = []) : s.dispatch w = s.goto w .wait := by
  simp [Server.dispatch, hb]

theorem dispatch_cons {e : Event} {rest : List Event} (hb : (s.loop w).batch = e :: rest) :
    s.dispatch w = { (s.set w { s.loop w with batch := rest }).goto w (callback s e) with
      dispatched := s.dispatched ++ [⟨w, e.target, s.objects.cell e.ptr⟩] } := by
  simp only [Server.dispatch, hb, set_goto]
  rfl

/-! ## Steps -/

inductive Moves (s : Server) : Server → Prop where
  | wait {w : Who} {events : List Event} (hpc : (s.loop w).pc = .wait) (hr : s.reportable w events = true) :
      Moves s (s.set w { s.loop w with batch := events, pc := .next })
  | dispatch {w : Who} (hpc : (s.loop w).pc = .next) : Moves s (s.dispatch w)
  | accept {fd : Nat} (hpc : (s.loop .main).pc = .handleAccept) (hfree : s.free fd = true) :
      Moves s ({ s with process := s.process.accept fd }.goto .main (.newConnection fd s.process.table.next))
  | acceptFails (hpc : (s.loop .main).pc = .handleAccept) : Moves s (s.goto .main .next)
  | newConnection {fd c : Nat} {a : Addr} {t : Server} (hpc : (s.loop .main).pc = .newConnection fd c)
      (hnew : s.newConnection fd c a = some t) : Moves s t
  | addChannel {this : Addr} (hpc : (s.loop .main).pc = .addChannel this) (ok : Bool) :
      Moves s (s.method .main this fun fd conn k =>
        (if ok then s.addChannel k fd this else { s with refused := s.refused ++ [conn] }).goto .main .handleAccept)
  | recv {w : Who} {this : Addr} (hpc : (s.loop w).pc = .handleRead this) (chunk : List UInt8) :
      Moves s (s.handleRead w this chunk)
  | delChannel {w : Who} {this : Addr} (hpc : (s.loop w).pc = .delChannel this) :
      Moves s (s.method w this fun fd _ k => (s.delChannel k fd).goto w (.close this))
  | close {w : Who} {this : Addr} (hpc : (s.loop w).pc = .close this) :
      Moves s (s.method w this fun fd conn _ => (s.close fd conn).goto w (.free this))
  | free {w : Who} {this : Addr} (hpc : (s.loop w).pc = .free this) : Moves s (s.delete w this)

theorem step_inv {act : Action} (h : step s act = some s') : Moves s s' := by
  cases act with
  | wait w events =>
    simp only [step] at h
    split at h
    · split at h
      · cases h
        exact .wait ‹_› rfl
      · split at h <;> cases h
        exact .wait ‹_› ‹_›
      · cases h
    · cases h
  | dispatch w =>
    simp only [step] at h
    split at h <;> cases h
    exact .dispatch ‹_›
  | accept clientFd =>
    simp only [step] at h
    split at h
    · split at h <;> cases h
      exact .accept ‹_› ‹_›
    · cases h
  | acceptFails =>
    simp only [step] at h
    split at h <;> cases h
    exact .acceptFails ‹_›
  | newConnection b =>
    simp only [step] at h
    split at h
    · exact .newConnection ‹_› h
    · cases h
  | addChannel ok =>
    simp only [step] at h
    split at h <;> cases h
    exact .addChannel ‹_› ok
  | recv w chunk =>
    simp only [step] at h
    split at h
    · split at h <;> cases h
      exact .recv ‹_› chunk
    · cases h
  | delChannel w =>
    simp only [step] at h
    split at h <;> cases h
    exact .delChannel ‹_›
  | close w =>
    simp only [step] at h
    split at h <;> cases h
    exact .close ‹_›
  | free w =>
    simp only [step] at h
    split at h <;> cases h
    exact .free ‹_›

/-! ## What the threads have in their hands -/

/-- The thread whose loop calls the object back. -/
def Object.who : Object → Who
  | .acceptor _ => .main
  | .connection _ _ k => .sub k

/-- The connection that the thread is in a callback of. -/
def Pc.held : Pc → Option Addr
  | .handleRead this | .delChannel this | .close this | .free this => some this
  | _ => none

/-- The connection that the thread is taking away. -/
def Pc.leaving : Pc → Option Addr
  | .delChannel this | .close this | .free this => some this
  | _ => none

/-- The thread has nothing in its hands that would be lost. -/
def Pc.light : Pc → Bool
  | .wait | .next | .handleAccept | .handleRead _ => true
  | _ => false

/-- What the number `fd` in the epoll of the thread `w` points to. -/
def Watched (s : Server) (w : Who) (fd : Nat) (a : Addr) : Prop :=
  (w = .main ∧ fd = s.listenFd ∧ s.objects.cell a = some (.acceptor fd)) ∨
    ∃ c k, w = .sub k ∧ s.objects.cell a = some (.connection fd c k) ∧ s.process.table.conn fd = some c

/-- What the thread of the sub-reactor `k` has in its hands. -/
def SubAt (s : Server) (k : Nat) : Pc → Prop
  | .wait | .next => True
  | .handleRead this | .delChannel this | .close this =>
    ∃ fd c, s.objects.cell this = some (.connection fd c k) ∧ s.process.table.conn fd = some c ∧
      fd ∉ (s.loop (.sub k)).batch.map Event.fd
  | .free this => ∃ fd c, s.objects.cell this = some (.connection fd c k) ∧ Gone s.process.table c
  | _ => False

/-- What the main thread has in its hands: a connection without an object, or an object that nobody knows. -/
def MainAt (s : Server) : Pc → Prop
  | .wait | .next | .handleAccept => True
  | .newConnection fd c =>
    s.process.table.conn fd = some c ∧ ∀ a f k, s.objects.cell a ≠ some (.connection f c k)
  | .addChannel this =>
    ∃ fd c k, s.objects.cell this = some (.connection fd c k) ∧ s.process.table.conn fd = some c ∧
      (∀ w, (s.loop w).registered fd = none) ∧ ∀ j, (s.loop (.sub j)).pc.held ≠ some this
  | _ => False

/-- The thread of a sub-reactor stays where it is, while others move. -/
theorem SubAt.frame (h : SubAt s k pc) (hbatch : (s'.loop (.sub k)).batch = (s.loop (.sub k)).batch)
    (hcell : ∀ a fd c, pc.held = some a → s.objects.cell a = some (.connection fd c k) →
      s'.objects.cell a = some (.connection fd c k))
    (hopen : ∀ a fd c, pc.held = some a → s.objects.cell a = some (.connection fd c k) →
      s.process.table.conn fd = some c → s'.process.table.conn fd = some c)
    (hgone : ∀ c, Gone s.process.table c → Gone s'.process.table c) : SubAt s' k pc := by
  have hbusy : ∀ a, pc.held = some a →
      (∃ fd c, s.objects.cell a = some (.connection fd c k) ∧ s.process.table.conn fd = some c ∧
        fd ∉ (s.loop (.sub k)).batch.map Event.fd) →
      ∃ fd c, s'.objects.cell a = some (.connection fd c k) ∧ s'.process.table.conn fd = some c ∧
        fd ∉ (s'.loop (.sub k)).batch.map Event.fd := by
    rintro a ha ⟨fd, c, hthis, hc, hnot⟩
    refine ⟨fd, c, hcell a fd c ha hthis, hopen a fd c ha hthis hc, ?_⟩
    rw [hbatch]
    exact hnot
  cases pc with
  | wait => trivial
  | next => trivial
  | handleRead a => exact hbusy a rfl h
  | delChannel a => exact hbusy a rfl h
  | close a => exact hbusy a rfl h
  | free a =>
    obtain ⟨fd, c, hthis, hg⟩ := h
    exact ⟨fd, c, hcell a fd c rfl hthis, hgone c hg⟩
  | handleAccept => exact h
  | newConnection fd c => exact h
  | addChannel a => exact h
  | dangling => exact h

/-- The main thread stays where it is, while others move. -/
theorem MainAt.frame (h : MainAt s pc)
    (hnew : ∀ fd c, s.process.table.conn fd = some c → (∀ a f k, s.objects.cell a ≠ some (.connection f c k)) →
      s'.process.table.conn fd = some c ∧ ∀ a f k, s'.objects.cell a ≠ some (.connection f c k))
    (hadd : ∀ a fd c k, pc = .addChannel a → s.objects.cell a = some (.connection fd c k) →
      s.process.table.conn fd = some c →
      s'.objects.cell a = some (.connection fd c k) ∧ s'.process.table.conn fd = some c)
    (hreg : ∀ w fd, (s.loop w).registered fd = none → (s'.loop w).registered fd = none)
    (hheld : ∀ j a, pc = .addChannel a → (s'.loop (.sub j)).pc.held = some a →
      (s.loop (.sub j)).pc.held = some a) : MainAt s' pc := by
  cases pc with
  | newConnection fd c => exact hnew fd c h.1 h.2
  | addChannel a =>
    obtain ⟨fd, c, k, hthis, hopen, hnone, hother⟩ := h
    obtain ⟨hthis', hopen'⟩ := hadd a fd c k rfl hthis hopen
    exact ⟨fd, c, k, hthis', hopen', fun w => hreg w fd (hnone w), fun j hj => hother j (hheld j a rfl hj)⟩
  | _ => exact h

/-- The objects and the open numbers stay as they are, too. -/
theorem SubAt.same (h : SubAt s k pc) (hobjects : s'.objects = s.objects) (htable : s'.process.table = s.process.table)
    (hbatch : (s'.loop (.sub k)).batch = (s.loop (.sub k)).batch) : SubAt s' k pc := by
  apply h.frame hbatch
  · intro a fd c _ ho
    rw [hobjects]
    exact ho
  · intro a fd c _ _ hopen
    rw [htable]
    exact hopen
  · intro c hg
    rw [htable]
    exact hg

theorem MainAt.same (h : MainAt s pc) (hobjects : s'.objects = s.objects) (htable : s'.process.table = s.process.table)
    (hreg : ∀ w fd, (s.loop w).registered fd = none → (s'.loop w).registered fd = none)
    (hheld : ∀ j a, pc = .addChannel a → (s'.loop (.sub j)).pc.held = some a →
      (s.loop (.sub j)).pc.held = some a) : MainAt s' pc := by
  refine h.frame ?_ ?_ hreg hheld
  · intro fd c hopen hno
    rw [htable, hobjects]
    exact ⟨hopen, hno⟩
  · intro a fd c k _ ho hopen
    rw [htable, hobjects]
    exact ⟨ho, hopen⟩

theorem SubAt.held (h : SubAt s k pc) (ha : pc.held = some a) :
    ∃ fd c, s.objects.cell a = some (.connection fd c k) := by
  cases pc with
  | free b =>
    cases ha
    obtain ⟨fd, c, hcell, -⟩ := h
    exact ⟨fd, c, hcell⟩
  | _ =>
    first
    | cases ha
      obtain ⟨fd, c, hcell, -⟩ := h
      exact ⟨fd, c, hcell⟩
    | cases ha

theorem MainAt.not_held (h : MainAt s pc) : pc.held = none := by
  cases pc with
  | handleRead b => exact False.elim h
  | delChannel b => exact False.elim h
  | close b => exact False.elim h
  | free b => exact False.elim h
  | _ => rfl

end CppBackend.MultiReactor
