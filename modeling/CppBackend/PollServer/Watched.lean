import CppBackend.PollServer.Table

/-!
# What the poll server watches

The entries that `resize` makes have the number 0, and nobody clears them: `poll` watches descriptor 0
through them for errors and a hang-up.  Only where `server_fd` is 0 itself are all entries the
server's own.
-/

set_option autoImplicit false

namespace CppBackend.PollServer

open Library.Descriptors Library.Poll Library.Transition

/-- Every entry in the range of `poll` is cleared, or has a descriptor of the server. -/
def OwnPolled (s : Server) : Prop := ∀ i ≤ s.maxFd, ∀ e, s.fds[i]? = some e →
  e.fd = -1 ∨ e.fd = s.serverFd ∨ ∃ f ∈ s.clientFds, e.fd = f

/-- Every number in the range has had an entry of its own. -/
def AllSet (s : Server) : Prop := ∀ i ≤ s.maxFd, i = s.serverFd ∨ i ∈ s.ever

variable {s s' : Server}

theorem Inv.ownPolled_iff (hi : Inv s) :
    OwnPolled s ↔ AllSet s ∨ s.serverFd = 0 ∨ 0 ∈ s.clientFds := by
  have hsize := hi.size
  constructor
  · intro hown
    by_cases hset : AllSet s
    · exact Or.inl hset
    · right
      simp only [AllSet, not_forall, not_or] at hset
      obtain ⟨i, hle, hne, hever⟩ := hset
      obtain ⟨e, he, hentry⟩ := hi.get (show i < s.fds.length by omega)
      have hzero := (hentry.unset hever hne).1
      rcases hown i hle e he with h | h | ⟨f, hf, h⟩
      · omega
      · exact Or.inl (by omega)
      · have hf0 : f = 0 := by omega
        exact Or.inr (hf0 ▸ hf)
  · intro h i hle e he
    have hentry := hi.entry i e he
    by_cases howned : i ∈ s.clientFds ∨ i = s.serverFd
    · have hfd := (hentry.owned howned).1
      rcases howned with hc | rfl
      · exact Or.inr (Or.inr ⟨i, hc, hfd⟩)
      · exact Or.inr (Or.inl hfd)
    · rw [not_or] at howned
      by_cases hever : i ∈ s.ever
      · exact Or.inl (hentry.ended hever howned.1).1
      · have hzero := (hentry.unset hever howned.2).1
        rcases h with h | h | h
        · exact absurd (h i hle) (by simp [hever, howned.2])
        · exact Or.inr (Or.inl (by omega))
        · exact Or.inr (Or.inr ⟨0, h, hzero⟩)

theorem reach_serverFd {serverFd : Nat} (hr : Reach anyStep step (init serverFd) s) :
    s.serverFd = serverFd :=
  hr.invariant (I := fun s => s.serverFd = serverFd) rfl fun _ _ _ hs h _ =>
    (serverFd_step h).trans hs

/-- **The poll server watches only its own descriptors** in all states of its runs exactly if its
listening socket is descriptor 0; and in one state exactly if every number in the range has had an entry
of its own, or descriptor 0 is the server's. -/
theorem polled_own_iff (serverFd : Nat) :
    ((∀ s, Reach anyStep step (init serverFd) s → OwnPolled s) ↔ serverFd = 0) ∧
    ∀ s, Reach anyStep step (init serverFd) s →
      (OwnPolled s ↔ AllSet s ∨ s.serverFd = 0 ∨ 0 ∈ s.clientFds) := by
  refine ⟨⟨fun h => ?_, fun h s hr => ?_⟩, fun s hr => (reach_inv hr).ownPolled_iff⟩
  · rcases (inv_init serverFd).ownPolled_iff.mp (h _ Reach.refl) with h | h | h
    · -- 0 has not been accepted before the first run
      exact ((h 0 (Nat.zero_le _)).resolve_right fun h => (nomatch h)).symm
    · exact h
    · exact (nomatch h)
  · exact (reach_inv hr).ownPolled_iff.mpr (Or.inr (Or.inl ((reach_serverFd hr).trans h)))

/-- Right after `init()` with the listening socket 3, `poll` is asked about descriptor 0 three times. -/
theorem polled_foreign : ∃ s : Server, Reach anyStep step (init 3) s ∧
    s.fds = [fresh, fresh, fresh, watching 3] ∧ ¬ OwnPolled s := by
  refine ⟨init 3, Reach.refl, rfl, fun h => ?_⟩
  rcases h 0 (Nat.zero_le _) fresh rfl with h | h | ⟨f, hf, _⟩
  · exact absurd h (by decide)
  · exact absurd h (by decide)
  · exact (nomatch hf)

theorem polled_own_iff_zero : ∃ s : Server, Reach anyStep step (init 0) s ∧ s.clientFds = {2} ∧
    OwnPolled s :=
  have hr : Reach anyStep step (init 0) ((exec step (init 0)
      [.test, .poll fun _ => .input, .scan, .accept (some 2)]).get rfl) := exec_reach_get _ rfl
  ⟨_, hr, rfl, ((polled_own_iff 0).2 _ hr).mpr (Or.inr (Or.inl rfl))⟩

end CppBackend.PollServer
