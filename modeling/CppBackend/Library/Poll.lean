import Mathlib.Data.List.Count

/-!
# `poll`

An entry of the array that `poll` is called with has a number, the events that are asked for, and
the events that were reported.  `poll` reports `POLLIN` only where it was asked for; errors, a hang-up
and a number that is not open are reported without being asked for; and nothing is reported for an
entry with a negative number.

* `report` — `poll` fills in the first entries of an array;
* `get_report` — it changes nothing but what is reported;
* `Pollfd.Sound` — `POLLIN` is only there if it was asked for.
-/

set_option autoImplicit false

namespace Library.Poll

/-- `POLLIN`, `POLLERR`, `POLLHUP` and `POLLNVAL`. -/
structure Flags where
  pollin : Bool
  pollerr : Bool
  pollhup : Bool
  pollnval : Bool
  deriving DecidableEq, Repr

/-- 0. -/
def Flags.none : Flags := ⟨false, false, false, false⟩

/-- `POLLIN`. -/
def Flags.input : Flags := ⟨true, false, false, false⟩

/-- Some flag is set. -/
def Flags.any (f : Flags) : Bool := f.pollin || f.pollerr || f.pollhup || f.pollnval

/-- `f & (POLLERR | POLLHUP | POLLNVAL)`. -/
def Flags.failed (f : Flags) : Bool := f.pollerr || f.pollhup || f.pollnval

/-- What `poll` reports of the state `mask` of a descriptor, when `events` are asked for. -/
def Flags.within (mask events : Flags) : Flags :=
  { mask with pollin := mask.pollin && events.pollin }

structure Pollfd where
  fd : Int
  events : Flags
  revents : Flags
  deriving DecidableEq, Repr

/-- What `poll` leaves in an entry, when `mask` is the state of the descriptor. -/
def Pollfd.report (e : Pollfd) (mask : Flags) : Pollfd :=
  { e with revents := if e.fd < 0 then .none else mask.within e.events }

/-- `poll` on the first `n` entries. -/
def report (n : Nat) (mask : Nat → Flags) (fds : List Pollfd) : List Pollfd :=
  fds.mapIdx fun i e => if i < n then e.report (mask i) else e

/-- What `poll` returns: the number of entries with something to report. -/
def count (n : Nat) (fds : List Pollfd) : Nat := (fds.take n).countP fun e => e.revents.any

/-- `POLLIN` is only there if it was asked for, and nothing is there under a negative number. -/
structure Pollfd.Sound (e : Pollfd) : Prop where
  asked : e.revents.pollin = true → e.events.pollin = true
  absent : e.fd < 0 → e.revents = .none

theorem Pollfd.report_sound (e : Pollfd) (mask : Flags) : (e.report mask).Sound := by
  by_cases h : e.fd < 0
  · exact ⟨by simp [Pollfd.report, h, Flags.none], by simp [Pollfd.report, h]⟩
  · refine ⟨by simp [Pollfd.report, Flags.within, h], fun hn => absurd hn h⟩

/-- An entry that has just been set. -/
theorem Pollfd.sound_set (fd : Int) (events : Flags) : (⟨fd, events, .none⟩ : Pollfd).Sound :=
  ⟨fun h => (nomatch h), fun _ => rfl⟩

@[simp] theorem report_length (n : Nat) (mask : Nat → Flags) (fds : List Pollfd) :
    (report n mask fds).length = fds.length := by
  simp [report]

variable {n i : Nat} {mask : Nat → Flags} {fds : List Pollfd} {e : Pollfd}

theorem get_report (h : (report n mask fds)[i]? = some e) : ∃ e₀, fds[i]? = some e₀ ∧
    e.fd = e₀.fd ∧ e.events = e₀.events ∧ (e₀.Sound → e.Sound) := by
  simp only [report, List.getElem?_mapIdx, Option.map_eq_some_iff] at h
  obtain ⟨e₀, h₀, rfl⟩ := h
  refine ⟨e₀, h₀, ?_⟩
  split
  · exact ⟨rfl, rfl, fun _ => Pollfd.report_sound e₀ (mask i)⟩
  · exact ⟨rfl, rfl, id⟩

end Library.Poll
