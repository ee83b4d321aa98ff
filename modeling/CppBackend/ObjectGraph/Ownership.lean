import CppBackend.ObjectGraph.Model
import CppBackend.SharedPtr.Ownership

/-!
# Ownership among unique and shared handles

`Owned heap waiting hs` relates the heap to the live handles `hs`, in any order, wherever they are
stored: an object is alive exactly if some handle holds it, a handle of `unique_ptr` is the only
holder of its object, and a counter is the number of the handles that refer to it.  The counters in
`waiting` are at their end: nothing refers to them, and a `release` that is still going on is about to
delete them.

A handle goes in one of four ways: it was null (`drop_null`), it was unique (`drop_unique`), it was
one of several sharers (`drop_sharer`), it was the last one (`drop_last`, then `counter_gone`).
-/

set_option autoImplicit false

namespace CppBackend.ObjectGraph

open Library.Storage Library.Keyed

abbrev Heaps := SharedPtr.Memory (List Slot)

/-- How many of the handles refer to the counter `c`. -/
def sharers (c : Addr) (hs : List Handle) : Nat := keyed Handle.sharedCount c hs

/-- How many of the handles hold the object at `a`. -/
def holders (a : Addr) (hs : List Handle) : Nat := keyed Handle.ptr a hs

structure Owned (heap : Heaps) (waiting : List Addr) (hs : List Handle) : Prop where
  small : hs.length < 2 ^ 64
  nodup : waiting.Nodup
  count : ∀ c, c ∉ waiting → heap.counts.cell c =
    if sharers c hs = 0 then none else some (UInt64.ofNat (sharers c hs))
  ended : ∀ c ∈ waiting, sharers c hs = 0 ∧ (heap.counts.cell c).isSome = true
  paired : ∀ h ∈ hs, h.kind = .shared → (h.ptr = none ↔ h.sharedCount = none)
  linked : ∀ h ∈ hs, ∀ h' ∈ hs, ∀ a, h.ptr = some a → h'.ptr = some a →
    h.sharedCount = h'.sharedCount
  counter : ∀ h ∈ hs, ∀ h' ∈ hs, ∀ c, h.sharedCount = some c → h'.sharedCount = some c →
    h.ptr = h'.ptr
  sole : ∀ h ∈ hs, h.sharedCount = none → ∀ a, h.ptr = some a → holders a hs = 1
  object : ∀ a, (heap.objects.cell a).isSome = true ↔ 0 < holders a hs

variable {heap heap' : Heaps} {waiting : List Addr} {hs hs' : List Handle} {h : Handle} {a c : Addr}

theorem sharers_cons (c : Addr) (h : Handle) (hs : List Handle) :
    sharers c (h :: hs) = sharers c hs + if h.sharedCount = some c then 1 else 0 :=
  keyed_cons _ c h hs

theorem holders_cons (a : Addr) (h : Handle) (hs : List Handle) :
    holders a (h :: hs) = holders a hs + if h.ptr = some a then 1 else 0 :=
  keyed_cons _ a h hs

theorem sharers_pos : 0 < sharers c hs ↔ ∃ h ∈ hs, h.sharedCount = some c := keyed_pos

theorem holders_pos : 0 < holders a hs ↔ ∃ h ∈ hs, h.ptr = some a := keyed_pos

theorem sharers_le_length (c : Addr) (hs : List Handle) : sharers c hs ≤ hs.length :=
  keyed_le_length _ c hs

/-- The counter at `c`, when `n` handles refer to it: it has their number, or it waits for its end. -/
def Counts (cell : Addr → Option UInt64) (waiting : List Addr) (c : Addr) (n : Nat) : Prop :=
  (c ∉ waiting → SharedPtr.Counts cell c n) ∧ (c ∈ waiting → n = 0 ∧ (cell c).isSome = true)

theorem Counts.update {cell : Addr → Option UInt64} {o : Option UInt64} (d : Addr) (n : Nat) (hd : d ≠ c)
    (h : Counts cell waiting d n) : Counts (Function.update cell c o) waiting d n := by
  refine ⟨fun hw => (h.1 hw).update d n hd, fun hw => ?_⟩
  rw [Function.update_of_ne hd]
  exact h.2 hw

/-- The object at `a`, when `n` handles hold it. -/
def Alive (cell : Addr → Option (List Slot)) (a : Addr) (n : Nat) : Prop := (cell a).isSome = true ↔ 0 < n

theorem Alive.update {cell : Addr → Option (List Slot)} {o : Option (List Slot)} (b : Addr) (n : Nat)
    (hb : b ≠ a) (h : Alive cell b n) : Alive (Function.update cell a o) b n := by
  unfold Alive
  rw [Function.update_of_ne hb]
  exact h

theorem Owned.counters (ho : Owned heap waiting hs) :
    Census Handle.sharedCount (Counts heap.counts.cell waiting) hs := fun c => ⟨ho.count c, ho.ended c⟩

theorem Owned.objects (ho : Owned heap waiting hs) : Census Handle.ptr (Alive heap.objects.cell) hs :=
  ho.object

/-- The order of the handles does not matter. -/
theorem Owned.perm (ho : Owned heap waiting hs) (hp : hs.Perm hs') : Owned heap waiting hs' := by
  refine ⟨by rw [← hp.length_eq]; exact ho.small, ho.nodup, fun c => (ho.counters.perm hp c).1,
    fun c => (ho.counters.perm hp c).2, fun h hm => ho.paired h (hp.mem_iff.mpr hm),
    forall_pairs_perm hp ho.linked, forall_pairs_perm hp ho.counter, ?_, ho.objects.perm hp⟩
  intro h hm hn a ha
  have hone := ho.sole h (hp.mem_iff.mpr hm) hn a ha
  unfold holders at hone ⊢
  rw [← keyed_perm hp]
  exact hone

/-- The counter of a live handle. -/
theorem Owned.count_of_mem (ho : Owned heap waiting hs) (hm : h ∈ hs)
    (hc : h.sharedCount = some c) :
    c ∉ waiting ∧ heap.counts.cell c = some (UInt64.ofNat (sharers c hs)) := by
  have hpos : 0 < sharers c hs := sharers_pos.mpr ⟨h, hm, hc⟩
  have hnot : c ∉ waiting := by
    intro hw
    have := (ho.ended c hw).1
    omega
  exact ⟨hnot, by rw [ho.count c hnot, if_neg (Nat.ne_of_gt hpos)]⟩

/-- The object of a live handle. -/
theorem Owned.alive (ho : Owned heap waiting hs) (hm : h ∈ hs) (hp : h.ptr = some a) :
    (heap.objects.cell a).isSome = true :=
  (ho.object a).mpr (holders_pos.mpr ⟨h, hm, hp⟩)

/-- A counter that nothing refers to is waiting, if it is still there. -/
theorem Owned.waiting_of_some (ho : Owned heap waiting hs) (hz : sharers c hs = 0)
    (hc : (heap.counts.cell c).isSome = true) : c ∈ waiting := by
  by_contra hnot
  rw [ho.count c hnot, if_pos hz] at hc
  cases hc

/-! ## One handle less -/

/-- A handle goes, and the heap is changed so that counters and objects fit again. -/
theorem Owned.drop {waiting' : List Addr} (ho : Owned heap waiting (h :: hs))
    (hnodup : waiting'.Nodup)
    (hcounters : Census Handle.sharedCount (Counts heap'.counts.cell waiting') hs)
    (hobjects : Census Handle.ptr (Alive heap'.objects.cell) hs) : Owned heap' waiting' hs := by
  refine ⟨?_, hnodup, fun c => (hcounters c).1, fun c => (hcounters c).2,
    fun x hx => ho.paired x (.tail _ hx), fun x hx y hy => ho.linked x (.tail _ hx) y (.tail _ hy),
    fun x hx y hy => ho.counter x (.tail _ hx) y (.tail _ hy), ?_, hobjects⟩
  · have := ho.small
    rw [List.length_cons] at this
    omega
  · intro x hx hn a ha
    have hone := ho.sole x (.tail _ hx) hn a ha
    have hpos : 0 < holders a hs := holders_pos.mpr ⟨x, hx, ha⟩
    rw [holders_cons] at hone
    omega

theorem Owned.drop_null (ho : Owned heap waiting (h :: hs)) (hp : h.ptr = none)
    (hc : h.sharedCount = none) : Owned heap waiting hs :=
  ho.drop ho.nodup ((census_cons_none hc).mp ho.counters) ((census_cons_none hp).mp ho.objects)

/-- The objects of the other handles, when `h` was the only holder of its object. -/
theorem Owned.objects_without (ho : Owned heap waiting (h :: hs)) (hp : h.ptr = some a)
    (hz : holders a hs = 0)
    (hobj : heap'.objects.cell = Function.update heap.objects.cell a none) :
    Census Handle.ptr (Alive heap'.objects.cell) hs := by
  rw [hobj]
  refine ho.objects.leave hp Alive.update ?_
  show (Function.update heap.objects.cell a none a).isSome = true ↔ 0 < holders a hs
  rw [Function.update_self, hz]
  simp

/-- The holder of a unique handle lets go: the object is deleted. -/
theorem Owned.drop_unique (ho : Owned heap waiting (h :: hs)) (hp : h.ptr = some a)
    (hc : h.sharedCount = none) (hcounts : heap'.counts = heap.counts)
    (hobj : heap'.objects.cell = Function.update heap.objects.cell a none) :
    Owned heap' waiting hs ∧ holders a hs = 0 := by
  have hz : holders a hs = 0 := by
    have := ho.sole h List.mem_cons_self hc a hp
    rw [holders_cons, if_pos hp] at this
    omega
  refine ⟨ho.drop ho.nodup ?_ (ho.objects_without hp hz hobj), hz⟩
  rw [hcounts]
  exact (census_cons_none hc).mp ho.counters

/-- One of several sharers lets go. -/
theorem Owned.drop_sharer (ho : Owned heap waiting (h :: hs)) (hc : h.sharedCount = some c)
    (hk : 0 < sharers c hs) (hobj : heap'.objects = heap.objects)
    (hcell : heap'.counts.cell =
      Function.update heap.counts.cell c (some (UInt64.ofNat (sharers c hs)))) :
    Owned heap' waiting hs := by
  have hnot := (ho.count_of_mem List.mem_cons_self hc).1
  refine ho.drop ho.nodup ?_ fun a => ?_
  · rw [hcell]
    refine ho.counters.leave hc Counts.update ⟨fun _ => ?_, fun hw => absurd hw hnot⟩
    show Function.update heap.counts.cell c _ c =
      if sharers c hs = 0 then none else some (UInt64.ofNat (sharers c hs))
    rw [Function.update_self, if_neg (Nat.ne_of_gt hk)]
  · show (heap'.objects.cell a).isSome = true ↔ 0 < holders a hs
    rw [hobj, ho.object a, holders_cons]
    -- the object of the handle is that of another sharer
    obtain ⟨g, hg, hgc⟩ := sharers_pos.mp hk
    have hsame : h.ptr = g.ptr :=
      ho.counter h List.mem_cons_self g (.tail _ hg) c hc hgc
    by_cases hp : h.ptr = some a
    · have hpos : 0 < holders a hs := holders_pos.mpr ⟨g, hg, hsame ▸ hp⟩
      omega
    · simp [hp]

/-- The last sharer lets go: the object is deleted, and the counter waits for its end. -/
theorem Owned.drop_last (ho : Owned heap waiting (h :: hs)) (hc : h.sharedCount = some c)
    (hk : sharers c hs = 0) (hp : h.ptr = some a)
    (hobj : heap'.objects.cell = Function.update heap.objects.cell a none)
    (hcell : heap'.counts.cell =
      Function.update heap.counts.cell c (some (UInt64.ofNat (sharers c hs)))) :
    Owned heap' (c :: waiting) hs ∧ holders a hs = 0 := by
  have hnot := (ho.count_of_mem List.mem_cons_self hc).1
  have hz : holders a hs = 0 := by
    by_contra hne
    obtain ⟨g, hg, hgp⟩ := holders_pos.mp (Nat.pos_of_ne_zero hne)
    have hgc := ho.linked h List.mem_cons_self g (.tail _ hg) a hp hgp
    have : 0 < sharers c hs := sharers_pos.mpr ⟨g, hg, hgc ▸ hc⟩
    omega
  refine ⟨ho.drop (List.nodup_cons.mpr ⟨hnot, ho.nodup⟩) ?_ (ho.objects_without hp hz hobj), hz⟩
  rw [hcell]
  refine ho.counters.leave hc (fun d n hd hn => ?_) ⟨fun hw => absurd List.mem_cons_self hw, fun _ => ?_⟩
  · have hmem : d ∈ c :: waiting ↔ d ∈ waiting := by simp [hd]
    rw [Counts, hmem]
    exact hn.update d n hd
  · rw [Function.update_self]
    exact ⟨hk, rfl⟩

/-- The counter that was waiting is deleted. -/
theorem Owned.counter_gone (ho : Owned heap (c :: waiting) hs) (hobj : heap'.objects = heap.objects)
    (hcell : heap'.counts.cell = Function.update heap.counts.cell c none) :
    Owned heap' waiting hs := by
  obtain ⟨hnot, hnodup⟩ := List.nodup_cons.mp ho.nodup
  refine ⟨ho.small, hnodup, fun d hw => ?_, fun d hw => ?_, ho.paired, ho.linked, ho.counter, ho.sole,
    fun a => ?_⟩
  · rw [hcell]
    by_cases hd : d = c
    · subst hd
      rw [Function.update_self, if_pos (ho.ended d List.mem_cons_self).1]
    · rw [Function.update_of_ne hd]
      exact ho.count d (by simp [hd, hw])
  · have hd : d ≠ c := by
      rintro rfl
      exact hnot hw
    rw [hcell, Function.update_of_ne hd]
    exact ho.ended d (.tail _ hw)
  · rw [hobj]
    exact ho.object a

/-- A counter that waits for its end may have any value. -/
theorem Owned.counter_set {n : UInt64} (ho : Owned heap waiting hs) (hw : c ∈ waiting)
    (hobj : heap'.objects = heap.objects)
    (hcell : heap'.counts.cell = Function.update heap.counts.cell c (some n)) :
    Owned heap' waiting hs := by
  refine ⟨ho.small, ho.nodup, fun d hd => ?_, fun d hd => ?_, ho.paired, ho.linked, ho.counter,
    ho.sole, fun a => ?_⟩
  · rw [hcell, Function.update_of_ne]
    · exact ho.count d hd
    · rintro rfl
      exact hd hw
  · rw [hcell]
    refine ⟨(ho.ended d hd).1, ?_⟩
    by_cases he : d = c
    · subst he
      rw [Function.update_self]
      rfl
    · rw [Function.update_of_ne he]
      exact (ho.ended d hd).2
  · rw [hobj]
    exact ho.object a

/-! ## One handle more -/

theorem Owned.add_null (ho : Owned heap waiting hs) (hlen : hs.length + 1 < 2 ^ 64) (k : Kind) :
    Owned heap waiting (.null k :: hs) := by
  have hp : (Handle.null k).ptr = none := by cases k <;> rfl
  have hc : (Handle.null k).sharedCount = none := by cases k <;> rfl
  have hcounters := (census_cons_none hc).mpr ho.counters
  have hobjects := (census_cons_none hp).mpr ho.objects
  refine ⟨hlen, ho.nodup, fun c => (hcounters c).1, fun c => (hcounters c).2, ?_, ?_, ?_, ?_, hobjects⟩
  · rw [List.forall_mem_cons]
    exact ⟨fun _ => by rw [hp, hc], ho.paired⟩
  · refine forall_pairs_cons (fun x y hxy a hy hx => (hxy a hx hy).symm) (fun _ _ _ => rfl)
      (fun x _ a ha _ => ?_) ho.linked
    rw [hp] at ha
    cases ha
  · refine forall_pairs_cons (fun x y hxy c hy hx => (hxy c hx hy).symm) (fun _ _ _ => rfl)
      (fun x _ c hx _ => ?_) ho.counter
    rw [hc] at hx
    cases hx
  · intro x hx hn a hxa
    rcases List.mem_cons.mp hx with rfl | hx
    · rw [hp] at hxa
      cases hxa
    · have hne : (Handle.null k).ptr ≠ some a := by
        rw [hp]
        exact nofun
      rw [holders_cons, if_neg hne]
      exact ho.sole x hx hn a hxa

/-- One more sharer of the object of `h`. -/
theorem Owned.add_sharer (ho : Owned heap waiting hs) (hlen : hs.length + 1 < 2 ^ 64) (hm : h ∈ hs)
    (hc : h.sharedCount = some c) (hobj : heap'.objects = heap.objects)
    (hcell : heap'.counts.cell =
      Function.update heap.counts.cell c (some (UInt64.ofNat (sharers c hs) + 1))) :
    Owned heap' waiting (h :: hs) := by
  have hmem : ∀ x, x ∈ h :: hs → x ∈ hs := by
    intro x hx
    rcases List.mem_cons.mp hx with rfl | hx
    · exact hm
    · exact hx
  have hnot := (ho.count_of_mem hm hc).1
  have hcounters : Census Handle.sharedCount (Counts heap'.counts.cell waiting) (h :: hs) := by
    rw [hcell]
    refine ho.counters.join hc Counts.update ⟨fun _ => ?_, fun hw => absurd hw hnot⟩
    show Function.update heap.counts.cell c _ c =
      if sharers c hs + 1 = 0 then none else some (UInt64.ofNat (sharers c hs + 1))
    rw [Function.update_self, if_neg (Nat.succ_ne_zero _), UInt64.ofNat_add]
    rfl
  refine ⟨hlen, ho.nodup, fun d => (hcounters d).1, fun d => (hcounters d).2,
    fun x hx => ho.paired x (hmem x hx), fun x hx y hy => ho.linked x (hmem x hx) y (hmem y hy),
    fun x hx y hy => ho.counter x (hmem x hx) y (hmem y hy), ?_, fun a => ?_⟩
  · intro x hx hn a hxa
    have hone := ho.sole x (hmem x hx) hn a hxa
    rw [holders_cons, if_neg, hone]
    intro hha
    have := ho.linked x (hmem x hx) h hm a hxa hha
    rw [hn, hc] at this
    cases this
  · rw [hobj, ho.object a, holders_cons]
    by_cases hp : h.ptr = some a
    · have hpos : 0 < holders a hs := holders_pos.mpr ⟨h, hm, hp⟩
      omega
    · simp [hp]

/-- **The first holder** of a new object; a shared one comes with a counter of its own. -/
theorem Owned.add_first (ho : Owned heap waiting hs) (hlen : hs.length + 1 < 2 ^ 64)
    (ha : heap.objects.cell a = none) (hp : h.ptr = some a)
    (hk : h.kind = .shared → h.sharedCount ≠ none)
    (hobj : ∀ b, (heap'.objects.cell b).isSome = true ↔ b = a ∨ (heap.objects.cell b).isSome = true)
    (hnew : ∀ c, h.sharedCount = some c → heap.counts.cell c = none)
    (hcounts : ∀ c, heap'.counts.cell c =
      if h.sharedCount = some c then some 1 else heap.counts.cell c) :
    Owned heap' waiting (h :: hs) := by
  have hnohold : holders a hs = 0 := by
    by_contra hne
    have := (ho.object a).mpr (Nat.pos_of_ne_zero hne)
    rw [ha] at this
    cases this
  have hnop : ∀ x ∈ hs, x.ptr ≠ some a := by
    intro x hx hxa
    have : 0 < holders a hs := holders_pos.mpr ⟨x, hx, hxa⟩
    omega
  have hnoc : ∀ x ∈ hs, ∀ c, h.sharedCount = some c → x.sharedCount ≠ some c := by
    intro x hx c hc hxc
    have := (ho.count_of_mem hx hxc).2
    rw [hnew c hc] at this
    cases this
  refine ⟨hlen, ho.nodup, fun c hw => ?_, fun c hw => ?_, ?_, ?_, ?_, ?_, fun b => ?_⟩
  · rw [hcounts, sharers_cons]
    by_cases hc : h.sharedCount = some c
    · have hz : sharers c hs = 0 := by
        by_contra hne
        obtain ⟨x, hx, hxc⟩ := sharers_pos.mp (Nat.pos_of_ne_zero hne)
        exact hnoc x hx c hc hxc
      simp [hc, hz]
    · rw [if_neg hc, if_neg hc]
      exact ho.count c hw
  · have hc : ¬ h.sharedCount = some c := by
      intro hc
      have := (ho.ended c hw).2
      rw [hnew c hc] at this
      cases this
    rw [hcounts, sharers_cons, if_neg hc, if_neg hc]
    exact ho.ended c hw
  · rw [List.forall_mem_cons]
    refine ⟨fun hs => ?_, ho.paired⟩
    simp [hp, hk hs]
  · refine forall_pairs_cons (fun x y hxy b hy hx => (hxy b hx hy).symm) (fun _ _ _ => rfl)
      (fun x hx b hb hxb => ?_) ho.linked
    rw [hp] at hb
    exact absurd (hxb.trans hb.symm) (hnop x hx)
  · refine forall_pairs_cons (fun x y hxy c hy hx => (hxy c hx hy).symm) (fun _ _ _ => rfl)
      (fun x hx c hc hxc => ?_) ho.counter
    exact absurd hxc (hnoc x hx c hc)
  · intro x hx hn b hxb
    rw [holders_cons]
    rcases List.mem_cons.mp hx with rfl | hx
    · rw [if_pos hxb]
      rw [hp] at hxb
      cases hxb
      rw [hnohold]
    · have hne : b ≠ a := by
        rintro rfl
        exact hnop x hx hxb
      rw [hp, if_neg (fun he => hne (Option.some.inj he).symm)]
      exact ho.sole x hx hn b hxb
  · rw [hobj, ho.object b, holders_cons, hp]
    by_cases hb : b = a
    · simp [hb]
    · simp [hb, Ne.symm hb]

end CppBackend.ObjectGraph
