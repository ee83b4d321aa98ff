import CppBackend.SharedPtr.Model
import CppBackend.Library.Keyed
import Mathlib.Algebra.Group.Nat.Defs

/-!
# Ownership of counters and objects

`Owned mem fresh hs` relates the heap to the live handles `hs`, in any order: a counter is
allocated exactly if some handle refers to it, and its value is the number of those that do; two
handles share their counter exactly if they share their object; an object is allocated exactly
if the program still holds its raw pointer or some handle refers to it.

Each step of a member function is a change of the handles by one: `release_spec` takes one
away, `share_spec` adds a copy, `construct_spec` adds the first owner of an object; a
null handle may come and go (`Owned.add_null`).
-/

set_option autoImplicit false

namespace CppBackend.SharedPtr

open Library.Storage Library.Keyed

variable {T : Type}

def Handle.refersTo (c : Addr) (h : Handle) : Bool := h.sharedCount == some c

/-- How many of the handles refer to the counter `c`. -/
def sharers (c : Addr) (hs : List Handle) : Nat := hs.countP (Handle.refersTo c)

structure Owned (mem : Memory T) (fresh : List Addr) (hs : List Handle) : Prop where
  count : ∀ c, mem.counts.cell c =
    if sharers c hs = 0 then none else some (UInt64.ofNat (sharers c hs))
  paired : ∀ h ∈ hs, h.ptr = none ↔ h.sharedCount = none
  linked : ∀ h ∈ hs, ∀ h' ∈ hs, h.sharedCount = h'.sharedCount ↔ h.ptr = h'.ptr
  adopted : ∀ h ∈ hs, ∀ a, h.ptr = some a → a ∉ fresh
  object : ∀ a, (mem.objects.cell a).isSome = true ↔ a ∈ fresh ∨ ∃ h ∈ hs, h.ptr = some a

variable {mem : Memory T} {fresh : List Addr} {hs hs' : List Handle} {h : Handle} {c : Addr}

theorem sharers_cons_of_eq (hc : h.sharedCount = some c) (hs : List Handle) :
    sharers c (h :: hs) = sharers c hs + 1 := keyed_cons_of_eq hc

theorem sharers_le_length (c : Addr) (hs : List Handle) : sharers c hs ≤ hs.length :=
  keyed_le_length Handle.sharedCount c hs

theorem sharers_pos_iff : 0 < sharers c hs ↔ ∃ h ∈ hs, h.sharedCount = some c :=
  keyed_pos

theorem sharers_pos (hm : h ∈ hs) (hc : h.sharedCount = some c) : 0 < sharers c hs :=
  sharers_pos_iff.mpr ⟨h, hm, hc⟩

theorem exists_sharer (hpos : 0 < sharers c hs) : ∃ h ∈ hs, h.sharedCount = some c :=
  sharers_pos_iff.mp hpos

/-- The counter at `c`, when `n` handles refer to it. -/
def Counts (cell : Addr → Option UInt64) (c : Addr) (n : Nat) : Prop :=
  cell c = if n = 0 then none else some (UInt64.ofNat n)

theorem Counts.update {cell : Addr → Option UInt64} {o : Option UInt64} (d : Addr) (n : Nat) (hd : d ≠ c)
    (h : Counts cell d n) : Counts (Function.update cell c o) d n := by
  unfold Counts
  rw [Function.update_of_ne hd]
  exact h

theorem Owned.census (ho : Owned mem fresh hs) :
    Census Handle.sharedCount (Counts mem.counts.cell) hs := ho.count

/-- The order of the handles does not matter. -/
theorem Owned.perm (ho : Owned mem fresh hs) (hp : hs.Perm hs') : Owned mem fresh hs' where
  count := ho.census.perm hp
  paired h hm := ho.paired h (hp.mem_iff.mpr hm)
  linked := forall_pairs_perm hp ho.linked
  adopted h hm := ho.adopted h (hp.mem_iff.mpr hm)
  object a := by
    rw [ho.object a]
    simp only [hp.mem_iff]

/-- What two handles agree on is the same in both directions. -/
theorem linked_symm (h h' : Handle) (hl : h.sharedCount = h'.sharedCount ↔ h.ptr = h'.ptr) :
    h'.sharedCount = h.sharedCount ↔ h'.ptr = h.ptr := by
  rw [eq_comm, hl, eq_comm]

/-- A null handle owns nothing. -/
theorem Owned.add_null (ho : Owned mem fresh hs) : Owned mem fresh (.null :: hs) := by
  refine ⟨(census_cons_none rfl).mpr ho.census, ?_, ?_, ?_, ?_⟩
  · rw [List.forall_mem_cons]
    exact ⟨Iff.rfl, ho.paired⟩
  · refine forall_pairs_cons linked_symm Iff.rfl (fun h' hm' => ?_) ho.linked
    have := ho.paired h' hm'
    show none = _ ↔ none = _
    rw [eq_comm, ← this, eq_comm]
  · rw [List.forall_mem_cons]
    exact ⟨fun a ha => (nomatch ha), ho.adopted⟩
  · intro a
    rw [ho.object a, List.exists_mem_cons_iff]
    simp [Handle.null]

theorem Owned.count_of_mem (ho : Owned mem fresh hs) (hm : h ∈ hs) (hc : h.sharedCount = some c) :
    mem.counts.cell c = some (UInt64.ofNat (sharers c hs)) := by
  rw [ho.count c, if_neg (Nat.ne_of_gt (sharers_pos hm hc))]

theorem ofNat_eq_zero {k : Nat} (hk : k < 2 ^ 64) : UInt64.ofNat k = 0 ↔ k = 0 := by
  constructor
  · intro h
    have := congrArg UInt64.toNat h
    rw [UInt64.toNat_ofNat_of_lt' hk] at this
    exact this
  · rintro rfl
    rfl

/-! ## The operations on counters -/

theorem readCount_of_some {n : UInt64} (hc : mem.counts.cell c = some n) :
    mem.readCount c = .ok n := by
  unfold Memory.readCount
  rw [hc]

theorem writeCount_of_some {n : UInt64} (hc : mem.counts.cell c = some n) (n' : UInt64) :
    ∃ mem', mem.writeCount c n' = .ok mem' ∧ mem'.objects = mem.objects ∧
      mem'.counts.cell = Function.update mem.counts.cell c (some n') := by
  obtain ⟨counts, hw, hcell⟩ := Heap.write_of_some hc n'
  unfold Memory.writeCount
  rw [hw]
  exact ⟨_, rfl, rfl, hcell⟩

theorem deleteCount_of_some {n : UInt64} (hc : mem.counts.cell c = some n) :
    ∃ mem', mem.deleteCount c = .ok mem' ∧ mem'.objects = mem.objects ∧
      mem'.counts.cell = Function.update mem.counts.cell c none := by
  obtain ⟨counts, hw, hcell⟩ := Heap.free_of_some hc
  unfold Memory.deleteCount
  rw [hw]
  exact ⟨_, rfl, rfl, hcell⟩

theorem deleteObject_of_some {a : Addr} (ha : (mem.objects.cell a).isSome = true) :
    ∃ mem', mem.deleteObject (some a) = .ok mem' ∧ mem'.counts = mem.counts ∧
      mem'.objects.cell = Function.update mem.objects.cell a none := by
  obtain ⟨x, hx⟩ := Option.isSome_iff_exists.mp ha
  obtain ⟨objects, hw, hcell⟩ := Heap.free_of_some hx
  unfold Memory.deleteObject
  simp only [hw]
  exact ⟨_, rfl, rfl, hcell⟩

/-! ## One handle less, one handle more -/

/-- The handle refers to no counter, or it is the only one that refers to its counter. -/
def Sole (h : Handle) (hs : List Handle) : Prop := ∀ c, h.sharedCount = some c → sharers c hs = 1

/-- Giving up one of several owners: the counter goes down by one. -/
theorem Owned.give_up {mem' : Memory T} (ho : Owned mem fresh (h :: hs))
    (hc : h.sharedCount = some c) (hk : 0 < sharers c hs) (hobj : mem'.objects = mem.objects)
    (hcell : mem'.counts.cell =
      Function.update mem.counts.cell c (some (UInt64.ofNat (sharers c hs)))) :
    Owned mem' fresh hs := by
  refine ⟨?_, fun x hx => ho.paired x (.tail _ hx),
    fun x hx y hy => ho.linked x (.tail _ hx) y (.tail _ hy), fun x hx => ho.adopted x (.tail _ hx), ?_⟩
  · show Census Handle.sharedCount (Counts mem'.counts.cell) hs
    refine ho.census.leave hc (fun d n hd hn => ?_) ?_
    · rw [hcell]
      exact hn.update d n hd
    · show mem'.counts.cell c = if sharers c hs = 0 then none else some (UInt64.ofNat (sharers c hs))
      rw [hcell, Function.update_self, if_neg (Nat.ne_of_gt hk)]
  · intro a
    rw [hobj, ho.object a, List.exists_mem_cons_iff]
    -- the object of the handle is that of another owner
    obtain ⟨g, hg, hgc⟩ := exists_sharer hk
    have hsame : h.ptr = g.ptr :=
      (ho.linked h List.mem_cons_self g (.tail _ hg)).mp (hc.trans hgc.symm)
    constructor
    · rintro (hf | hp | he)
      · exact Or.inl hf
      · exact Or.inr ⟨g, hg, hsame ▸ hp⟩
      · exact Or.inr he
    · rintro (hf | he)
      · exact Or.inl hf
      · exact Or.inr (Or.inr he)

/-- Giving up the last owner: counter and object are deleted. -/
theorem Owned.give_up_last {mem' : Memory T} {a : Addr} (ho : Owned mem fresh (h :: hs))
    (hc : h.sharedCount = some c) (hk : sharers c hs = 0) (hp : h.ptr = some a)
    (hobj : mem'.objects.cell = Function.update mem.objects.cell a none)
    (hcell : mem'.counts.cell = Function.update mem.counts.cell c none) :
    Owned mem' fresh hs := by
  refine ⟨?_, fun x hx => ho.paired x (.tail _ hx),
    fun x hx y hy => ho.linked x (.tail _ hx) y (.tail _ hy), fun x hx => ho.adopted x (.tail _ hx), ?_⟩
  · show Census Handle.sharedCount (Counts mem'.counts.cell) hs
    refine ho.census.leave hc (fun d n hd hn => ?_) ?_
    · rw [hcell]
      exact hn.update d n hd
    · show mem'.counts.cell c = if sharers c hs = 0 then none else _
      rw [hcell, Function.update_self, if_pos hk]
  · intro b
    rw [hobj]
    by_cases hb : b = a
    · subst hb
      -- nobody else refers to the object: it would share the counter
      have hno : ¬ (b ∈ fresh ∨ ∃ g ∈ hs, g.ptr = some b) := by
        rintro (hf | ⟨g, hg, hgp⟩)
        · exact ho.adopted h List.mem_cons_self b hp hf
        · have hgc := (ho.linked h List.mem_cons_self g (.tail _ hg)).mpr (hp.trans hgp.symm)
          have := sharers_pos hg (hgc ▸ hc)
          omega
      rw [Function.update_self]
      exact ⟨fun hs => (nomatch hs), fun he => absurd he hno⟩
    · rw [Function.update_of_ne hb, ho.object b, List.exists_mem_cons_iff]
      have hne : h.ptr ≠ some b := by
        rw [hp]
        exact fun he => hb (Option.some.inj he).symm
      simp only [hne, false_or]

/-- **`release`** succeeds, takes one owner away, and nulls the handle exactly if it was the
    last owner (or null already). -/
theorem release_spec (hlen : hs.length < 2 ^ 64) (ho : Owned mem fresh (h :: hs)) :
    ∃ mem' h', release mem h = .ok (mem', h') ∧ Owned mem' fresh hs ∧
      (Sole h (h :: hs) → h' = .null) ∧ (¬ Sole h (h :: hs) → h' = h) := by
  cases hc : h.sharedCount with
  | none =>
    have hp : h.ptr = none := (ho.paired h List.mem_cons_self).mpr hc
    have hnull : h = .null := by
      cases h
      cases hc
      cases hp
      rfl
    refine ⟨mem, h, ?_, ?_, fun _ => hnull, fun _ => rfl⟩
    · unfold release
      rw [hc]
    · refine ⟨(census_cons_none hc).mp ho.census, fun x hx => ho.paired x (.tail _ hx),
        fun x hx y hy => ho.linked x (.tail _ hx) y (.tail _ hy),
        fun x hx => ho.adopted x (.tail _ hx), fun a => ?_⟩
      rw [ho.object a, List.exists_mem_cons_iff, hp]
      simp
  | some c =>
    have hcount := ho.count_of_mem List.mem_cons_self hc
    rw [sharers_cons_of_eq hc] at hcount
    obtain ⟨mem₁, hw, hobj₁, hcell₁⟩ :=
      writeCount_of_some hcount (UInt64.ofNat (sharers c hs + 1) - 1)
    have hpred : UInt64.ofNat (sharers c hs + 1) - 1 = UInt64.ofNat (sharers c hs) := by
      rw [UInt64.ofNat_add]
      exact UInt64.add_sub_cancel _ _
    rw [hpred] at hw hcell₁
    have hread : mem₁.counts.cell c = some (UInt64.ofNat (sharers c hs)) := by
      rw [hcell₁, Function.update_self]
    have hle := sharers_le_length c hs
    have hsole : Sole h (h :: hs) ↔ sharers c hs = 0 := by
      unfold Sole
      constructor
      · intro hall
        have := hall c hc
        rw [sharers_cons_of_eq hc] at this
        omega
      · intro hz d hd
        rw [hc, Option.some.injEq] at hd
        subst hd
        rw [sharers_cons_of_eq hc, hz]
    by_cases hk : sharers c hs = 0
    · -- the last owner
      obtain ⟨a, hp⟩ : ∃ a, h.ptr = some a := by
        rw [← Option.ne_none_iff_exists']
        intro hn
        rw [(ho.paired h List.mem_cons_self).mp hn] at hc
        cases hc
      have halive : (mem₁.objects.cell a).isSome = true := by
        rw [hobj₁, ho.object a]
        exact Or.inr ⟨h, List.mem_cons_self, hp⟩
      obtain ⟨mem₂, hd, hcnt₂, hobj₂⟩ := deleteObject_of_some halive
      have hread₂ : mem₂.counts.cell c = some (UInt64.ofNat (sharers c hs)) := by
        rw [hcnt₂, hread]
      obtain ⟨mem₃, hd', hobj₃, hcnt₃⟩ := deleteCount_of_some hread₂
      refine ⟨mem₃, .null, ?_, ?_, fun _ => rfl, fun hns => absurd (hsole.mpr hk) hns⟩
      · unfold release
        have hzero : UInt64.ofNat (sharers c hs) = 0 := by rw [hk]; rfl
        simp only [hc, readCount_of_some hcount, hpred, hw, readCount_of_some hread, bind,
          Except.bind, pure, Except.pure]
        rw [if_pos hzero]
        simp only [hp, hd, hd']
      · refine ho.give_up_last hc hk hp ?_ ?_
        · rw [hobj₃, hobj₂, hobj₁]
        · rw [hcnt₃, hcnt₂, hcell₁, Function.update_idem]
    · refine ⟨mem₁, h, ?_, ?_, fun hs => absurd (hsole.mp hs) hk, fun _ => rfl⟩
      · have hne : ¬ UInt64.ofNat (sharers c hs) = 0 := by
          rw [ofNat_eq_zero (by omega)]
          exact hk
        unfold release
        simp only [hc, readCount_of_some hcount, hpred, hw, readCount_of_some hread, hne, if_false,
          bind, Except.bind, pure, Except.pure]
      · exact ho.give_up hc (by omega) hobj₁ hcell₁

/-- **Sharing** succeeds and adds an owner. -/
theorem share_spec (ho : Owned mem fresh hs) (hm : h ∈ hs) :
    ∃ mem', share mem h = .ok (mem', h) ∧ Owned mem' fresh (h :: hs) := by
  have hmem : ∀ x, x ∈ h :: hs → x ∈ hs := by
    intro x hx
    rcases List.mem_cons.mp hx with rfl | hx
    · exact hm
    · exact hx
  have hobject : ∀ a, (∃ g ∈ h :: hs, g.ptr = some a) ↔ ∃ g ∈ hs, g.ptr = some a := by
    intro a
    constructor
    · rintro ⟨g, hg, hp⟩
      exact ⟨g, hmem g hg, hp⟩
    · rintro ⟨g, hg, hp⟩
      exact ⟨g, .tail _ hg, hp⟩
  have hrest : ∀ mem' : Memory T, mem'.objects = mem.objects →
      Census Handle.sharedCount (Counts mem'.counts.cell) (h :: hs) → Owned mem' fresh (h :: hs) := by
    intro mem' hobj hcount
    refine ⟨hcount, fun x hx => ho.paired x (hmem x hx),
      fun x hx y hy => ho.linked x (hmem x hx) y (hmem y hy), fun x hx => ho.adopted x (hmem x hx), ?_⟩
    intro a
    rw [hobj, ho.object a, hobject a]
  cases hc : h.sharedCount with
  | none =>
    refine ⟨mem, ?_, hrest mem rfl ((census_cons_none hc).mpr ho.census)⟩
    unfold share
    rw [hc]
  | some c =>
    have hcount := ho.count_of_mem hm hc
    obtain ⟨mem', hw, hobj, hcell⟩ :=
      writeCount_of_some hcount (UInt64.ofNat (sharers c hs) + 1)
    refine ⟨mem', ?_, hrest mem' hobj (ho.census.join hc (fun d n hd hn => ?_) ?_)⟩
    · unfold share
      simp only [hc, readCount_of_some hcount, hw, bind, Except.bind, pure, Except.pure]
    · rw [hcell]
      exact hn.update d n hd
    · show mem'.counts.cell c = if sharers c hs + 1 = 0 then none else some (UInt64.ofNat (sharers c hs + 1))
      rw [hcell, Function.update_self, if_neg (Nat.succ_ne_zero _), UInt64.ofNat_add]
      rfl

/-- **The first owner** of an object, with a new counter. -/
theorem construct_spec (ho : Owned mem fresh hs) (hc : mem.counts.cell c = none)
    {p : Option Addr} (hp : ∀ a, p = some a → a ∈ fresh) :
    Owned (construct mem p c hc).1 (fresh.filter fun b => some b != p)
      ((construct mem p c hc).2 :: hs) := by
  cases p with
  | none =>
    have hkeep : (fresh.filter fun b => some b != none) = fresh := by simp
    rw [hkeep]
    exact ho.add_null
  | some a =>
    have hfresh : a ∈ fresh := hp a rfl
    have hzero : sharers c hs = 0 := by
      have := ho.count c
      rw [hc] at this
      by_contra hne
      rw [if_neg hne] at this
      cases this
    have hnoc : ∀ g ∈ hs, g.sharedCount ≠ some c := by
      intro g hg hgc
      have := sharers_pos hg hgc
      omega
    have hnop : ∀ g ∈ hs, g.ptr ≠ some a := fun g hg hgp => ho.adopted g hg a hgp hfresh
    refine ⟨?_, ?_, ?_, ?_, ?_⟩
    · refine ho.census.join (k := c) rfl (fun d n hd hn => hn.update d n hd) ?_
      show Function.update mem.counts.cell c (some 1) c =
        if sharers c hs + 1 = 0 then none else some (UInt64.ofNat (sharers c hs + 1))
      rw [Function.update_self, hzero]
      rfl
    · rw [List.forall_mem_cons]
      exact ⟨⟨fun he => (nomatch he), fun he => (nomatch he)⟩, ho.paired⟩
    · refine forall_pairs_cons linked_symm ⟨fun _ => rfl, fun _ => rfl⟩ (fun g hg => ?_) ho.linked
      exact ⟨fun he => absurd he.symm (hnoc g hg), fun he => absurd he.symm (hnop g hg)⟩
    · rw [List.forall_mem_cons]
      constructor
      · intro b hb
        cases hb
        simp
      · intro g hg b hb hmem
        exact ho.adopted g hg b hb (List.mem_of_mem_filter hmem)
    · intro b
      show (mem.objects.cell b).isSome = true ↔ _
      rw [ho.object b, List.exists_mem_cons_iff, List.mem_filter]
      by_cases hb : b = a
      · subst hb
        exact ⟨fun _ => Or.inr (Or.inl rfl), fun _ => Or.inl hfresh⟩
      · have hne : ¬ (some a = some b) := fun he => hb (Option.some.inj he).symm
        simp only [bne_iff_ne, ne_eq, Option.some.injEq, hb, not_false_eq_true, and_true]
        constructor
        · rintro (hf | he)
          · exact Or.inl hf
          · exact Or.inr (Or.inr he)
        · rintro (hf | he | he)
          · exact Or.inl hf
          · exact absurd he hne
          · exact Or.inr he

/-- A new object belongs to the program until a handle takes it. -/
theorem newObject_spec (ho : Owned mem fresh hs) {a : Addr} (ha : mem.objects.cell a = none)
    (x : T) : Owned { mem with objects := mem.objects.alloc a x ha } (a :: fresh) hs := by
  refine ⟨ho.count, ho.paired, ho.linked, ?_, ?_⟩
  · intro h hm b hb hmem
    rcases List.mem_cons.mp hmem with rfl | hf
    · have halive := (ho.object b).mpr (Or.inr ⟨h, hm, hb⟩)
      rw [ha] at halive
      cases halive
    · exact ho.adopted h hm b hb hf
  · intro b
    show (Function.update mem.objects.cell a (some x) b).isSome = true ↔ _
    by_cases hb : b = a
    · subst hb
      rw [Function.update_self]
      exact ⟨fun _ => Or.inl List.mem_cons_self, fun _ => rfl⟩
    · rw [Function.update_of_ne hb, ho.object b, List.mem_cons]
      simp only [hb, false_or]

end CppBackend.SharedPtr
