import SylixOS.HeapScatter

/-! A second release of the same pointer. Verify mode looks for the pointer among the
segments and finds a free one. Without it the old header is asked, which says free only
when it is still a header: a release that merges with the free segment on the left leaves
it as it was. -/

namespace SylixOS.HeapLib
open LinkedChain ListLink IntervalTiling

variable {c : Config} {g : Ground}

/-- The segment of the pointer touches a free segment on its left:
`__HEAP_SEGMENT_CAN_ML`. -/
def MergesLeft (c : Config) (h : Heap) (p : Nat) : Prop :=
  ∃ y, h.lineManage.prev (headerOf c h p) = some y ∧ segmentIsUsed h y = false ∧
    nextPtr c h y = headerOf c h p

instance (c : Config) (h : Heap) (p : Nat) : Decidable (MergesLeft c h p) :=
  match prev : h.lineManage.prev (headerOf c h p) with
  | none => isFalse fun ⟨y, hy, _⟩ => by simp [prev] at hy
  | some x => decidable_of_iff (segmentIsUsed h x = false ∧ nextPtr c h x = headerOf c h p)
      ⟨fun merges => ⟨x, prev, merges⟩, fun ⟨y, hy, merges⟩ => by
        obtain rfl : x = y := by simpa [prev] using hy
        exact merges⟩

theorem heapFree_reported_iff {h : Heap} {p : Nat} {bIsNeedVerify ulLockErr : Bool} :
    heapFree c h (some p) bIsNeedVerify ulLockErr = (some p, h) ↔
      ulLockErr = true ∨ heapSegmentOf c h p bIsNeedVerify = none := by
  rw [heapFree]
  cases ulLockErr with
  | true => simp
  | false =>
    cases found : heapSegmentOf c h p bIsNeedVerify <;> simp

section Twice
variable {h h' : Heap} {s t free s' t' free' : List Nat} {a l : Nat} {b : Block}

theorem mergesLeft_iff (core : Core c g h (s ++ a :: t) free) (holds : Holds c h a b) :
    MergesLeft c h b.ptr ↔
      ∃ y, s.getLast? = some y ∧ y ∈ free ∧ y + c.segmentBlockSizeAlign + h.stByteSize y = a := by
  rw [MergesLeft, headerOf_eq core (by simp) holds, core.line.split.1]
  refine exists_congr fun y => and_congr_right fun last => ?_
  have mem : y ∈ s ++ a :: t := List.mem_append_left _ (List.mem_of_getLast? last)
  rw [core.mem_free_iff mem, core.nextPtr_eq mem]

theorem Freed.merges_iff (freed : Freed c g h s t free a h' s' l t' free')
    (core : Core c g h (s ++ a :: t) free) (holds : Holds c h a b) :
    MergesLeft c h b.ptr ↔ l ≠ a := by
  rw [mergesLeft_iff core holds]
  have pos := c.segmentBlockSizeAlign_pos
  rcases freed.left with ⟨_, own, alone⟩ | ⟨split, lfree, touch⟩
  · constructor
    · rintro ⟨y, last, yfree, touch⟩
      exact absurd touch (alone y last yfree)
    · exact fun other => absurd own other
  · constructor
    · intro _ own
      omega
    · exact fun _ => ⟨l, by simp [split], lfree, touch⟩

theorem Freed.verify_none (freed : Freed c g h s t free a h' s' l t' free')
    (holds : Holds c h a b) : heapVerify c h' b.ptr = none := by
  obtain ⟨le, reach⟩ := freed.covers
  obtain ⟨lo, hi, _⟩ := holds
  have pos := c.segmentBlockSizeAlign_pos
  have place : l ∈ s' ++ l :: t' := by simp
  rw [freed.core.heapVerify_eq, freed.core.find_eq place (by omega) (by omega)]
  simp only [(freed.core.mem_free_iff place).mpr freed.mem, Bool.false_eq_true, if_false, ite_self]

theorem Freed.stMagic (freed : Freed c g h s t free a h' s' l t' free')
    (core : Core c g h (s ++ a :: t) free) : h'.stMagic a = h.stMagic a := by
  by_cases own : l = a
  · have place : a ∈ s' ++ l :: t' := by simp [own]
    rw [freed.core.magic a place, core.magic a (by simp)]
  · exact (freed.stale own).stMagic

theorem Freed.headerOf_eq (freed : Freed c g h s t free a h' s' l t' free')
    (core : Core c g h (s ++ a :: t) free) (holds : Holds c h a b) : headerOf c h' b.ptr = a := by
  have before := HeapLib.headerOf_eq core (by simp) holds
  obtain ⟨lo, hi, lead⟩ := holds
  have bound := core.bounds a (by simp)
  have pos := c.segmentBlockSizeAlign_pos
  have word := c.sizeofSizeT_pos
  have seg : segPtr c b.ptr = b.ptr - c.segmentBlockSizeAlign := Config.sub_eq (by omega) (by omega)
  have kept : h'.stMagic (segPtr c b.ptr) = h.stMagic (segPtr c b.ptr) := by
    rw [seg]
    rcases lead with start | ⟨inside, _⟩
    · have here : b.ptr - c.segmentBlockSizeAlign = a := by omega
      rw [here]
      exact freed.stMagic core
    · have place : a ∈ s ++ a :: t := by simp
      refine (freed.writes _ fun mem => ?_).stMagic
      exact core.not_inside place mem ⟨by omega, by omega⟩
  rw [headerOf, segmentIsReal, kept]
  exact before

theorem Freed.unchecked_none_iff (freed : Freed c g h s t free a h' s' l t' free')
    (core : Core c g h (s ++ a :: t) free) (used : a ∉ free) (holds : Holds c h a b) :
    heapSegmentOf c h' b.ptr false = none ↔ l = a := by
  have real : segmentIsReal h' a = true := by
    rw [segmentIsReal, freed.stMagic core, core.magic a (by simp)]
    rfl
  rw [heapSegmentOf_false, freed.headerOf_eq core holds, real]
  by_cases own : l = a
  · have place : a ∈ s' ++ l :: t' := by simp [own]
    have idle := (freed.core.mem_free_iff place).mpr (own ▸ freed.mem)
    simp [idle, own]
  · have busy : segmentIsUsed h' a = true := by
      rw [segmentIsUsed, (freed.stale own).ringPrev]
      exact core.segmentIsUsed_eq (by simp) used
    simp [busy, own]

theorem heapFree_twice_iff {h₁ : Heap} {segs : List Nat} (core : Core c g h segs free)
    (mem : a ∈ segs) (used : a ∉ free) (holds : Holds c h a b) {bIsNeedVerify ulLockErr : Bool}
    (first : heapFree c h (some b.ptr) bIsNeedVerify ulLockErr = (none, h₁))
    (bIsNeedVerify' ulLockErr' : Bool) :
    heapFree c h₁ (some b.ptr) bIsNeedVerify' ulLockErr' = (some b.ptr, h₁) ↔
      ulLockErr' = true ∨ bIsNeedVerify' = true ∨ ¬MergesLeft c h b.ptr := by
  rw [heapFree_eq core mem used holds] at first
  split at first
  next =>
    obtain rfl : heapRelease c h a = h₁ := (Prod.mk.inj first).2
    obtain ⟨s, t, rfl⟩ := List.append_of_mem mem
    obtain ⟨s', l, t', free', freed⟩ := heapRelease_freed core used
    rw [heapFree_reported_iff, freed.merges_iff core holds, not_not]
    cases bIsNeedVerify' with
    | true =>
      have reported : heapSegmentOf c (heapRelease c h a) b.ptr true = none :=
        freed.verify_none holds
      simp [reported]
    | false =>
      rw [freed.unchecked_none_iff core used holds]
      simp
  next => simp at first

end Twice

/-- A second release of a live pointer changes nothing and says so if and only if it cannot take
the lock, or verifies, or the first release did not merge with a segment on the left. -/
theorem double_free_harmless_iff (c : Config) (σ : State) (reached : Reachable c σ) (b : Block)
    (live : b ∈ σ.live) (bIsNeedVerify ulLockErr : Bool) (h₁ : Heap)
    (first : heapFree c σ.heap (some b.ptr) bIsNeedVerify ulLockErr = (none, h₁))
    (bIsNeedVerify' ulLockErr' : Bool) :
    heapFree c h₁ (some b.ptr) bIsNeedVerify' ulLockErr' = (some b.ptr, h₁) ↔
      ulLockErr' = true ∨ bIsNeedVerify' = true ∨ ¬MergesLeft c σ.heap b.ptr := by
  obtain ⟨g, segs, free, a, core, mem, used, holds⟩ := reached.block live
  exact heapFree_twice_iff core mem used holds first bIsNeedVerify' ulLockErr'

theorem double_free_harmless_alone :
    heapFree ⟨.w64, true⟩
        (heapFree ⟨.w64, true⟩ (runSteps ⟨.w64, true⟩ (start ⟨.w64, true⟩ blankHeap 0x1000 0x1000)
          [.call (.allocate 100 false)]).heap (some 0x1030) false false).2
        (some 0x1030) false false =
      (some 0x1030, (heapFree ⟨.w64, true⟩ (runSteps ⟨.w64, true⟩
        (start ⟨.w64, true⟩ blankHeap 0x1000 0x1000) [.call (.allocate 100 false)]).heap
        (some 0x1030) false false).2) :=
  (double_free_harmless_iff ⟨.w64, true⟩ _
    ⟨blankHeap, 0x1000, 0x1000, _, by decide, by decide +kernel, by decide, by decide, rfl⟩
    ⟨0x1030, 100⟩ (by decide +kernel) false false _ (Prod.ext (by decide +kernel) rfl) false
    false).mpr (Or.inr (Or.inr (by decide +kernel)))

/-- The block on the right is released into the one on its left, and once more. -/
theorem double_free_accepted :
    ¬ ∀ (c : Config) (σ : State), Reachable c σ → ∀ b ∈ σ.live, ∀ bIsNeedVerify h₁,
      heapFree c σ.heap (some b.ptr) bIsNeedVerify false = (none, h₁) →
      heapFree c h₁ (some b.ptr) bIsNeedVerify false = (some b.ptr, h₁) := by
  intro all
  have reported := all ⟨.w64, false⟩ _ ⟨blankHeap, 0x1000, 0x1000,
    [.call (.allocate 100 false), .call (.allocate 100 false),
      .call (.free (some 0x1030) false false)],
    by decide, by decide +kernel, by decide, by decide, rfl⟩ ⟨0x10d0, 100⟩ (by decide +kernel) false
    _ (Prod.ext (by decide +kernel) rfl)
  have result := congrArg Prod.fst reported
  revert result
  decide +kernel

end SylixOS.HeapLib
