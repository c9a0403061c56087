import SylixOS.HeapScatter

/-! A release right after the allocation it undoes. Whatever way the block was cut out
of a free segment, the release merges it with exactly the parts that were cut off,
because no other free segment touches them. -/

namespace SylixOS.HeapLib
open LinkedChain ListLink IntervalTiling

variable {c : Config} {g : Ground}

def Unmerged (c : Config) (h : Heap) (segs free : List Nat) : Prop :=
  segs.IsChain fun a b => a ∈ free → b ∈ free → a + c.segmentBlockSizeAlign + h.stByteSize a ≠ b

structure Restored (h h' : Heap) (segs : List Nat) : Prop where
  line : IsLine h'.lineManage segs
  start : h'.pvStartAddress = h.pvStartAddress
  size : ∀ a ∈ segs, h'.stByteSize a = h.stByteSize a
  state : ∀ a ∈ segs, segmentIsUsed h' a = segmentIsUsed h a
  counter : h'.ulSegmentCounter = h.ulSegmentCounter
  usedBytes : h'.stUsedByteSize = h.stUsedByteSize
  freeBytes : h'.stFreeByteSize = h.stFreeByteSize

theorem restored_of_map {h h' : Heap} {segs free free' : List Nat} (core : Core c g h segs free)
    (core' : Core c g h' segs free') (size : ∀ a ∈ segs, h'.stByteSize a = h.stByteSize a)
    (same : ∀ a ∈ segs, a ∈ free' ↔ a ∈ free) : Restored h h' segs := by
  have perm : free'.Perm free := by
    refine (List.perm_ext_iff_of_nodup core'.ring.nodup core.ring.nodup).mpr fun x => ?_
    constructor
    · exact fun hf => (same x (core'.free_mem x hf)).mp hf
    · exact fun hf => (same x (core.free_mem x hf)).mpr hf
  have bytes : h'.stFreeByteSize = h.stFreeByteSize := by
    rw [core'.freeBytes, core.freeBytes, (perm.map h'.stByteSize).sum_eq]
    exact sum_congr fun x hf => size x (core.free_mem x hf)
  have whole := core.total
  have whole' := core'.total
  have total := core.total_eq
  have total' := core'.total_eq
  have start := core.start_eq
  have start' := core'.start_eq
  refine ⟨core'.line, ?_, size, ?_, ?_, by omega, bytes⟩
  · rw [start] at start'
    exact (Option.some.inj start').symm
  · intro a mem
    by_cases hf : a ∈ free
    · rw [(core.mem_free_iff mem).mpr hf, (core'.mem_free_iff mem).mpr ((same a mem).mpr hf)]
    · have hf' : a ∉ free' := fun e => hf ((same a mem).mp e)
      rw [core.segmentIsUsed_eq mem hf, core'.segmentIsUsed_eq mem hf']
  · rw [core'.counter, core.counter]

theorem Taken.freed_right {h h₁ h₂ : Heap} {s t free new free₁ s' t' free₂ : List Nat}
    {a st l : Nat} (taken : Taken c g h s t free a st h₁ new free₁)
    (freed : Freed c g h₁ s (new ++ t) free₁ a h₂ s' l t' free₂)
    (apart : ∀ y, t.head? = some y → y ∈ free →
      a + c.segmentBlockSizeAlign + h.stByteSize a ≠ y) :
    t' = t ∧ l + c.segmentBlockSizeAlign + h₂.stByteSize l =
      a + c.segmentBlockSizeAlign + h.stByteSize a := by
  have free_iff := taken.mem_free
  rcases taken.shape with ⟨rfl, size, _⟩ | ⟨rfl, size, whole⟩
  · rw [← size]
    rcases freed.right with ⟨same, stop, _⟩ | ⟨r, split, rfree, touch, _⟩
    · exact ⟨same, stop⟩
    · rw [List.nil_append] at split
      have old : r ∈ free := by simpa using ((free_iff r).mp rfree).imp_right And.left
      rw [size] at touch
      exact absurd touch (apart r (by rw [split]; rfl) old)
  · rcases freed.right with ⟨_, _, alone⟩ | ⟨r, split, _, _, stop⟩
    · have rest := alone _ rfl ((free_iff _).mpr (Or.inl (List.mem_singleton_self _)))
      rw [size] at rest
      exact absurd rfl rest
    · obtain ⟨rfl, rfl⟩ := List.cons.inj split
      refine ⟨rfl, ?_⟩
      rw [stop, whole]
      omega

section Undo
variable {h h₁ h₂ : Heap} {s t free new free₁ s' t' free₂ : List Nat} {a st l : Nat}

theorem Unmerged.around (unmerged : Unmerged c h (s ++ a :: t) free) (mem : a ∈ free) :
    (∀ y, s.getLast? = some y → y ∈ free →
      y + c.segmentBlockSizeAlign + h.stByteSize y ≠ a) ∧
    ∀ y, t.head? = some y → y ∈ free → a + c.segmentBlockSizeAlign + h.stByteSize a ≠ y := by
  obtain ⟨_, right, last⟩ := List.isChain_append.mp unmerged
  constructor
  · intro y hy hf
    exact last y hy a rfl hf mem
  · intro y hy hf
    exact (List.isChain_cons.mp right).1 y hy mem hf

theorem Taken.undone (taken : Taken c g h s t free a st h₁ new free₁)
    (freed : Freed c g h₁ s (new ++ t) free₁ a h₂ s' l t' free₂)
    (core : Core c g h (s ++ a :: t) free) (mem : a ∈ free)
    (unmerged : Unmerged c h (s ++ a :: t) free) : Restored h h₂ (s ++ a :: t) := by
  obtain ⟨before, behind⟩ := unmerged.around mem
  obtain ⟨rfl, stop⟩ := taken.freed_right freed behind
  obtain ⟨rfl, rfl⟩ : s' = s ∧ l = a := by
    rcases freed.left with ⟨same, start, _⟩ | ⟨split, lfree, touch⟩
    · exact ⟨same, start⟩
    · have inside : l ∈ s ++ t' := by simp [split]
      have old := (taken.others inside).2.mp lfree
      rw [(taken.keep l inside).1] at touch
      exact absurd touch (before l (by simp [split]) old)
  refine restored_of_map core freed.core ?_ ?_
  · intro x hx
    by_cases own : x = l
    · subst own
      omega
    · have around : x ∈ s' ++ t' := by
        simp only [List.mem_append, List.mem_cons] at hx ⊢
        tauto
      rw [(freed.keep x around).1, (taken.keep x around).1]
  · intro x hx
    rw [freed.mem_free]
    by_cases own : x = l
    · simp [own, mem]
    · have around : x ∈ s' ++ t' := by
        simp only [List.mem_append, List.mem_cons] at hx ⊢
        tauto
      simp only [own, false_or, around, and_true]
      exact (taken.others around).2

theorem Taken.undone_front {h₀ : Heap} {free₀ : List Nat} {added : Nat}
    (taken : Taken c g h (s ++ [a]) t free (a + added) st h₁ new free₁)
    (freed : Freed c g h₁ (s ++ [a]) (new ++ t) free₁ (a + added) h₂ s' l t' free₂)
    (core₀ : Core c g h₀ (s ++ a :: t) free₀) (mem : a ∈ free₀)
    (unmerged : Unmerged c h₀ (s ++ a :: t) free₀) (perm : free.Perm ((a + added) :: free₀))
    (fresh : a + added ∉ s ++ a :: t) (front : h.stByteSize a + c.segmentBlockSizeAlign = added)
    (rear : a + added + c.segmentBlockSizeAlign + h.stByteSize (a + added) =
      a + c.segmentBlockSizeAlign + h₀.stByteSize a)
    (keep : ∀ u ∈ s ++ t, Keeps c h₀ h u) : Restored h₀ h₂ (s ++ a :: t) := by
  obtain ⟨_, behind⟩ := unmerged.around mem
  have old : ∀ x ∈ s ++ a :: t, x ∈ free ↔ x ∈ free₀ := by
    intro x hx
    rw [perm.mem_iff, List.mem_cons]
    constructor
    · rintro (rfl | hf)
      · exact absurd hx fresh
      · exact hf
    · exact Or.inr
  obtain ⟨rfl, stop⟩ := taken.freed_right freed fun y hy hf => by
    have inside : y ∈ t := List.mem_of_mem_head? hy
    have place : y ∈ s ++ a :: t := by simp [inside]
    rw [rear]
    exact behind y hy ((old y place).mp hf)
  obtain ⟨rfl, rfl⟩ : s' = s ∧ l = a := by
    rcases freed.left with ⟨_, _, alone⟩ | ⟨split, _, _⟩
    · have last : (s ++ [a]).getLast? = some a := by simp
      have inside : a ∈ (s ++ [a]) ++ t' := by simp
      have afree : a ∈ free₁ :=
        (taken.others inside).2.mpr ((old a (by simp)).mpr mem)
      have rest := alone a last afree
      rw [(taken.keep a inside).1] at rest
      omega
    · obtain ⟨same, cell⟩ := List.append_inj' split rfl
      exact ⟨same.symm, (List.cons.inj cell).1.symm⟩
  refine restored_of_map core₀ freed.core ?_ ?_
  · intro x hx
    by_cases own : x = l
    · subst own
      omega
    · have around : x ∈ s' ++ t' := by
        simp only [List.mem_append, List.mem_cons] at hx ⊢
        tauto
      have around' : x ∈ (s' ++ [l]) ++ t' := by
        simp only [List.mem_append, List.mem_cons, List.not_mem_nil, or_false] at around ⊢
        tauto
      rw [(freed.keep x around).1, (taken.keep x around').1, (keep x around).1]
  · intro x hx
    rw [freed.mem_free]
    by_cases own : x = l
    · simp [own, mem]
    · have around : x ∈ s' ++ t' := by
        simp only [List.mem_append, List.mem_cons] at hx ⊢
        tauto
      have around' : x ∈ (s' ++ [l]) ++ t' := by
        simp only [List.mem_append, List.mem_cons, List.not_mem_nil, or_false] at around ⊢
        tauto
      simp only [own, false_or, around, and_true]
      exact (taken.others around').2.trans (old x hx)

end Undo

/-- After the allocation of `p` that made `h` into `h₁`, a release restores the heap if and
only if it takes the lock and, in verify mode, finds the pointer in the range it tests. -/
def Undoes (c : Config) (h h₁ : Heap) (segs : List Nat) (p : Nat) : Prop :=
  ∀ bIsNeedVerify ulLockErr,
    Restored h (heapFree c h₁ (some p) bIsNeedVerify ulLockErr).2 segs ↔
      ulLockErr = false ∧ (bIsNeedVerify = true → InRange c h₁ p)

theorem undoes_of {h h₁ : Heap} {segs segs₁ free₁ : List Nat} {a : Nat} {b : Block}
    (core₁ : Core c g h₁ segs₁ free₁) (mem : a ∈ segs₁) (used : a ∉ free₁)
    (holds : Holds c h₁ a b) (changed : ¬Restored h h₁ segs)
    (back : Restored h (heapRelease c h₁ a) segs) : Undoes c h h₁ segs b.ptr := by
  intro verify err
  rw [heapFree_eq core₁ mem used holds]
  split
  next accepted => exact iff_of_true back accepted
  next refused => exact iff_of_false changed refused

theorem Taken.undoes {h h₁ : Heap} {s t free new free₁ : List Nat} {a st : Nat} {b : Block}
    (taken : Taken c g h s t free a st h₁ new free₁) (core : Core c g h (s ++ a :: t) free)
    (mem : a ∈ free) (unmerged : Unmerged c h (s ++ a :: t) free) (holds : Holds c h₁ a b) :
    Undoes c h h₁ (s ++ a :: t) b.ptr := by
  have place : a ∈ s ++ a :: (new ++ t) := by simp
  refine undoes_of taken.core place taken.used holds ?_ ?_
  · intro restored
    have state := restored.state a (by simp)
    rw [taken.core.segmentIsUsed_eq place taken.used,
      (core.mem_free_iff (core.free_mem a mem)).mpr mem] at state
    exact absurd state (by simp)
  · obtain ⟨s', l, t', free₂, freed⟩ := heapRelease_freed taken.core taken.used
    exact taken.undone freed core mem unmerged

theorem undoes_allocate {h h₁ : Heap} {segs free : List Nat} {n p : Nat} {ulLockErr : Bool}
    (core : Core c g h segs free) (unmerged : Unmerged c h segs free)
    (room : c.markSize ≤ requestSize c n) (given : heapAllocate c h n ulLockErr = (some p, h₁)) :
    Undoes c h h₁ segs p := by
  obtain ⟨s, t, a, new, free₁, rfl, mem, rfl, _, taken, holds⟩ :=
    core.heapAllocate_taken room given
  have undone := taken.undoes core mem unmerged (holds 0 (by omega))
  exact undone

theorem undoes_allocateAlign {h h₁ : Heap} {segs free : List Nat} {n k p : Nat}
    {ulLockErr : Bool} (core : Core c g h segs free) (unmerged : Unmerged c h segs free)
    (room : c.markSize ≤ requestSize c n) (lt : 2 ^ k < c.modulus)
    (sum : ∀ a ∈ free, requestSize c n + segmentGap c a k < c.modulus)
    (given : heapAllocateAlign c h n (2 ^ k) ulLockErr = (some p, h₁)) :
    Undoes c h h₁ segs p := by
  obtain ⟨s, t, a, rfl, mem, fits, value⟩ := core.heapAllocateAlign_found lt sum given
  obtain ⟨h', found, shape⟩ :=
    heapAlignFound_spec (requestSize c n) core mem lt fits (requestSize_aligned c n) room
  rw [value] at found
  obtain ⟨rfl, rfl⟩ : p = a + c.segmentBlockSizeAlign + segmentGap c a k ∧ h₁ = h' := by
    simpa using found
  rcases shape with ⟨_, new, free₁, taken, holds⟩ | ⟨wide, h₀, free₀, h₀_eq, perm, _, new, free₁,
    taken, holds⟩
  · have undone := taken.undoes core mem unmerged (holds 0 (by omega))
    exact undone
  · obtain ⟨_, fresh, rear, front, _, _, _, keep⟩ := heapSplitFront_spec core mem
      (segmentGap c a k) (by omega) (by omega) (segmentGap_aligned core (core.free_mem a mem) k)
    rw [← h₀_eq] at rear front keep
    have place : a + segmentGap c a k ∈ (s ++ [a]) ++ (a + segmentGap c a k) :: (new ++ t) := by
      simp
    have changed : ¬Restored h h₁ (s ++ a :: t) := by
      intro restored
      have count := restored.counter
      rw [taken.core.counter, core.counter] at count
      simp only [List.length_append, List.length_cons, List.length_nil] at count
      omega
    have back : Restored h (heapRelease c h₁ (a + segmentGap c a k)) (s ++ a :: t) := by
      obtain ⟨s', l, t', free₂, freed⟩ := heapRelease_freed taken.core taken.used
      exact taken.undone_front freed core mem unmerged perm fresh front (by omega) keep
    have undone := undoes_of taken.core place taken.used (holds 0 (by omega)) changed back
    exact undone

/-- A release right after an allocation restores the segment map and the counters if and
only if it takes the lock and, in verify mode, finds the pointer in the range it tests. -/
theorem free_restores_iff (c : Config) (g : Ground) (h : Heap) (segs free : List Nat)
    (core : Core c g h segs free) (unmerged : Unmerged c h segs free) (n : Nat)
    (room : c.markSize ≤ requestSize c n) (ulLockErr : Bool) :
    (∀ p h₁, heapAllocate c h n ulLockErr = (some p, h₁) → Undoes c h h₁ segs p) ∧
    ∀ k, 2 ^ k < c.modulus → (∀ a ∈ free, requestSize c n + segmentGap c a k < c.modulus) →
      ∀ p h₁, heapAllocateAlign c h n (2 ^ k) ulLockErr = (some p, h₁) →
        Undoes c h h₁ segs p :=
  ⟨fun _ _ => undoes_allocate core unmerged room,
    fun _ lt sum _ _ => undoes_allocateAlign core unmerged room lt sum⟩

theorem free_restores_one_page :
    Restored (heapCtorEx ⟨.w64, true⟩ blankHeap 0x1000 0x1000)
      (heapFree ⟨.w64, true⟩ (heapAllocate ⟨.w64, true⟩
        (heapCtorEx ⟨.w64, true⟩ blankHeap 0x1000 0x1000) 100 false).2 (some 0x1030) true false).2
      [0x1000] ∧
    Restored (heapCtorEx ⟨.w64, true⟩ blankHeap 0x1000 0x1000)
      (heapFree ⟨.w64, true⟩ (heapAllocateAlign ⟨.w64, true⟩
        (heapCtorEx ⟨.w64, true⟩ blankHeap 0x1000 0x1000) 100 (2 ^ 8) false).2 (some 0x1100) false
        false).2 [0x1000] :=
  have region : Region ⟨.w64, true⟩ 0x1000 0x1000 := ⟨by decide, by decide, by decide⟩
  have both := free_restores_iff ⟨.w64, true⟩ _ _ _ _ (heapCtorEx_core (h := blankHeap) region)
    (List.isChain_singleton _) 100 (by decide) false
  ⟨(both.1 0x1030 _ (Prod.ext (by decide +kernel) rfl) true false).mpr
      ⟨rfl, fun _ => by decide +kernel⟩,
    (both.2 8 (by decide) (by decide) 0x1100 _ (Prod.ext (by decide +kernel) rfl) false false).mpr
      ⟨rfl, fun e => absurd e (by decide)⟩⟩

/-- In memory added farther off, verify mode releases nothing. -/
theorem free_restores_not_far_off :
    ¬ ∀ (c : Config) (g : Ground) (h : Heap) (segs free : List Nat), Core c g h segs free →
      Unmerged c h segs free → ∀ n, n + c.markSize + 15 < c.modulus → ∀ p h₁,
        heapAllocate c h n false = (some p, h₁) → ∀ bIsNeedVerify,
          Restored h (heapFree c h₁ (some p) bIsNeedVerify false).2 segs := by
  intro all
  have region : Region ⟨.w64, false⟩ 0x1000 0x100 := ⟨by decide, by decide, by decide⟩
  have added : Region ⟨.w64, false⟩ 0x100000 0x1000 := ⟨by decide, by decide, by decide⟩
  obtain ⟨h, free, grown, _, _, core, _⟩ :=
    heapAddMemory_spec (heapCtorEx_core (h := blankHeap) region) added fun y old new => by
      have low := region.mem_range old
      have high := added.mem_range new
      omega
  obtain rfl : h = (heapAddMemory ⟨.w64, false⟩ (heapCtorEx ⟨.w64, false⟩ blankHeap 0x1000 0x100)
      0x100000 0x1000 false).2 := (congrArg Prod.snd grown).symm
  have gap : 0x1000 + (⟨.w64, false⟩ : Config).segmentBlockSizeAlign +
      (heapAddMemory ⟨.w64, false⟩ (heapCtorEx ⟨.w64, false⟩ blankHeap 0x1000 0x100)
        0x100000 0x1000 false).2.stByteSize 0x1000 ≠ 0x100000 := by decide +kernel
  have restored := all _ _ _ [0x1000, 0x100000] free core
    (List.isChain_cons_cons.mpr ⟨fun _ _ => gap, List.isChain_singleton _⟩) 300 (by decide)
    0x100030 _ (Prod.ext (by decide +kernel) rfl) true
  have state := restored.state 0x100000 (by decide)
  revert state
  decide +kernel

end SylixOS.HeapLib
