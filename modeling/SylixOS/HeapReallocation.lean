import SylixOS.HeapAllocation
import SylixOS.HeapRelease

/-! Reallocation against the invariant. In place, the segment takes over its free right
neighbour when it has to grow, and is cut at the wanted size; otherwise a new block is
allocated and the old released. -/

namespace SylixOS.HeapLib
open LinkedChain ListLink IntervalTiling

variable {c : Config} {g : Ground}

def Resized (c : Config) (g : Ground) (h : Heap) (segs free : List Nat) (a : Nat) (h' : Heap)
    (b : Block) : Prop :=
  ∃ segs' free' a', Core c g h' segs' free' ∧
    (Separated g free segs → Separated g free' segs') ∧ a' ∈ segs' ∧ a' ∉ free' ∧
    Holds c h' a' b ∧
    ∀ u ∈ segs, u ∉ free → u ≠ a → u ≠ a' ∧ u ∈ segs' ∧ u ∉ free' ∧ Keeps c h h' u

def KeepsFirst (c : Config) (h h' : Heap) (a n : Nat) : Prop :=
  ∀ y, a + c.segmentBlockSizeAlign ≤ y → y < a + c.segmentBlockSizeAlign + n → ¬Stored c h h' y

theorem KeepsFirst.trans {h h' h'' : Heap} {a n : Nat} (first : KeepsFirst c h h' a n)
    (second : KeepsFirst c h' h'' a n) : KeepsFirst c h h'' a n := by
  intro y lo hi stored
  rcases stored.cases h' with early | late
  · exact first y lo hi early
  · exact second y lo hi late

theorem KeepsFirst.mono {h h' : Heap} {a n k : Nat} (kept : KeepsFirst c h h' a n) (le : k ≤ n) :
    KeepsFirst c h h' a k := by
  intro y lo hi
  exact kept y lo (by omega)

theorem Keeps.first {h h' : Heap} {a n : Nat} (keeps : Keeps c h h' a) (le : n ≤ h.stByteSize a) :
    KeepsFirst c h h' a n := by
  intro y lo hi
  exact keeps.2 y lo (by omega)

theorem KeepsFirst.mark {h : Heap} {segs free : List Nat} {a n : Nat} (core : Core c g h segs free)
    (mem : a ∈ segs) (room : n + c.markSize ≤ h.stByteSize a) :
    KeepsFirst c h (heapCrossbordMark c h a) a n := by
  rw [heapCrossbordMark_eq core mem]
  split
  next enabled =>
    simp only [Config.markSize, enabled, if_true] at room
    rintro y lo hi ⟨x, m, change, first, last⟩
    have header := c.segmentBlockSizeAlign_eq
    cases m with
    | stMagic =>
      have spot : x = a + h.stByteSize a := by
        by_contra apart
        refine change ?_
        simp [Heap.member, Heap.setMagic, apart]
      change x + 5 * c.sizeofSizeT ≤ y at first
      omega
    | lineNext => exact change rfl
    | linePrev => exact change rfl
    | ringNext => exact change rfl
    | ringPrev => exact change rfl
    | stByteSize => exact change rfl
  next => exact fun y _ _ => SameMembers.not_stored (fun x => SameMembers.refl h x) y

theorem Core.cutUsed {h : Heap} {s t free : List Nat} {a st rest : Nat}
    (core : Core c g h (s ++ a :: t) free) (used : a ∉ free)
    (whole : h.stByteSize a = st + c.segmentBlockSizeAlign + rest)
    (st_aligned : c.heapAlignment ∣ st) :
    Core c g
      { h.cut a (a + c.segmentBlockSizeAlign + st) st rest with
        ringFreeList := initListRingHead h.ringFreeList (a + c.segmentBlockSizeAlign + st)
        ulSegmentCounter := c.add h.ulSegmentCounter 1 }
      (s ++ a :: (a + c.segmentBlockSizeAlign + st) :: t) free ∧
    a + c.segmentBlockSizeAlign + st ∉ s ++ a :: t ∧
    ∀ x ∉ s ++ a :: (a + c.segmentBlockSizeAlign + st) :: t, SameMembers h
      { h.cut a (a + c.segmentBlockSizeAlign + st) st rest with
        ringFreeList := initListRingHead h.ringFreeList (a + c.segmentBlockSizeAlign + st)
        ulSegmentCounter := c.add h.ulSegmentCounter 1 } x := by
  have pos := c.segmentBlockSizeAlign_pos
  have fresh := core.toLayout.cut_fresh whole
  obtain ⟨cut, frame⟩ := core.toLayout.cut whole st_aligned
  generalize hn : a + c.segmentBlockSizeAlign + st = n at fresh cut frame ⊢
  have nfree : n ∉ free := fun e => fresh (core.free_mem n e)
  have ringKeep : ∀ x, x ≠ n →
      (initListRingHead h.ringFreeList n).next x = h.ringFreeList.next x ∧
      (initListRingHead h.ringFreeList n).prev x = h.ringFreeList.prev x := by
    intro x hx
    rw [initListRingHead_next, if_neg hx, initListRingHead_prev, if_neg hx]
    exact ⟨rfl, rfl⟩
  refine ⟨⟨?_, ?_, ?_, ?_, core.total⟩, fresh, ?_⟩
  · refine { cut with ring := ?_ }
    refine core.ring.congr ?_
    intro x hx
    exact ringKeep x fun e => nfree (e ▸ hx)
  · intro x hx hf
    by_cases hxn : x = n
    · rw [hxn]
      exact (initListRingHead_prev _ _ _).trans (if_pos rfl)
    · have mem : x ∈ s ++ a :: t := by
        simp only [List.mem_append, List.mem_cons] at hx ⊢
        tauto
      exact (ringKeep x hxn).2.trans (core.used x mem hf)
  · have count := core.counter
    have up := cut.counter_up (k := h.ulSegmentCounter) (by
      rw [count]
      simp only [List.length_append, List.length_cons]
      omega)
    change c.add h.ulSegmentCounter 1 = _
    simp only [List.length_append, List.length_cons] at count ⊢
    omega
  · have keep : (free.map (h.cut a n st rest).stByteSize).sum = (free.map h.stByteSize).sum := by
      refine sum_congr ?_
      intro x hx
      exact cut_stByteSize_other (fun e => used (e ▸ hx)) (fun e => nfree (e ▸ hx))
    change h.stFreeByteSize = _
    rw [core.freeBytes]
    exact keep.symm
  · intro x hx
    have hxn : x ≠ n := fun e => hx (by simp [e])
    obtain ⟨line, _, rest⟩ := sameMembers_iff.mp (frame x hx)
    exact sameMembers_iff.mpr ⟨line, ringKeep x hxn, rest⟩

theorem resized_of_mark {h h' : Heap} {segs free segs' free' : List Nat} {a n : Nat}
    (core : Core c g h' segs' free') (sep : Separated g free segs → Separated g free' segs')
    (mem : a ∈ segs') (used : a ∉ free') (room : n + c.markSize ≤ h'.stByteSize a)
    (keep : ∀ u ∈ segs, u ∉ free → u ≠ a → u ∈ segs' ∧ u ∉ free' ∧ Keeps c h h' u)
    (own : KeepsFirst c h h' a n) :
    Resized c g h segs free a (heapCrossbordMark c h'.updataMaxUsed a)
      ⟨a + c.segmentBlockSizeAlign, n⟩ ∧
    KeepsFirst c h (heapCrossbordMark c h'.updataMaxUsed a) a n := by
  have served : Holds c h'.updataMaxUsed a ⟨a + c.segmentBlockSizeAlign, n⟩ := by
    refine ⟨le_refl _, ?_, Or.inl rfl⟩
    change a + c.segmentBlockSizeAlign + n + c.markSize ≤
      a + c.segmentBlockSizeAlign + h'.stByteSize a
    omega
  have filled : c.crossBorderEn = true → 0 < h'.updataMaxUsed.stByteSize a := by
    intro enabled
    have size := c.sizeofSizeT_pos
    simp only [Config.markSize, enabled, if_true] at room
    change 0 < h'.stByteSize a
    omega
  have counted := core.updataMaxUsed
  obtain ⟨marked, _, others⟩ := heapCrossbordMark_spec counted mem filled
  have same : Keeps c h' h'.updataMaxUsed a := Keeps.of_same (fun _ _ => rfl) a
  refine ⟨⟨segs', free', a, marked, sep, mem, used, served.mark counted mem, ?_⟩,
    (own.trans (same.first (by omega))).trans (KeepsFirst.mark counted mem room)⟩
  intro u hu huf hua
  obtain ⟨hu', huf', kept⟩ := keep u hu huf hua
  have kept' : Keeps c h' h'.updataMaxUsed u := Keeps.of_same (fun _ _ => rfl) u
  exact ⟨hua, hu', huf', (kept.trans kept').trans (others u hu' hua)⟩

theorem heapSplitSegment_spec {h : Heap} {segs free : List Nat} {a stSize n : Nat}
    (core : Core c g h segs free) (mem : a ∈ segs) (used : a ∉ free)
    (fits : stSize ≤ h.stByteSize a) (st_aligned : c.heapAlignment ∣ stSize)
    (asked : n + c.markSize ≤ stSize) (err : LockErr) :
    ∃ h', heapSplitSegment c h a stSize err = (some (a + c.segmentBlockSizeAlign), h') ∧
      Resized c g h segs free a h' ⟨a + c.segmentBlockSizeAlign, n⟩ ∧ KeepsFirst c h h' a n := by
  have bound := core.bounds a mem
  have data := core.dataPtr_eq mem
  have rest_eq : c.sub (h.stByteSize a) stSize = h.stByteSize a - stSize :=
    Config.sub_eq fits (by omega)
  unfold heapSplitSegment
  simp only [rest_eq, data]
  split
  next =>
    refine ⟨_, rfl, resized_of_mark core id mem used (by omega) ?_ ?_⟩
    · exact fun u hu huf _ => ⟨hu, huf, Keeps.refl h u⟩
    · exact (Keeps.refl h a).first (by omega)
  next wide =>
    obtain ⟨s, t, rfl⟩ := List.append_of_mem mem
    obtain ⟨rest, whole⟩ : ∃ rest, h.stByteSize a = stSize + c.segmentBlockSizeAlign + rest :=
      ⟨h.stByteSize a - stSize - c.segmentBlockSizeAlign, by omega⟩
    have restSize : c.sub (h.stByteSize a - stSize) c.segmentBlockSizeAlign = rest := by
      rw [Config.sub_eq (by omega) (by omega)]
      omega
    have new_eq : c.add (a + c.segmentBlockSizeAlign) stSize =
        a + c.segmentBlockSizeAlign + stSize := Config.add_eq (by omega)
    obtain ⟨cut, fresh, writes⟩ := core.cutUsed used whole st_aligned
    rw [restSize, new_eq]
    generalize hn : a + c.segmentBlockSizeAlign + stSize = m at cut fresh writes ⊢
    have hma : m ≠ a := by
      have pos := c.segmentBlockSizeAlign_pos
      omega
    generalize hcut : ({ h.cut a m stSize rest with
        ringFreeList := initListRingHead h.ringFreeList m
        ulSegmentCounter := c.add h.ulSegmentCounter 1 } : Heap) = h₁ at cut writes
    have value : (((Heap.lineAddTail
        { ((h.setByteSize a stSize).setByteSize m rest).setMagic m segMagicReal with
          ringFreeList := initListRingHead
            (((h.setByteSize a stSize).setByteSize m rest).setMagic m segMagicReal).ringFreeList m }
        m a)).countUp c) = h₁ := by
      rw [← hcut]
      rfl
    have mfree : m ∉ free := fun e => fresh (core.free_mem m e)
    have mmem : m ∈ s ++ a :: m :: t := by simp
    have amem : a ∈ s ++ a :: m :: t := by simp
    have size_m : h₁.stByteSize m = rest := by
      rw [← hcut]
      exact cut_stByteSize_new
    have size_a : h₁.stByteSize a = stSize := by
      rw [← hcut]
      exact cut_stByteSize_old hma
    have size_of : ∀ u, u ≠ a → u ≠ m → h₁.stByteSize u = h.stByteSize u := by
      intro u hua hum
      rw [← hcut]
      exact cut_stByteSize_other hua hum
    have filled : c.crossBorderEn = true → 0 < h₁.stByteSize m := by
      intro _
      rw [size_m]
      simp only [heapSegMinSize] at wide
      omega
    obtain ⟨marked, sizes, others⟩ := heapCrossbordMark_spec cut mmem filled
    have sepCut : Separated g free (s ++ a :: t) → Separated g free (s ++ a :: m :: t) := by
      intro sep
      obtain ⟨left, right⟩ := (separated_around used).mp sep
      exact (separated_around used).mpr ⟨left, (separated_around (s := []) mfree).mpr
        ⟨List.isChain_nil, right⟩⟩
    have served : Holds c (heapCrossbordMark c h₁ m) m ⟨m + c.segmentBlockSizeAlign,
        rest - c.markSize⟩ := by
      refine Holds.mark cut mmem ⟨le_refl _, ?_, Or.inl rfl⟩
      have word := c.sizeofSizeT_le
      have room : c.markSize ≤ rest := by
        simp only [heapSegMinSize] at wide
        have cap : c.markSize ≤ 16 := by
          obtain ⟨w, x⟩ := c
          cases w <;> cases x <;> decide
        omega
      rw [size_m]
      change m + c.segmentBlockSizeAlign + (rest - c.markSize) + c.markSize ≤ _
      omega
    have kept : ∀ u ∈ s ++ a :: t, u ≠ a →
        u ∈ s ++ a :: m :: t ∧ u ≠ m ∧ Keeps c h (heapCrossbordMark c h₁ m) u := by
      intro u hu hua
      have hum : u ≠ m := fun e => fresh (e ▸ hu)
      have umem : u ∈ s ++ a :: m :: t := by
        simp only [List.mem_append, List.mem_cons] at hu ⊢
        tauto
      have size_u := size_of u hua hum
      exact ⟨umem, hum, (cut.keeps writes umem size_u size_u).trans (others u umem hum)⟩
    have own : KeepsFirst c h (heapCrossbordMark c h₁ m) a n := by
      have ownCut : KeepsFirst c h h₁ a n := fun y lo hi =>
        cut.data_kept writes amem lo (by omega)
      exact ownCut.trans ((others a amem hma.symm).first (by omega))
    simp only [value]
    rw [cut.dataPtr_eq mmem]
    refine ⟨_, rfl, ?_⟩
    rcases heapFree_spec marked mmem mfree served false err.free with same | ⟨h₂, freed,
      segs', free', core', sep', keep'⟩
    · rw [same]
      refine resized_of_mark marked sepCut amem used (by rw [sizes, size_a]; exact asked) ?_ own
      intro u hu huf hua
      obtain ⟨hu', _, keeps⟩ := kept u hu hua
      exact ⟨hu', huf, keeps⟩
    · rw [freed]
      obtain ⟨amem', afree', akeep⟩ := keep' a amem used hma.symm
      refine resized_of_mark core' (fun sep => sep' (sepCut sep)) amem' afree' ?_ ?_ ?_
      · rw [akeep.1, sizes, size_a]
        exact asked
      · intro u hu huf hua
        obtain ⟨hu', hum, keeps⟩ := kept u hu hua
        obtain ⟨hu'', huf'', keep''⟩ := keep' u hu' huf hum
        exact ⟨hu'', huf'', keeps.trans keep''⟩
      · exact own.trans (akeep.first (by rw [sizes, size_a]; omega))

theorem Resized.of_keeps {h h₁ h' : Heap} {segs segs₁ free free₁ : List Nat} {a : Nat} {b : Block}
    (resized : Resized c g h₁ segs₁ free₁ a h' b)
    (sep : Separated g free segs → Separated g free₁ segs₁)
    (keep : ∀ u ∈ segs, u ∉ free → u ≠ a → u ∈ segs₁ ∧ u ∉ free₁ ∧ Keeps c h h₁ u) :
    Resized c g h segs free a h' b := by
  obtain ⟨segs', free', a', core, sep', mem, used, holds, rest⟩ := resized
  refine ⟨segs', free', a', core, fun e => sep' (sep e), mem, used, holds, ?_⟩
  intro u hu huf hua
  obtain ⟨hu₁, huf₁, keep₁⟩ := keep u hu huf hua
  obtain ⟨hua', hu', huf', keep'⟩ := rest u hu₁ huf₁ hua
  exact ⟨hua', hu', huf', keep₁.trans keep'⟩

theorem Resized.updataMaxUsed {h h' : Heap} {segs free : List Nat} {a : Nat} {b : Block}
    (resized : Resized c g h segs free a h' b) : Resized c g h segs free a h'.updataMaxUsed b := by
  obtain ⟨segs', free', a', core, sep, mem, used, holds, rest⟩ := resized
  refine ⟨segs', free', a', core.updataMaxUsed, sep, mem, used, holds, ?_⟩
  intro u hu huf hua
  obtain ⟨hua', hu', huf', keep⟩ := rest u hu huf hua
  exact ⟨hua', hu', huf', keep.trans (Keeps.of_same (fun _ _ => rfl) u)⟩

theorem resized_of_grow {h : Heap} {s t free : List Nat} {a r stSize n : Nat}
    (core : Core c g h (s ++ a :: r :: t) free)
    (touch : a + c.segmentBlockSizeAlign + h.stByteSize a = r)
    (used : a ∉ free) (rfree : r ∈ free)
    (fits : stSize ≤ h.stByteSize a + c.segmentBlockSizeAlign + h.stByteSize r)
    (st_aligned : c.heapAlignment ∣ stSize) (asked : n + c.markSize ≤ stSize) (err : LockErr) :
    ∃ h', heapSplitSegment c
        ((((((h.ringDel r).lineDel r).setByteSize a (h.stByteSize a + c.segmentBlockSizeAlign +
          h.stByteSize r)).countDown c).accountUsed c (h.stByteSize r))) a stSize err =
        (some (a + c.segmentBlockSizeAlign), h') ∧
      Resized c g h (s ++ a :: r :: t) free a h' ⟨a + c.segmentBlockSizeAlign, n⟩ ∧
      KeepsFirst c h h' a (min (h.stByteSize a) n) := by
  obtain ⟨_, _, erase_iff, _, _, writes, others⟩ := core.absorb touch rfree rfl
  have grown := core.grow touch used rfree rfl
  have bytes := Layout.size_le_sum (h := h) rfree
  have freeBytes := core.freeBytes
  have value : (((((h.ringDel r).lineDel r).setByteSize a (h.stByteSize a +
      c.segmentBlockSizeAlign + h.stByteSize r)).countDown c).accountUsed c (h.stByteSize r)) =
      { (h.ringDel r).swallow a r
          (h.stByteSize a + c.segmentBlockSizeAlign + h.stByteSize r) with
        ulSegmentCounter := c.sub h.ulSegmentCounter 1
        stUsedByteSize := h.stUsedByteSize + h.stByteSize r
        stFreeByteSize := h.stFreeByteSize - h.stByteSize r } := by
    rw [accountUsed_eq]
    · rfl
    · change _ ≤ h.stFreeByteSize
      omega
    · exact core.free_lt
  have aleft : a ∉ free.erase r := fun e => used ((erase_iff a).mp e).1
  have sep' : Separated g free (s ++ a :: r :: t) → Separated g (free.erase r) (s ++ a :: t) := by
    intro sep
    obtain ⟨left, right⟩ := (separated_around used).mp sep
    have rest := ((separated_cons_free rfree).mp right).2
    refine (separated_around aleft).mpr ⟨left.mono ?_, rest.mono ?_⟩
    · exact fun x _ hx => ((erase_iff x).mp hx).1
    · exact fun x _ hx => ((erase_iff x).mp hx).1
  have size_a : ((h.ringDel r).swallow a r
      (h.stByteSize a + c.segmentBlockSizeAlign + h.stByteSize r)).stByteSize a =
      h.stByteSize a + c.segmentBlockSizeAlign + h.stByteSize r :=
    swallow_stByteSize.trans (if_pos rfl)
  obtain ⟨h', split, resized, own⟩ :=
    heapSplitSegment_spec grown (by simp) aleft (fits.trans size_a.ge) st_aligned asked err
  have writes' : ∀ x ∉ s ++ a :: r :: t, SameMembers h
      { (h.ringDel r).swallow a r
          (h.stByteSize a + c.segmentBlockSizeAlign + h.stByteSize r) with
        ulSegmentCounter := c.sub h.ulSegmentCounter 1
        stUsedByteSize := h.stUsedByteSize + h.stByteSize r
        stFreeByteSize := h.stFreeByteSize - h.stByteSize r } x := writes
  have ownGrown : KeepsFirst c h
      { (h.ringDel r).swallow a r
          (h.stByteSize a + c.segmentBlockSizeAlign + h.stByteSize r) with
        ulSegmentCounter := c.sub h.ulSegmentCounter 1
        stUsedByteSize := h.stUsedByteSize + h.stByteSize r
        stFreeByteSize := h.stFreeByteSize - h.stByteSize r } a (h.stByteSize a) :=
    fun y lo hi => core.data_kept writes' (by simp) lo hi
  rw [value]
  refine ⟨h', split, resized.of_keeps sep' ?_,
    (ownGrown.mono (Nat.min_le_left _ _)).trans (own.mono (Nat.min_le_right _ _))⟩
  intro u hu huf hua
  have hur : u ≠ r := fun e => huf (e ▸ rfree)
  have around : u ∈ s ++ t := by
    simp only [List.mem_append, List.mem_cons] at hu ⊢
    tauto
  refine ⟨?_, fun e => huf ((erase_iff u).mp e).1, core.keeps writes' hu rfl ?_⟩
  · simp only [List.mem_append, List.mem_cons] at around ⊢
    tauto
  · exact swallow_stByteSize.trans (if_neg hua)

theorem resized_of_move {h h₁ : Heap} {segs free : List Nat} {a st n q : Nat} {b : Block}
    (mem : a ∈ segs) (used : a ∉ free) (holds : Holds c h a b)
    (granted : Granted c g h segs free h₁ ⟨q, st⟩) (le : n ≤ st) (ulLockErr : Bool) :
    Resized c g h segs free a (heapFree c h₁ (some b.ptr) false ulLockErr).2 ⟨q, n⟩ := by
  obtain ⟨segs₁, free₁, a₁, core₁, sep₁, mem₁, used₁, holds₁, rest₁⟩ := granted
  obtain ⟨apart, amem, aused, akeep⟩ := rest₁ a mem used
  have smaller : ∀ h', Holds c h' a₁ ⟨q, st⟩ → Holds c h' a₁ ⟨q, n⟩ := by
    rintro h' ⟨lo, hi, lead⟩
    refine ⟨lo, ?_, lead⟩
    simp only at hi ⊢
    omega
  rcases heapFree_spec core₁ amem aused (holds.keep akeep) false ulLockErr with same |
    ⟨h₂, freed, segs₂, free₂, core₂, sep₂, rest₂⟩
  · rw [same]
    refine ⟨segs₁, free₁, a₁, core₁, sep₁, mem₁, used₁, smaller _ holds₁, ?_⟩
    exact fun u hu huf _ => rest₁ u hu huf
  · rw [freed]
    obtain ⟨mem₂, used₂, keep₂⟩ := rest₂ a₁ mem₁ used₁ apart.symm
    refine ⟨segs₂, free₂, a₁, core₂, fun sep => sep₂ (sep₁ sep), mem₂, used₂,
      smaller _ (holds₁.keep keep₂), ?_⟩
    intro u hu huf hua
    obtain ⟨hua₁, hu₁, huf₁, keep₁⟩ := rest₁ u hu huf
    obtain ⟨hu₂, huf₂, keep₂⟩ := rest₂ u hu₁ huf₁ hua
    exact ⟨hua₁, hu₂, huf₂, keep₁.trans keep₂⟩

def heapCanGrow (c : Config) (h : Heap) (psegment stSize psegmentRight : Nat) : Bool :=
  !segmentIsUsed h psegmentRight && nextPtr c h psegment == psegmentRight &&
    c.sub stSize (h.stByteSize psegment) ≤
      c.add (h.stByteSize psegmentRight) c.segmentBlockSizeAlign

def heapReallocMoves (c : Config) (h : Heap) (p stNewByteSize : Nat) (bIsNeedVerify : Bool)
    (err : LockErr) : Option Nat :=
  if stNewByteSize = 0 ∨ err.realloc then none
  else
    (heapSegmentOf c h p bIsNeedVerify).filter fun psegment =>
      p = dataPtr c psegment ∧ h.stByteSize psegment < requestSize c stNewByteSize ∧
        (h.lineManage.next psegment).filter
          (heapCanGrow c h psegment (requestSize c stNewByteSize)) = none

theorem heapRealloc_cases {h : Heap} {segs free : List Nat} {a n : Nat} {b : Block}
    (core : Core c g h segs free) (mem : a ∈ segs) (used : a ∉ free)
    (holds : Holds c h a b) (some_bytes : n ≠ 0) (noWrap : n + c.markSize + 15 < c.modulus)
    (moveNoWrap : requestSize c n + c.markSize + 15 < c.modulus)
    (bIsNeedVerify : Bool) (err : LockErr) :
    ((heapReallocMoves c h b.ptr n bIsNeedVerify err = none ∨
        (heapAllocate c h (requestSize c n) err.allocate).1 = none) ∧
      ∃ h', heapRealloc c h (some b.ptr) n bIsNeedVerify err = (none, h') ∧
        (h' = h ∨ h' = h.updataMaxUsed)) ∨
    (b.ptr = a + c.segmentBlockSizeAlign ∧
      heapReallocMoves c h b.ptr n bIsNeedVerify err = none ∧
      ∃ h', heapRealloc c h (some b.ptr) n bIsNeedVerify err = (some b.ptr, h') ∧
        Resized c g h segs free a h' ⟨b.ptr, n⟩ ∧
        KeepsFirst c h h' a (min (h.stByteSize a) n)) ∨
    (b.ptr = a + c.segmentBlockSizeAlign ∧ h.stByteSize a < requestSize c n ∧
      heapReallocMoves c h b.ptr n bIsNeedVerify err = some a ∧
      ∃ q h₁, heapAllocate c h (requestSize c n) err.allocate = (some q, h₁) ∧
        Granted c g h segs free h₁ ⟨q, requestSize c n⟩ ∧
        heapRealloc c h (some b.ptr) n bIsNeedVerify err =
          (some q, (heapFree c h₁ (some b.ptr) false err.free).2.updataMaxUsed)) := by
  obtain ⟨asked, _⟩ := requestSize_spec noWrap
  have st_aligned := requestSize_aligned c n
  have bound := core.bounds a mem
  have data := core.dataPtr_eq mem
  unfold heapRealloc heapReallocMoves
  simp only [some_bytes, if_false, false_or]
  rw [show c.roundUp (heapCrossbordSize c n) heapSegMinSize = requestSize c n from rfl]
  generalize requestSize c n = stSize at asked st_aligned moveNoWrap ⊢
  by_cases locked : err.realloc = true
  · rw [if_pos locked, if_pos locked]
    exact Or.inl ⟨Or.inl rfl, h, rfl, Or.inl rfl⟩
  · rw [if_neg locked, if_neg locked, heapSegmentOf_spec core mem used holds]
    by_cases accepted : bIsNeedVerify = true → InRange c h b.ptr
    · rw [if_pos accepted]
      simp only
      by_cases start : b.ptr = dataPtr c a
      · rw [if_neg (not_not.mpr start)]
        have ptr : b.ptr = a + c.segmentBlockSizeAlign := start.trans data
        by_cases same : stSize = h.stByteSize a
        · rw [if_pos same]
          refine Or.inr (Or.inl ⟨ptr, ?_, h, rfl, ⟨segs, free, a, core, id, mem, used, ?_, ?_⟩, ?_⟩)
          · simp [same]
          · refine ⟨holds.1, ?_, Or.inl ptr⟩
            simp only
            omega
          · exact fun u hu huf hua => ⟨hua, hu, huf, Keeps.refl h u⟩
          · exact (Keeps.refl h a).first (Nat.min_le_left _ _)
        · rw [if_neg same]
          by_cases larger : stSize > h.stByteSize a
          · rw [if_pos larger]
            rw [show (fun psegmentRight => !segmentIsUsed h psegmentRight &&
              nextPtr c h a == psegmentRight && decide (c.sub stSize (h.stByteSize a) ≤
                c.add (h.stByteSize psegmentRight) c.segmentBlockSizeAlign)) =
              heapCanGrow c h a stSize from rfl]
            cases right : (h.lineManage.next a).filter (heapCanGrow c h a stSize) with
            | some r =>
              obtain ⟨next, test⟩ := Option.filter_eq_some_iff.mp right
              obtain ⟨s, t, rfl⟩ := List.append_of_mem mem
              rw [core.line.split.2] at next
              obtain ⟨t', rfl⟩ : ∃ t', t = r :: t' := by
                cases t with
                | nil => simp at next
                | cons x t' => exact ⟨t', by rw [show x = r by simpa using next]⟩
              have rmem : r ∈ s ++ a :: r :: t' := by simp
              have rbound := core.bounds r rmem
              simp only [heapCanGrow, Bool.and_eq_true, Bool.not_eq_true', beq_iff_eq,
                decide_eq_true_eq] at test
              obtain ⟨⟨rused, touches⟩, wide⟩ := test
              have rfree := (core.mem_free_iff rmem).mp rused
              have touch : a + c.segmentBlockSizeAlign + h.stByteSize a = r :=
                (core.nextPtr_eq mem).symm.trans touches
              have inner : c.add (h.stByteSize r) c.segmentBlockSizeAlign =
                  h.stByteSize r + c.segmentBlockSizeAlign := Config.add_eq (by omega)
              have grown : c.add (h.stByteSize a) (h.stByteSize r + c.segmentBlockSizeAlign) =
                  h.stByteSize a + c.segmentBlockSizeAlign + h.stByteSize r := by
                rw [Config.add_eq (by omega)]
                omega
              have fits : stSize ≤ h.stByteSize a + c.segmentBlockSizeAlign + h.stByteSize r := by
                rw [inner, Config.sub_eq (by omega) (by omega)] at wide
                omega
              obtain ⟨h', split, resized, own⟩ :=
                resized_of_grow core touch used rfree fits st_aligned asked err
              refine Or.inr (Or.inl ⟨ptr, ?_, h', ?_, ptr ▸ resized, own⟩)
              · simp only [right, Option.filter_some]
                simp
              · rw [ptr, ← split]
                simp only [Heap.ringDel, Heap.lineDel, inner, grown]
            | none =>
              rcases heapAllocate_spec core moveNoWrap err.allocate with failed |
                ⟨q, h₁, moved, granted⟩
              · simp only [failed]
                exact Or.inl ⟨Or.inr trivial, _, rfl, Or.inr rfl⟩
              · simp only [moved]
                refine Or.inr (Or.inr ⟨ptr, larger, ?_, q, h₁, rfl, granted, ?_⟩)
                · simp only [right, Option.filter_some]
                  simp [start, larger]
                · rw [start]
          · rw [if_neg larger]
            obtain ⟨h', split, resized, own⟩ := heapSplitSegment_spec core mem used
              (by omega : stSize ≤ h.stByteSize a) st_aligned asked err
            refine Or.inr (Or.inl ⟨ptr, ?_, h', ?_, ptr ▸ resized, own.mono (Nat.min_le_right _ _)⟩)
            · simp [larger]
            · rw [split, ptr]
      · rw [if_pos start]
        exact Or.inl ⟨Or.inl (by simp [start]), h, rfl, Or.inl rfl⟩
    · rw [if_neg accepted]
      exact Or.inl ⟨Or.inl rfl, h, rfl, Or.inl rfl⟩

theorem heapRealloc_spec {h : Heap} {segs free : List Nat} {a n : Nat} {b : Block}
    (core : Core c g h segs free) (mem : a ∈ segs) (used : a ∉ free)
    (holds : Holds c h a b) (some_bytes : n ≠ 0) (noWrap : n + c.markSize + 15 < c.modulus)
    (moveNoWrap : requestSize c n + c.markSize + 15 < c.modulus)
    (bIsNeedVerify : Bool) (err : LockErr) :
    (∃ h', heapRealloc c h (some b.ptr) n bIsNeedVerify err = (none, h') ∧
      (h' = h ∨ h' = h.updataMaxUsed)) ∨
    ∃ q h', heapRealloc c h (some b.ptr) n bIsNeedVerify err = (some q, h') ∧
      Resized c g h segs free a h' ⟨q, n⟩ := by
  have asked := (requestSize_spec noWrap).1
  rcases heapRealloc_cases core mem used holds some_bytes noWrap moveNoWrap bIsNeedVerify err with
    ⟨_, kept⟩ | ⟨_, _, h', value, resized, _⟩ | ⟨_, _, _, q, h₁, _, granted, value⟩
  · exact Or.inl kept
  · exact Or.inr ⟨_, h', value, resized⟩
  · have le : n ≤ requestSize c n := by omega
    exact Or.inr ⟨q, _, value, (resized_of_move mem used holds granted le err.free).updataMaxUsed⟩

end SylixOS.HeapLib
