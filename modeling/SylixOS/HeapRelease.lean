import SylixOS.HeapInvariant

/-! Release of a segment with its merges against the invariant. The left half may
hand the segment to a free left neighbour, the right half takes over a free right
neighbour, and the segment they leave has no free neighbour any more. -/

namespace SylixOS.HeapLib
open LinkedChain ListLink IntervalTiling

variable {c : Config} {g : Ground}

structure Freed (c : Config) (g : Ground) (h : Heap) (s t free : List Nat) (a : Nat) (h' : Heap)
    (s' : List Nat) (l : Nat) (t' free' : List Nat) : Prop where
  core : Core c g h' (s' ++ l :: t') free'
  left :
    s' = s ∧ l = a ∧
      (∀ y, s.getLast? = some y → y ∈ free → y + c.segmentBlockSizeAlign + h.stByteSize y ≠ a) ∨
    s = s' ++ [l] ∧ l ∈ free ∧ l + c.segmentBlockSizeAlign + h.stByteSize l = a
  right :
    t' = t ∧ l + c.segmentBlockSizeAlign + h'.stByteSize l =
        a + c.segmentBlockSizeAlign + h.stByteSize a ∧
      (∀ y, t.head? = some y → y ∈ free → a + c.segmentBlockSizeAlign + h.stByteSize a ≠ y) ∨
    ∃ r, t = r :: t' ∧ r ∈ free ∧ a + c.segmentBlockSizeAlign + h.stByteSize a = r ∧
      l + c.segmentBlockSizeAlign + h'.stByteSize l = r + c.segmentBlockSizeAlign + h.stByteSize r
  mem_free : ∀ x, x ∈ free' ↔ x = l ∨ x ∈ free ∧ x ∈ s' ++ t'
  keep : ∀ u ∈ s' ++ t', Keeps c h h' u
  writes : ∀ x ∉ s ++ a :: t, SameMembers h h' x
  stale : l ≠ a → SameMembers h h' a

def Released (c : Config) (g : Ground) (h : Heap) (segs free : List Nat) (a : Nat) (h' : Heap) :
    Prop :=
  ∃ segs' free', Core c g h' segs' free' ∧ (Separated g free segs → Separated g free' segs') ∧
    ∀ u ∈ segs, u ∉ free → u ≠ a → u ∈ segs' ∧ u ∉ free' ∧ Keeps c h h' u

theorem separated_insert {free s t : List Nat} {a : Nat} (left : Separated g free s)
    (right : Separated g free t) (last : ∀ y, s.getLast? = some y → a ∈ g.starts ∨ y ∉ free)
    (first : ∀ y, t.head? = some y → y ∈ g.starts ∨ y ∉ free) : Separated g free (s ++ a :: t) := by
  simp only [Separated, List.isChain_append, List.isChain_cons]
  refine ⟨left, ⟨fun y hy => (first y hy).imp_right fun out both => out both.2, right⟩, ?_⟩
  intro x hx y hy
  have hya : y = a := by simpa using hy.symm
  rw [hya]
  exact (last x hx).imp_right fun out both => out both.1

namespace Freed

variable {h h' : Heap} {s t free s' t' free' : List Nat} {a l : Nat}

theorem mem (freed : Freed c g h s t free a h' s' l t' free') : l ∈ free' :=
  (freed.mem_free l).mpr (Or.inl rfl)

theorem others (freed : Freed c g h s t free a h' s' l t' free') {x : Nat} (hx : x ∈ s' ++ t') :
    x ∈ free' ↔ x ∈ free := by
  have hxl : x ≠ l := freed.core.line.ne_of_around hx
  rw [freed.mem_free]
  tauto

theorem beside (freed : Freed c g h s t free a h' s' l t' free') {u : Nat}
    (hu : u ∈ s ++ a :: t) (used : u ∉ free) (ne : u ≠ a) : u ∈ s' ++ t' := by
  simp only [List.mem_append, List.mem_cons] at hu ⊢
  rcases hu with hu | rfl | hu
  · rcases freed.left with ⟨rfl, _⟩ | ⟨rfl, lfree, _⟩
    · exact Or.inl hu
    · rcases List.mem_append.mp hu with hu | hu
      · exact Or.inl hu
      · exact absurd (List.mem_singleton.mp hu ▸ lfree) used
  · exact absurd rfl ne
  · rcases freed.right with ⟨rfl, _⟩ | ⟨r, rfl, rfree, _⟩
    · exact Or.inr hu
    · rcases List.mem_cons.mp hu with rfl | hu
      · exact absurd rfree used
      · exact Or.inr hu

theorem covers (freed : Freed c g h s t free a h' s' l t' free') :
    l ≤ a ∧ a + c.segmentBlockSizeAlign + h.stByteSize a ≤
      l + c.segmentBlockSizeAlign + h'.stByteSize l := by
  constructor
  · rcases freed.left with ⟨_, rfl, _⟩ | ⟨_, _, touch⟩
    · exact le_refl _
    · omega
  · rcases freed.right with ⟨_, reach, _⟩ | ⟨r, _, _, touch, reach⟩
    · omega
    · omega

theorem separated (freed : Freed c g h s t free a h' s' l t' free')
    (core : Core c g h (s ++ a :: t) free) (used : a ∉ free)
    (sep : Separated g free (s ++ a :: t)) : Separated g free' (s' ++ l :: t') := by
  obtain ⟨left, right⟩ := (separated_around used).mp sep
  have old : ∀ x ∈ s' ++ t', x ∈ free' → x ∈ free := fun x hx => (freed.others hx).mp
  refine separated_insert ?_ ?_ ?_ ?_
  · refine Separated.mono ?_ fun x hx => old x (by simp [hx])
    rcases freed.left with ⟨rfl, _⟩ | ⟨rfl, _⟩
    · exact left
    · exact (List.isChain_append.mp left).1
  · refine Separated.mono ?_ fun x hx => old x (by simp [hx])
    rcases freed.right with ⟨rfl, _⟩ | ⟨r, rfl, _⟩
    · exact right
    · exact (List.isChain_cons.mp right).2
  · intro y hy
    rcases freed.left with ⟨rfl, rfl, last⟩ | ⟨rfl, lfree, _⟩
    · by_cases yfree : y ∈ free
      · obtain ⟨front, rfl⟩ : ∃ front, s' = front ++ [y] :=
          ⟨s'.dropLast, (List.dropLast_append_getLast? y hy).symm⟩
        have plots := core.plots
        rw [List.append_assoc, List.singleton_append] at plots
        exact Or.inl (plots.next.resolve_right (last y hy yfree))
      · exact Or.inr fun hf => yfree (old y (by simp [List.mem_of_getLast? hy]) hf)
    · obtain ⟨_, _, _, last⟩ := left.free_neighbours (t := []) lfree
      refine (last y hy).imp_right fun out hf => ?_
      exact out (old y (by simp [List.mem_of_getLast? hy]) hf)
  · intro y hy
    rcases freed.right with ⟨rfl, _, first⟩ | ⟨r, rfl, rfree, _⟩
    · by_cases yfree : y ∈ free
      · obtain ⟨back, rfl⟩ : ∃ back, t' = y :: back := by
          cases t' with
          | nil => simp at hy
          | cons x back => exact ⟨back, by rw [show x = y by simpa using hy]⟩
        exact Or.inl (core.plots.next.resolve_right (first y hy yfree))
      · exact Or.inr fun hf => yfree (old y (by simp [List.mem_of_mem_head? hy]) hf)
    · obtain ⟨first, _⟩ := (separated_cons_free rfree).mp right
      refine (first y hy).imp_right fun out hf => ?_
      exact out (old y (by simp [List.mem_of_mem_head? hy]) hf)

theorem released (freed : Freed c g h s t free a h' s' l t' free')
    (core : Core c g h (s ++ a :: t) free) (used : a ∉ free) :
    Released c g h (s ++ a :: t) free a h' := by
  refine ⟨_, free', freed.core, freed.separated core used, ?_⟩
  intro u hu huf hua
  have side := freed.beside hu huf hua
  refine ⟨?_, fun e => huf ((freed.others side).mp e), freed.keep u side⟩
  simp only [List.mem_append, List.mem_cons] at side ⊢
  tauto

end Freed

theorem heapMergeLeft_spec {h : Heap} {s t free : List Nat} {a : Nat}
    (core : Core c g h (s ++ a :: t) free) (used : a ∉ free) :
    (heapMergeLeft c h a = (h, a, false) ∧
      ∀ y, s.getLast? = some y → y ∈ free → y + c.segmentBlockSizeAlign + h.stByteSize y ≠ a) ∨
    ∃ s' l h' free', s = s' ++ [l] ∧ l ∈ free ∧
      l + c.segmentBlockSizeAlign + h.stByteSize l = a ∧ heapMergeLeft c h a = (h', l, true) ∧
      free'.Perm free ∧ Core c g h' (s' ++ l :: t) free' ∧
      h'.stByteSize l = h.stByteSize l + c.segmentBlockSizeAlign + h.stByteSize a ∧
      (∀ x, x ≠ l → h'.stByteSize x = h.stByteSize x) ∧
      (∀ x ∉ s' ++ l :: t, SameMembers h h' x) ∧ ∀ u ∈ s' ++ t, Keeps c h h' u := by
  have amem : a ∈ s ++ a :: t := by simp
  have neighbours := core.line.split
  unfold heapMergeLeft
  rw [neighbours.1, neighbours.2]
  cases hs : s.getLast? with
  | none => exact Or.inl ⟨rfl, by simp⟩
  | some l =>
    obtain ⟨s', rfl⟩ : ∃ s', s = s' ++ [l] :=
      ⟨s.dropLast, (List.dropLast_append_getLast? l hs).symm⟩
    have lmem : l ∈ s' ++ [l] ++ a :: t := by simp
    have next := core.nextPtr_eq lmem
    have asList : s' ++ [l] ++ a :: t = s' ++ l :: a :: t := by simp
    by_cases merges : l ∈ free ∧ l + c.segmentBlockSizeAlign + h.stByteSize l = a
    · obtain ⟨lfree, sizes⟩ := merges
      have touch : nextPtr c h l = a := next.trans sizes
      have free_l : segmentIsUsed h l = false := (core.mem_free_iff lmem).mpr lfree
      have bound := core.bounds l lmem
      have abound := core.bounds a amem
      have st : c.add (h.stByteSize a) c.segmentBlockSizeAlign =
          h.stByteSize a + c.segmentBlockSizeAlign := Config.add_eq (by omega)
      have grown : c.add (h.stByteSize l) (h.stByteSize a + c.segmentBlockSizeAlign) =
          h.stByteSize l + c.segmentBlockSizeAlign + h.stByteSize a := by
        rw [Config.add_eq (by omega)]
        omega
      have layout : Layout c g h (s' ++ l :: a :: t) free := asList ▸ core.toLayout
      obtain ⟨joined, frame⟩ := layout.swallow sizes used rfl
      have hla : l ≠ a := by have := c.segmentBlockSizeAlign_pos; omega
      have count := core.counter
      have len := core.length_lt
      have counted : c.sub h.ulSegmentCounter 1 = h.ulSegmentCounter - 1 := by
        simp only [List.length_append, List.length_cons] at count len
        exact Config.sub_eq (by omega) (by omega)
      have moved : h.stByteSize a + c.segmentBlockSizeAlign ≤ h.stUsedByteSize := by
        have room := core.used_ge amem used
        have one : 1 * c.segmentBlockSizeAlign ≤
            (s' ++ [l] ++ a :: t).length * c.segmentBlockSizeAlign :=
          Nat.mul_le_mul_right _ (by simp only [List.length_append, List.length_cons]; omega)
        omega
      have value : ((((h.setByteSize l (h.stByteSize l + c.segmentBlockSizeAlign +
          h.stByteSize a)).lineDel a).countDown c).accountFree c
            (h.stByteSize a + c.segmentBlockSizeAlign)) =
          { h.swallow l a (h.stByteSize l + c.segmentBlockSizeAlign + h.stByteSize a) with
            ulSegmentCounter := h.ulSegmentCounter - 1
            stUsedByteSize := h.stUsedByteSize - (h.stByteSize a + c.segmentBlockSizeAlign)
            stFreeByteSize := h.stFreeByteSize + (h.stByteSize a + c.segmentBlockSizeAlign) } := by
        rw [accountFree_eq]
        · simp only [Heap.countDown]
          rw [← counted]
          rfl
        · exact moved
        · exact core.free_lt
      have merged : Core c g
          { h.swallow l a (h.stByteSize l + c.segmentBlockSizeAlign + h.stByteSize a) with
            ulSegmentCounter := h.ulSegmentCounter - 1
            stUsedByteSize := h.stUsedByteSize - (h.stByteSize a + c.segmentBlockSizeAlign)
            stFreeByteSize := h.stFreeByteSize + (h.stByteSize a + c.segmentBlockSizeAlign) }
          (s' ++ l :: t) free := by
        refine ⟨joined.of_counters rfl rfl rfl rfl rfl rfl rfl, ?_, ?_, ?_, ?_⟩
        · intro x hx hf
          refine core.used x ?_ hf
          simp only [List.mem_append, List.mem_cons] at hx ⊢
          tauto
        · change h.ulSegmentCounter - 1 = _
          simp only [List.length_append, List.length_cons, List.length_nil] at count ⊢
          omega
        · have update := sum_update_of_mem h.stByteSize core.ring.nodup lfree
            (v := h.stByteSize l + c.segmentBlockSizeAlign + h.stByteSize a)
          have freeBytes := core.freeBytes
          change h.stFreeByteSize + _ = (free.map (Function.update h.stByteSize l _)).sum
          omega
        · change h.stUsedByteSize - _ + (h.stFreeByteSize + _) = h.stTotalByteSize
          have total := core.total
          omega
      have size_l : (h.swallow l a (h.stByteSize l + c.segmentBlockSizeAlign +
          h.stByteSize a)).stByteSize l =
          h.stByteSize l + c.segmentBlockSizeAlign + h.stByteSize a := by
        simp [Heap.swallow, Heap.setByteSize, Heap.lineDel]
      have size_of : ∀ x, x ≠ l → (h.swallow l a (h.stByteSize l + c.segmentBlockSizeAlign +
          h.stByteSize a)).stByteSize x = h.stByteSize x := by
        intro x hx
        simp [Heap.swallow, Heap.setByteSize, Heap.lineDel, hx]
      -- the readded neighbour only moves inside the ring
      have kept : ∀ h' : Heap, h'.stByteSize = (h.swallow l a (h.stByteSize l +
          c.segmentBlockSizeAlign + h.stByteSize a)).stByteSize →
          (∀ x ∉ s' ++ l :: t, SameMembers h h' x) → ∀ u ∈ s' ++ t, Keeps c h h' u := by
        intro h' same writes u hu
        have hul : u ≠ l := merged.line.ne_of_around hu
        have umem : u ∈ s' ++ l :: a :: t := by
          simp only [List.mem_append, List.mem_cons] at hu ⊢
          tauto
        refine layout.keeps ?_ umem rfl (by rw [same]; exact size_of u hul)
        intro x hx
        refine writes x fun e => hx ?_
        simp only [List.mem_append, List.mem_cons] at e ⊢
        tauto
      simp only [free_l, touch, bne_self_eq_false, Bool.or_self, Bool.false_eq_true, if_false, st,
        grown, value]
      by_cases last : t.head? = none
      · obtain ⟨free', perm, readded, moves⟩ := merged.readd lfree
        have writes : ∀ x ∉ s' ++ l :: t, SameMembers h _ x := fun x hx =>
          (frame x hx).trans (moves x fun e => hx (merged.free_mem x e))
        refine Or.inr ⟨s', l, _, free', rfl, lfree, sizes, ?_, perm, readded, size_l, size_of, writes,
          kept _ rfl writes⟩
        simp only [last, if_true]
      · refine Or.inr ⟨s', l, _, free, rfl, lfree, sizes, ?_, List.Perm.refl _, merged, size_l,
          size_of, frame, kept _ rfl frame⟩
        simp only [last, if_false]
    · refine Or.inl ⟨?_, ?_⟩
      · by_cases lfree : l ∈ free
        · have apart : nextPtr c h l ≠ a := fun e => merges ⟨lfree, next.symm.trans e⟩
          simp [apart]
        · have used_l : segmentIsUsed h l = true := by
            by_contra busy
            exact lfree ((core.mem_free_iff lmem).mp (by simpa using busy))
          simp [used_l]
      · intro y hy yfree touch
        obtain rfl : l = y := by simpa using hy
        exact merges ⟨yfree, touch⟩

theorem Core.giveBack {h : Heap} {segs free : List Nat} (core : Core c g h segs free) {a : Nat}
    (mem : a ∈ segs) (used : a ∉ free) :
    ∃ free', free'.Perm (a :: free) ∧
      Core c g ((h.addNewSegToFreelist a).accountFree c (h.stByteSize a)) segs free' ∧
      ∀ x ∉ a :: free, SameMembers h ((h.addNewSegToFreelist a).accountFree c (h.stByteSize a)) x := by
  obtain ⟨free', perm, added, frame⟩ := core.toLayout.addNewSegToFreelist mem used
  have room := core.used_ge mem used
  have value : (h.addNewSegToFreelist a).accountFree c (h.stByteSize a) =
      { h.addNewSegToFreelist a with
        stUsedByteSize := h.stUsedByteSize - h.stByteSize a
        stFreeByteSize := h.stFreeByteSize + h.stByteSize a } := by
    rw [accountFree_eq]
    · rfl
    · change h.stByteSize a ≤ h.stUsedByteSize
      omega
    · exact core.free_lt
  rw [value]
  refine ⟨free', perm, ⟨added.of_counters rfl rfl rfl rfl rfl rfl rfl, ?_, core.counter, ?_, ?_⟩,
    frame⟩
  · intro x hx hf
    have out : x ∉ a :: free := fun e => hf (perm.mem_iff.mpr e)
    exact (frame x out).ringPrev.trans (core.used x hx (fun e => out (List.mem_cons_of_mem a e)))
  · change h.stFreeByteSize + h.stByteSize a = (free'.map h.stByteSize).sum
    have freeBytes := core.freeBytes
    rw [(perm.map _).sum_eq, List.map_cons, List.sum_cons]
    omega
  · change h.stUsedByteSize - h.stByteSize a + (h.stFreeByteSize + h.stByteSize a) =
      h.stTotalByteSize
    have total := core.total
    omega

theorem Core.absorb {h : Heap} {s t free : List Nat} {a r : Nat}
    (core : Core c g h (s ++ a :: r :: t) free)
    (touch : a + c.segmentBlockSizeAlign + h.stByteSize a = r) (rfree : r ∈ free) {st : Nat}
    (sum : st = h.stByteSize a + c.segmentBlockSizeAlign + h.stByteSize r) :
    Layout c g ((h.ringDel r).swallow a r st) (s ++ a :: t) (free.erase r) ∧
    UsedMarks ((h.ringDel r).swallow a r st) (s ++ a :: t) (free.erase r) ∧
    (∀ x, x ∈ free.erase r ↔ x ∈ free ∧ x ≠ r) ∧ a ≠ r ∧
    c.sub h.ulSegmentCounter 1 = (s ++ a :: t).length ∧
    (∀ x ∉ s ++ a :: r :: t, SameMembers h ((h.ringDel r).swallow a r st) x) ∧
    ∀ u ∈ s ++ t, u ≠ a ∧ u ≠ r := by
  obtain ⟨layout, _, frame⟩ := core.toLayout.ringDel rfree
  have nodup := core.ring.nodup
  have erase_iff : ∀ x, x ∈ free.erase r ↔ x ∈ free ∧ x ≠ r := by
    intro x
    rw [nodup.mem_erase_iff]
    exact and_comm
  have segsNodup := core.line.nodup
  have rest : ∀ x ∈ s ++ a :: t, x ≠ r := by
    have line : IsLine h.lineManage ((s ++ [a]) ++ r :: t) := by simpa using core.line
    intro x hx
    refine line.ne_of_around ?_
    simpa using hx
  have count := core.counter
  have len := core.length_lt
  obtain ⟨swallowed, swallowFrame⟩ := layout.swallow touch nodup.not_mem_erase sum
  refine ⟨swallowed, ?_, erase_iff, rest a (by simp), ?_, ?_, ?_⟩
  · intro x hx hf
    have hxf : x ∉ free := fun e => hf ((erase_iff x).mpr ⟨e, rest x hx⟩)
    have mem : x ∈ s ++ a :: r :: t := by
      simp only [List.mem_append, List.mem_cons] at hx ⊢
      tauto
    exact (frame x hxf).ringPrev.trans (core.used x mem hxf)
  · simp only [List.length_append, List.length_cons] at count len ⊢
    rw [Config.sub_eq (by omega) (by omega)]
    omega
  · intro x hx
    refine (frame x fun e => hx (core.free_mem x e)).trans (swallowFrame x fun e => hx ?_)
    simp only [List.mem_append, List.mem_cons] at e ⊢
    tauto
  · intro u hu
    constructor
    · refine core.line.ne_of_around ?_
      simp only [List.mem_append, List.mem_cons] at hu ⊢
      tauto
    · refine rest u ?_
      simp only [List.mem_append, List.mem_cons] at hu ⊢
      tauto

theorem swallow_stByteSize {h : Heap} {a r st x : Nat} :
    ((h.ringDel r).swallow a r st).stByteSize x = if x = a then st else h.stByteSize x := by
  simp [Heap.swallow, Heap.setByteSize, Heap.lineDel, Heap.ringDel, Function.update_apply]

theorem Core.grow {h : Heap} {s t free : List Nat} {a r : Nat}
    (core : Core c g h (s ++ a :: r :: t) free)
    (touch : a + c.segmentBlockSizeAlign + h.stByteSize a = r) (used : a ∉ free) (rfree : r ∈ free)
    {st : Nat} (sum : st = h.stByteSize a + c.segmentBlockSizeAlign + h.stByteSize r) :
    Core c g
      { (h.ringDel r).swallow a r st with
        ulSegmentCounter := c.sub h.ulSegmentCounter 1
        stUsedByteSize := h.stUsedByteSize + h.stByteSize r
        stFreeByteSize := h.stFreeByteSize - h.stByteSize r }
      (s ++ a :: t) (free.erase r) := by
  obtain ⟨layout, marks, erase_iff, _, counted, _⟩ := core.absorb touch rfree sum
  have bytes := sum_eq_add_erase h.stByteSize rfree
  have freeBytes := core.freeBytes
  refine ⟨layout.of_counters rfl rfl rfl rfl rfl rfl rfl, marks, counted, ?_, ?_⟩
  · have keep : ((free.erase r).map ((h.ringDel r).swallow a r st).stByteSize).sum =
        ((free.erase r).map h.stByteSize).sum := by
      refine sum_congr ?_
      intro x hx
      have hxa : x ≠ a := fun e => used (e ▸ ((erase_iff x).mp hx).1)
      rw [swallow_stByteSize, if_neg hxa]
    change h.stFreeByteSize - h.stByteSize r = _
    rw [show ((free.erase r).map _).sum = _ from keep]
    omega
  · change h.stUsedByteSize + h.stByteSize r + (h.stFreeByteSize - h.stByteSize r) =
      h.stTotalByteSize
    have total := core.total
    omega

theorem Core.unite {h : Heap} {s t free : List Nat} {a r : Nat}
    (core : Core c g h (s ++ a :: r :: t) free)
    (touch : a + c.segmentBlockSizeAlign + h.stByteSize a = r) (afree : a ∈ free) (rfree : r ∈ free)
    {st : Nat} (sum : st = h.stByteSize a + c.segmentBlockSizeAlign + h.stByteSize r) :
    Core c g
      { (h.ringDel r).swallow a r st with
        ulSegmentCounter := c.sub h.ulSegmentCounter 1
        stUsedByteSize := h.stUsedByteSize - c.segmentBlockSizeAlign
        stFreeByteSize := h.stFreeByteSize + c.segmentBlockSizeAlign }
      (s ++ a :: t) (free.erase r) := by
  obtain ⟨layout, marks, erase_iff, apart, counted, _⟩ := core.absorb touch rfree sum
  have bytes := sum_eq_add_erase h.stByteSize rfree
  have freeBytes := core.freeBytes
  have room := core.headers_le_used
  have one : 1 * c.segmentBlockSizeAlign ≤
      (s ++ a :: r :: t).length * c.segmentBlockSizeAlign :=
    Nat.mul_le_mul_right _ (by simp only [List.length_append, List.length_cons]; omega)
  refine ⟨layout.of_counters rfl rfl rfl rfl rfl rfl rfl, marks, counted, ?_, ?_⟩
  · have update := sum_update_of_mem h.stByteSize layout.ring.nodup (v := st)
      ((erase_iff a).mpr ⟨afree, apart⟩)
    change h.stFreeByteSize + c.segmentBlockSizeAlign =
      ((free.erase r).map (Function.update h.stByteSize a st)).sum
    omega
  · change h.stUsedByteSize - c.segmentBlockSizeAlign +
      (h.stFreeByteSize + c.segmentBlockSizeAlign) = h.stTotalByteSize
    have total := core.total
    omega

theorem mem_around {s t : List Nat} {x : Nat} (a : Nat) (mem : x ∈ s ++ t) : x ∈ s ++ a :: t :=
  List.mem_append.mpr ((List.mem_append.mp mem).imp_right (List.mem_cons_of_mem a))

theorem mem_sides {s t : List Nat} {a x : Nat} (mem : x ∈ s ++ a :: t) (apart : x ≠ a) :
    x ∈ s ++ t := by
  rcases List.mem_append.mp mem with left | right
  · exact List.mem_append_left t left
  · exact List.mem_append_right s ((List.mem_cons.mp right).resolve_left apart)

theorem mem_joined {s t free : List Nat} {a : Nat} (sub : ∀ x ∈ free, x ∈ s ++ a :: t) (x : Nat) :
    x ∈ a :: free ↔ x = a ∨ x ∈ free ∧ x ∈ s ++ t := by
  rw [List.mem_cons]
  by_cases own : x = a
  · simp only [own, true_or]
  · simp only [own, false_or]
    exact ⟨fun mem => ⟨mem, mem_sides (sub x mem) own⟩, And.left⟩

def MergedRight (c : Config) (g : Ground) (h : Heap) (s t free : List Nat) (a : Nat)
    (h' : Heap) : Prop :=
  ∃ t' free', Core c g h' (s ++ a :: t') free' ∧
    (t' = t ∧ h'.stByteSize a = h.stByteSize a ∧
        (∀ y, t.head? = some y → y ∈ free →
          a + c.segmentBlockSizeAlign + h.stByteSize a ≠ y) ∨
      ∃ r, t = r :: t' ∧ r ∈ free ∧ a + c.segmentBlockSizeAlign + h.stByteSize a = r ∧
        h'.stByteSize a = h.stByteSize a + c.segmentBlockSizeAlign + h.stByteSize r) ∧
    (∀ x, x ∈ free' ↔ x = a ∨ x ∈ free ∧ x ∈ s ++ t') ∧
    (∀ x ∉ s ++ a :: t, SameMembers h h' x) ∧ ∀ u ∈ s ++ t', Keeps c h h' u

theorem mergedRight_alone {h : Heap} {s t free : List Nat} {a : Nat} {bIsMergeOk : Bool}
    {st : Nat} (core : Core c g h (s ++ a :: t) free) (ok : a ∈ free ↔ bIsMergeOk = true)
    (size : bIsMergeOk = false → st = h.stByteSize a)
    (last : ∀ y, t.head? = some y → y ∈ free →
      a + c.segmentBlockSizeAlign + h.stByteSize a ≠ y) :
    MergedRight c g h s t free a
      (if bIsMergeOk then h else (h.addNewSegToFreelist a).accountFree c st) := by
  have amem : a ∈ s ++ a :: t := by simp
  cases bIsMergeOk with
  | true =>
    have afree : a ∈ free := ok.mpr rfl
    refine ⟨t, free, core, Or.inl ⟨rfl, rfl, last⟩, ?_, fun x _ => SameMembers.refl h x,
      fun u _ => Keeps.refl h u⟩
    intro x
    rw [← mem_joined core.free_mem, List.mem_cons]
    constructor
    · exact Or.inr
    · rintro (rfl | hx)
      · exact afree
      · exact hx
  | false =>
    have used : a ∉ free := fun e => Bool.false_ne_true (ok.mp e)
    obtain ⟨free', perm, back, frame⟩ := core.giveBack amem used
    have writes : ∀ x ∉ s ++ a :: t, SameMembers h
        ((h.addNewSegToFreelist a).accountFree c (h.stByteSize a)) x := by
      intro x hx
      refine frame x fun e => hx ?_
      rcases List.mem_cons.mp e with rfl | e
      · exact amem
      · exact core.free_mem x e
    rw [size rfl]
    refine ⟨t, free', back, Or.inl ⟨rfl, rfl, last⟩, ?_, writes, ?_⟩
    · intro x
      rw [perm.mem_iff]
      exact mem_joined core.free_mem x
    · intro u hu
      exact core.keeps writes (mem_around a hu) rfl rfl

theorem Core.mem_absorbed {h : Heap} {s t free : List Nat} {a r : Nat}
    (core : Core c g h (s ++ a :: r :: t) free) (rfree : r ∈ free)
    (next : a + c.segmentBlockSizeAlign + h.stByteSize a = r) (x : Nat) :
    x = a ∨ x ∈ free.erase r ↔ x = a ∨ x ∈ free ∧ x ∈ s ++ t := by
  obtain ⟨_, _, erase_iff, _, _, _, others⟩ := core.absorb next rfree rfl
  rw [erase_iff]
  constructor
  · rintro (hx | ⟨hx, apart⟩)
    · exact Or.inl hx
    · by_cases own : x = a
      · exact Or.inl own
      · exact Or.inr ⟨hx, mem_sides (mem_sides (core.free_mem x hx) own) apart⟩
  · rintro (hx | ⟨hx, side⟩)
    · exact Or.inl hx
    · exact Or.inr ⟨hx, (others x side).2⟩

theorem Core.keeps_absorbed {h h' : Heap} {s t free : List Nat} {a r : Nat}
    (core : Core c g h (s ++ a :: r :: t) free) (rfree : r ∈ free)
    (next : a + c.segmentBlockSizeAlign + h.stByteSize a = r)
    (same : h'.stByteSize = ((h.ringDel r).swallow a r
      (h.stByteSize a + c.segmentBlockSizeAlign + h.stByteSize r)).stByteSize)
    (writes : ∀ x ∉ s ++ a :: r :: t, SameMembers h h' x) : ∀ u ∈ s ++ t, Keeps c h h' u := by
  obtain ⟨_, _, _, _, _, _, others⟩ := core.absorb next rfree rfl
  intro u hu
  refine core.keeps writes (mem_around a (mem_around r hu)) rfl ?_
  rw [same, swallow_stByteSize]
  exact if_neg (others u hu).1

def absorbed (c : Config) (h : Heap) (a r : Nat) : Heap :=
  (((h.setByteSize a (h.stByteSize a + c.segmentBlockSizeAlign + h.stByteSize r)).ringDel r).lineDel
    r).countDown c

theorem mergedRight_free {h : Heap} {s t free : List Nat} {a r : Nat}
    (core : Core c g h (s ++ a :: r :: t) free) (rfree : r ∈ free)
    (next : a + c.segmentBlockSizeAlign + h.stByteSize a = r) (afree : a ∈ free) :
    MergedRight c g h s (r :: t) free a
      ((if (absorbed c h a r).lineManage.next a = none then
          ((absorbed c h a r).ringDel a).addNewSegToFreelist a
        else absorbed c h a r).accountFree c c.segmentBlockSizeAlign) := by
  have united := core.unite next afree rfree rfl
  obtain ⟨_, _, erase_iff, apart, _, frame, _⟩ := core.absorb next rfree rfl
  have aleft : a ∈ free.erase r := (erase_iff a).mpr ⟨afree, apart⟩
  have size_a : ((h.ringDel r).swallow a r
      (h.stByteSize a + c.segmentBlockSizeAlign + h.stByteSize r)).stByteSize a =
      h.stByteSize a + c.segmentBlockSizeAlign + h.stByteSize r :=
    swallow_stByteSize.trans (if_pos rfl)
  have moved : c.segmentBlockSizeAlign ≤ h.stUsedByteSize := by
    have room := core.headers_le_used
    have one : 1 * c.segmentBlockSizeAlign ≤
        (s ++ a :: r :: t).length * c.segmentBlockSizeAlign :=
      Nat.mul_le_mul_right _ (by simp only [List.length_append, List.length_cons]; omega)
    omega
  have value : (absorbed c h a r).accountFree c c.segmentBlockSizeAlign =
      { (h.ringDel r).swallow a r
          (h.stByteSize a + c.segmentBlockSizeAlign + h.stByteSize r) with
        ulSegmentCounter := c.sub h.ulSegmentCounter 1
        stUsedByteSize := h.stUsedByteSize - c.segmentBlockSizeAlign
        stFreeByteSize := h.stFreeByteSize + c.segmentBlockSizeAlign } := by
    rw [accountFree_eq]
    · rfl
    · exact moved
    · exact core.free_lt
  rw [← value] at united
  have mem_free : ∀ x, x ∈ free.erase r ↔ x = a ∨ x ∈ free ∧ x ∈ s ++ t := by
    intro x
    rw [← core.mem_absorbed rfree next]
    constructor
    · exact Or.inr
    · rintro (rfl | hx)
      · exact aleft
      · exact hx
  split
  next last =>
    obtain ⟨free', perm, readded, moves⟩ := united.readd aleft
    have writes : ∀ x ∉ s ++ a :: r :: t, SameMembers h _ x := fun x hx =>
      (frame x hx).trans (moves x fun e => hx (core.free_mem x ((erase_iff x).mp e).1))
    refine ⟨t, free', readded, Or.inr ⟨r, rfl, rfree, next, size_a⟩, ?_, writes,
      core.keeps_absorbed rfree next rfl writes⟩
    intro x
    rw [perm.mem_iff, mem_free]
  next inner =>
    exact ⟨t, free.erase r, united, Or.inr ⟨r, rfl, rfree, next, size_a⟩, mem_free, frame,
      core.keeps_absorbed rfree next rfl frame⟩

theorem mergedRight_used {h : Heap} {s t free : List Nat} {a r : Nat}
    (core : Core c g h (s ++ a :: r :: t) free) (rfree : r ∈ free)
    (next : a + c.segmentBlockSizeAlign + h.stByteSize a = r) (used : a ∉ free) :
    MergedRight c g h s (r :: t) free a
      (((absorbed c h a r).addNewSegToFreelist a).accountFree c
        (c.add c.segmentBlockSizeAlign (h.stByteSize a))) := by
  have amem : a ∈ s ++ a :: r :: t := by simp
  have grow := core.grow next used rfree rfl
  obtain ⟨_, _, erase_iff, _, _, frame, _⟩ := core.absorb next rfree rfl
  have aleft : a ∉ free.erase r := fun e => used ((erase_iff a).mp e).1
  obtain ⟨free', perm, back, backFrame⟩ := grow.giveBack (a := a) (by simp) aleft
  have room := core.used_ge amem used
  have bytes := Layout.size_le_sum (h := h) rfree
  have freeBytes := core.freeBytes
  have lt := core.free_lt
  have abound := core.bounds a amem
  have size_a : ((h.ringDel r).swallow a r
      (h.stByteSize a + c.segmentBlockSizeAlign + h.stByteSize r)).stByteSize a =
      h.stByteSize a + c.segmentBlockSizeAlign + h.stByteSize r :=
    swallow_stByteSize.trans (if_pos rfl)
  have one : 1 * c.segmentBlockSizeAlign ≤
      (s ++ a :: r :: t).length * c.segmentBlockSizeAlign :=
    Nat.mul_le_mul_right _ (by simp only [List.length_append, List.length_cons]; omega)
  have whole : c.add c.segmentBlockSizeAlign (h.stByteSize a) =
      c.segmentBlockSizeAlign + h.stByteSize a := Config.add_eq (by omega)
  have usedBytes : h.stUsedByteSize + h.stByteSize r -
      (h.stByteSize a + c.segmentBlockSizeAlign + h.stByteSize r) =
      h.stUsedByteSize - (c.segmentBlockSizeAlign + h.stByteSize a) := by omega
  have newFree : h.stFreeByteSize - h.stByteSize r +
      (h.stByteSize a + c.segmentBlockSizeAlign + h.stByteSize r) =
      h.stFreeByteSize + (c.segmentBlockSizeAlign + h.stByteSize a) := by omega
  have value : ((absorbed c h a r).addNewSegToFreelist a).accountFree c
      (c.add c.segmentBlockSizeAlign (h.stByteSize a)) =
      Heap.accountFree c (Heap.addNewSegToFreelist
        { (h.ringDel r).swallow a r
            (h.stByteSize a + c.segmentBlockSizeAlign + h.stByteSize r) with
          ulSegmentCounter := c.sub h.ulSegmentCounter 1
          stUsedByteSize := h.stUsedByteSize + h.stByteSize r
          stFreeByteSize := h.stFreeByteSize - h.stByteSize r } a)
        (h.stByteSize a + c.segmentBlockSizeAlign + h.stByteSize r) := by
    rw [whole, accountFree_eq, accountFree_eq]
    · simp only [Heap.addNewSegToFreelist, usedBytes, newFree]
      rfl
    · change _ ≤ h.stUsedByteSize + h.stByteSize r
      omega
    · change h.stUsedByteSize + h.stByteSize r + (h.stFreeByteSize - h.stByteSize r) < _
      omega
    · change _ ≤ h.stUsedByteSize
      omega
    · exact lt
  simp only [size_a] at back backFrame
  have counted : ∀ x ∉ s ++ a :: r :: t, SameMembers h
      { (h.ringDel r).swallow a r
          (h.stByteSize a + c.segmentBlockSizeAlign + h.stByteSize r) with
        ulSegmentCounter := c.sub h.ulSegmentCounter 1
        stUsedByteSize := h.stUsedByteSize + h.stByteSize r
        stFreeByteSize := h.stFreeByteSize - h.stByteSize r } x := frame
  have outside : ∀ x ∉ s ++ a :: r :: t, x ∉ a :: free.erase r := by
    intro x hx e
    rcases List.mem_cons.mp e with rfl | e
    · exact hx amem
    · exact hx (core.free_mem x ((erase_iff x).mp e).1)
  have writes := fun x hx => (counted x hx).trans (backFrame x (outside x hx))
  rw [value]
  refine ⟨t, free', back, Or.inr ⟨r, rfl, rfree, next, size_a⟩, ?_, writes,
    core.keeps_absorbed rfree next rfl writes⟩
  intro x
  rw [perm.mem_iff, List.mem_cons, core.mem_absorbed rfree next]

theorem heapMergeRight_spec {h : Heap} {s t free : List Nat} {a : Nat} {bIsMergeOk : Bool}
    {st : Nat} (core : Core c g h (s ++ a :: t) free) (ok : a ∈ free ↔ bIsMergeOk = true)
    (size : bIsMergeOk = false → st = h.stByteSize a) :
    MergedRight c g h s t free a (heapMergeRight c h a t.head? st bIsMergeOk) := by
  have amem : a ∈ s ++ a :: t := by simp
  unfold heapMergeRight
  cases t with
  | nil => exact mergedRight_alone core ok size (by simp)
  | cons r t =>
    have rmem : r ∈ s ++ a :: r :: t := by simp
    have nextA := core.nextPtr_eq amem
    simp only [List.head?_cons]
    by_cases merges : r ∈ free ∧ a + c.segmentBlockSizeAlign + h.stByteSize a = r
    · obtain ⟨rfree, next⟩ := merges
      have touch : nextPtr c h a = r := nextA.trans next
      have busy : segmentIsUsed h r = false := (core.mem_free_iff rmem).mpr rfree
      have abound := core.bounds a amem
      have rbound := core.bounds r rmem
      have inner : c.add (h.stByteSize r) c.segmentBlockSizeAlign =
          h.stByteSize r + c.segmentBlockSizeAlign := Config.add_eq (by omega)
      have grown : c.add (h.stByteSize a) (h.stByteSize r + c.segmentBlockSizeAlign) =
          h.stByteSize a + c.segmentBlockSizeAlign + h.stByteSize r := by
        rw [Config.add_eq (by omega)]
        omega
      simp only [busy, touch, bne_self_eq_false, Bool.or_self, Bool.false_eq_true, if_false,
        inner, grown]
      cases bIsMergeOk with
      | true => exact mergedRight_free core rfree next (ok.mpr rfl)
      | false =>
        rw [size rfl]
        exact mergedRight_used core rfree next fun e => Bool.false_ne_true (ok.mp e)
    · have stays : (segmentIsUsed h r || nextPtr c h a != r) = true := by
        by_cases rfree : r ∈ free
        · have apart : nextPtr c h a ≠ r := fun e => merges ⟨rfree, nextA.symm.trans e⟩
          simp [apart]
        · have busy : segmentIsUsed h r = true := by
            by_contra out
            exact rfree ((core.mem_free_iff rmem).mp (by simpa using out))
          simp [busy]
      rw [if_pos stays]
      refine mergedRight_alone core ok size ?_
      intro y hy yfree touch
      obtain rfl : r = y := by simpa using hy
      exact merges ⟨yfree, touch⟩

theorem heapRelease_freed {h : Heap} {s t free : List Nat} {a : Nat}
    (core : Core c g h (s ++ a :: t) free) (used : a ∉ free) :
    ∃ s' l t' free', Freed c g h s t free a (heapRelease c h a) s' l t' free' := by
  have right_eq := core.line.split.2
  unfold heapRelease
  simp only
  rw [right_eq]
  rcases heapMergeLeft_spec core used with ⟨merge, last⟩ | ⟨s', l, h₁, free₁, rfl, lfree, touch,
    merge, perm, core₁, size_l, size_of, frame₁, keep₁⟩
  · rw [merge]
    simp only
    have ok : a ∈ free ↔ false = true := ⟨fun e => absurd e used, fun e => absurd e (by simp)⟩
    obtain ⟨t', free', core', right, mem_free, frame, keep⟩ :=
      heapMergeRight_spec core ok (fun _ => rfl)
    refine ⟨s, a, t', free', core', Or.inl ⟨rfl, rfl, last⟩, ?_, mem_free, keep, frame,
      fun e => absurd rfl e⟩
    rcases right with ⟨rfl, size, first⟩ | ⟨r, rfl, rfree, next, size⟩
    · exact Or.inl ⟨rfl, by rw [size], first⟩
    · exact Or.inr ⟨r, rfl, rfree, next, by omega⟩
  · rw [merge]
    simp only
    have ok : l ∈ free₁ ↔ true = true := ⟨fun _ => rfl, fun _ => perm.mem_iff.mpr lfree⟩
    obtain ⟨t', free', core', right, mem_free, frame, keep⟩ :=
      heapMergeRight_spec core₁ ok
        (show true = false → h.stByteSize a = _ from fun e => absurd e (by simp))
    have pos := c.segmentBlockSizeAlign_pos
    have sub : ∀ x, x ∈ s' ++ l :: t → x ∈ (s' ++ [l]) ++ a :: t := by
      intro x hx
      simp only [List.mem_append, List.mem_cons, List.not_mem_nil, or_false] at hx ⊢
      tauto
    have gone : a ∉ s' ++ l :: t := by
      have line : IsLine h.lineManage ((s' ++ [l]) ++ a :: t) := core.line
      intro e
      refine line.ne_of_around ?_ rfl
      simp only [List.mem_append, List.mem_cons, List.not_mem_nil, or_false] at e ⊢
      tauto
    have others : ∀ x ∈ t, x ≠ l := fun x hx => core₁.line.ne_of_around (by simp [hx])
    refine ⟨s', l, t', free', core', Or.inr ⟨rfl, lfree, touch⟩, ?_, ?_, ?_, ?_, ?_⟩
    · rcases right with ⟨rfl, size, first⟩ | ⟨r, rfl, rfree, next, size⟩
      · refine Or.inl ⟨rfl, by omega, ?_⟩
        intro y hy yfree e
        exact first y hy (perm.mem_iff.mpr yfree) (by omega)
      · have size_r := size_of r (others r (by simp))
        exact Or.inr ⟨r, rfl, perm.mem_iff.mp rfree, by omega, by omega⟩
    · intro x
      rw [mem_free, perm.mem_iff]
    · intro u hu
      have side : u ∈ s' ++ t := by
        rcases right with ⟨rfl, _⟩ | ⟨r, rfl, _⟩
        · exact hu
        · simp only [List.mem_append, List.mem_cons] at hu ⊢
          tauto
      exact (keep₁ u side).trans (keep u hu)
    · intro x hx
      have out : x ∉ s' ++ l :: t := fun e => hx (sub x e)
      exact (frame₁ x out).trans (frame x out)
    · exact fun _ => (frame₁ a gone).trans (frame a gone)

theorem heapRelease_spec {h : Heap} {segs free : List Nat} {a : Nat}
    (core : Core c g h segs free) (mem : a ∈ segs) (used : a ∉ free) :
    Released c g h segs free a (heapRelease c h a) := by
  obtain ⟨s, t, rfl⟩ := List.append_of_mem mem
  obtain ⟨s', l, t', free', freed⟩ := heapRelease_freed core used
  exact freed.released core used

theorem Core.segmentIsUsed_eq {h : Heap} {segs free : List Nat} (core : Core c g h segs free)
    {a : Nat} (mem : a ∈ segs) (used : a ∉ free) : segmentIsUsed h a = true := by
  by_contra out
  exact used ((core.mem_free_iff mem).mp (by simpa using out))

theorem Config.not_aligned_magic (c : Config) : ¬c.heapAlignment ∣ segMagicReal := by
  obtain ⟨w, b⟩ := c
  cases w <;> cases b <;> decide

def headerOf (c : Config) (h : Heap) (p : Nat) : Nat :=
  if segmentIsReal h (segPtr c p) then segPtr c p else h.stMagic (segPtr c p)

theorem heapSegmentOf_false (h : Heap) (p : Nat) :
    heapSegmentOf c h p false =
      if !segmentIsReal h (headerOf c h p) || !segmentIsUsed h (headerOf c h p) then none
      else some (headerOf c h p) := rfl

theorem headerOf_eq {h : Heap} {segs free : List Nat} {a : Nat} {b : Block}
    (core : Core c g h segs free) (mem : a ∈ segs) (holds : Holds c h a b) :
    headerOf c h b.ptr = a := by
  obtain ⟨lo, hi, lead⟩ := holds
  have bound := core.bounds a mem
  have seg : segPtr c b.ptr = b.ptr - c.segmentBlockSizeAlign := Config.sub_eq (by omega) (by omega)
  have real : segmentIsReal h a = true := by simp [segmentIsReal, core.magic a mem]
  rw [headerOf, seg]
  rcases lead with start | ⟨_, word⟩
  · have here : b.ptr - c.segmentBlockSizeAlign = a := by omega
    rw [here, real, if_pos rfl]
  · have odd : a ≠ segMagicReal := fun e => c.not_aligned_magic (e ▸ core.aligned a mem)
    have notReal : segmentIsReal h (b.ptr - c.segmentBlockSizeAlign) = false := by
      simp [segmentIsReal, word, odd]
    rw [notReal, word]
    rfl

theorem heapSegmentOf_unchecked {h : Heap} {segs free : List Nat} {a : Nat} {b : Block}
    (core : Core c g h segs free) (mem : a ∈ segs) (used : a ∉ free) (holds : Holds c h a b) :
    heapSegmentOf c h b.ptr false = some a := by
  have real : segmentIsReal h a = true := by simp [segmentIsReal, core.magic a mem]
  rw [heapSegmentOf_false, headerOf_eq core mem holds, real, core.segmentIsUsed_eq mem used]
  rfl

theorem Core.heapVerify_eq {h : Heap} {segs free : List Nat} (core : Core c g h segs free) (p : Nat) :
    heapVerify c h p =
      if p < h.pvStartAddress ∨ c.add h.pvStartAddress h.stTotalByteSize ≤ p then none
      else
        match segs.find? (fun s => decide (s < p) && decide (p ≤ nextPtr c h s)) with
        | none => none
        | some psegment => if segmentIsUsed h psegment then some psegment else none := by
  unfold heapVerify
  have whole : IsLine h.lineManage ([] ++ segs) := core.line
  rw [← core.start_eq, lineScan_eq_find whole _ (by rw [core.counter])] <;> rfl

theorem Core.find_eq {h : Heap} {segs free : List Nat} (core : Core c g h segs free) {a p : Nat}
    (mem : a ∈ segs) (lo : a < p) (hi : p ≤ a + c.segmentBlockSizeAlign + h.stByteSize a) :
    segs.find? (fun s => decide (s < p) && decide (p ≤ nextPtr c h s)) = some a := by
  have test : (decide (a < p) && decide (p ≤ nextPtr c h a)) = true := by
    rw [core.nextPtr_eq mem]
    simp [lo, hi]
  obtain ⟨b, found⟩ : ∃ b, segs.find? (fun s => decide (s < p) && decide (p ≤ nextPtr c h s)) =
      some b := by
    rw [← Option.isSome_iff_exists, List.find?_isSome]
    exact ⟨a, mem, test⟩
  have bmem := List.mem_of_find?_eq_some found
  have inside : b < p ∧ p ≤ nextPtr c h b := by simpa using List.find?_some found
  rw [core.nextPtr_eq bmem] at inside
  rw [found, core.plots.eq_of_overlap bmem mem inside ⟨lo, hi⟩]

def InRange (c : Config) (h : Heap) (p : Nat) : Prop :=
  h.pvStartAddress ≤ p ∧ p < c.add h.pvStartAddress h.stTotalByteSize

instance (c : Config) (h : Heap) (p : Nat) : Decidable (InRange c h p) :=
  inferInstanceAs (Decidable (h.pvStartAddress ≤ p ∧ p < c.add h.pvStartAddress h.stTotalByteSize))

theorem heapVerify_spec {h : Heap} {segs free : List Nat} {a : Nat} {b : Block}
    (core : Core c g h segs free) (mem : a ∈ segs) (used : a ∉ free) (holds : Holds c h a b) :
    heapVerify c h b.ptr = if InRange c h b.ptr then some a else none := by
  obtain ⟨lo, hi, _⟩ := holds
  have pos := c.segmentBlockSizeAlign_pos
  rw [core.heapVerify_eq, core.find_eq mem (p := b.ptr) (by omega) (by omega)]
  by_cases range : InRange c h b.ptr
  · have inside : ¬(b.ptr < h.pvStartAddress ∨
        c.add h.pvStartAddress h.stTotalByteSize ≤ b.ptr) := by
      obtain ⟨first, last⟩ := range
      omega
    rw [if_neg inside, if_pos range]
    simp only [core.segmentIsUsed_eq mem used, if_true]
  · have outside : b.ptr < h.pvStartAddress ∨
        c.add h.pvStartAddress h.stTotalByteSize ≤ b.ptr := by
      simp only [InRange] at range
      omega
    rw [if_pos outside, if_neg range]

theorem heapSegmentOf_spec {h : Heap} {segs free : List Nat} {a : Nat} {b : Block}
    (core : Core c g h segs free) (mem : a ∈ segs) (used : a ∉ free) (holds : Holds c h a b)
    (bIsNeedVerify : Bool) :
    heapSegmentOf c h b.ptr bIsNeedVerify =
      if bIsNeedVerify = true → InRange c h b.ptr then some a else none := by
  cases bIsNeedVerify with
  | false =>
    rw [if_pos (by simp)]
    exact heapSegmentOf_unchecked core mem used holds
  | true =>
    simp only [heapSegmentOf, if_true, forall_const]
    exact heapVerify_spec core mem used holds

theorem heapFree_eq {h : Heap} {segs free : List Nat} {a : Nat} {b : Block}
    (core : Core c g h segs free) (mem : a ∈ segs) (used : a ∉ free) (holds : Holds c h a b)
    (bIsNeedVerify ulLockErr : Bool) :
    heapFree c h (some b.ptr) bIsNeedVerify ulLockErr =
      if ulLockErr = false ∧ (bIsNeedVerify = true → InRange c h b.ptr) then
        (none, heapRelease c h a)
      else (some b.ptr, h) := by
  unfold heapFree
  cases ulLockErr with
  | true => rfl
  | false =>
    simp only [Bool.false_eq_true, if_false, true_and]
    rw [heapSegmentOf_spec core mem used holds]
    by_cases accepted : bIsNeedVerify = true → InRange c h b.ptr
    · rw [if_pos accepted, if_pos accepted]
    · rw [if_neg accepted, if_neg accepted]

theorem heapFree_spec {h : Heap} {segs free : List Nat} {a : Nat} {b : Block}
    (core : Core c g h segs free) (mem : a ∈ segs) (used : a ∉ free) (holds : Holds c h a b)
    (bIsNeedVerify ulLockErr : Bool) :
    heapFree c h (some b.ptr) bIsNeedVerify ulLockErr = (some b.ptr, h) ∨
    ∃ h', heapFree c h (some b.ptr) bIsNeedVerify ulLockErr = (none, h') ∧
      Released c g h segs free a h' := by
  rw [heapFree_eq core mem used holds]
  split
  next => exact Or.inr ⟨_, rfl, heapRelease_spec core mem used⟩
  next => exact Or.inl rfl

end SylixOS.HeapLib
