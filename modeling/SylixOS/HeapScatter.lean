import SylixOS.HeapMemory

/-! Runs of the heap library that also add memory. The ranges given to the heap have no
byte in common; they may lie anywhere and in any order. Every segment keeps to the bytes
of these ranges. `_HeapVerify` takes the bytes of the heap for one range behind its first
segment, which they need not be. -/

namespace SylixOS.HeapLib
open LinkedChain ListLink IntervalTiling

variable {c : Config} {g : Ground}

def addGround (c : Config) (g : Ground) (pvMemory stSize : Nat) : Ground :=
  g.extend (c.roundUp pvMemory c.heapAlignment)
    (c.roundUp pvMemory c.heapAlignment + trimmedSize c pvMemory stSize)

def Heap.append (h : Heap) (n last st total : Nat) : Heap :=
  { (h.setByteSize n st).setMagic n segMagicReal with
    lineManage := listLineAddRight h.lineManage n last
    stTotalByteSize := total }

theorem Region.off {h : Heap} {segs free : List Nat} (core : Core c g h segs free)
    {pvMemory stSize : Nat} (region : Region c pvMemory stSize)
    (apart : ∀ y ∈ g.bytes, y ∉ regionBytes c pvMemory stSize) {a : Nat} (mem : a ∈ segs) :
    a + c.segmentBlockSizeAlign + h.stByteSize a ≤ c.roundUp pvMemory c.heapAlignment ∨
    c.roundUp pvMemory c.heapAlignment + trimmedSize c pvMemory stSize ≤ a := by
  have room := region.room
  have pos := c.segmentBlockSizeAlign_pos
  by_contra overlap
  rw [not_or, not_le, not_le] at overlap
  -- the higher of the two starts belongs to both
  have inside : ∀ y, y = max a (c.roundUp pvMemory c.heapAlignment) →
      y ∈ g.bytes ∧ y ∈ regionBytes c pvMemory stSize := by
    intro y hy
    rw [regionBytes, Finset.mem_Ico]
    refine ⟨(core.plots.mem_bytes y).mpr ⟨a, mem, ?_, ?_⟩, ?_, ?_⟩ <;> omega
  obtain ⟨old, new⟩ := inside _ rfl
  exact apart _ old new

theorem total_add_lt {h : Heap} {segs free : List Nat} (core : Core c g h segs free)
    {pvMemory stSize : Nat} (region : Region c pvMemory stSize)
    (apart : ∀ y ∈ g.bytes, y ∉ regionBytes c pvMemory stSize) :
    (addGround c g pvMemory stSize).bytes.card = h.stTotalByteSize + trimmedSize c pvMemory stSize ∧
    h.stTotalByteSize + trimmedSize c pvMemory stSize < c.modulus := by
  have count : (addGround c g pvMemory stSize).bytes.card =
      h.stTotalByteSize + trimmedSize c pvMemory stSize := by
    have size : (regionBytes c pvMemory stSize).card = trimmedSize c pvMemory stSize := by
      rw [regionBytes, Nat.card_Ico]
      omega
    rw [core.total_eq, ← size]
    exact Finset.card_union_of_disjoint (Finset.disjoint_left.mpr apart)
  have inside : (addGround c g pvMemory stSize).bytes ⊆ Finset.Ico 1 c.modulus := by
    intro y hy
    rw [Finset.mem_Ico]
    rcases Finset.mem_union.mp hy with old | new
    · obtain ⟨a, mem, lo, hi⟩ := (core.plots.mem_bytes y).mp old
      have bound := core.bounds a mem
      omega
    · have within := Finset.mem_Ico.mp new
      obtain ⟨le, _, _, fits⟩ := region.trimmed
      have pos := region.pos
      have lt := region.inside
      omega
  have le := Finset.card_le_card inside
  rw [Nat.card_Ico, count] at le
  have large := c.modulus_large
  exact ⟨count, by omega⟩

theorem Layout.append {h : Heap} {segs free : List Nat} (core : Core c g h segs free)
    {pvMemory stSize last : Nat} (region : Region c pvMemory stSize)
    (apart : ∀ y ∈ g.bytes, y ∉ regionBytes c pvMemory stSize) (final : segs.getLast? = some last) :
    Layout c (addGround c g pvMemory stSize)
      (h.append (c.roundUp pvMemory c.heapAlignment) last
        (trimmedSize c pvMemory stSize - c.segmentBlockSizeAlign)
        (h.stTotalByteSize + trimmedSize c pvMemory stSize))
      (segs ++ [c.roundUp pvMemory c.heapAlignment]) free ∧
    c.roundUp pvMemory c.heapAlignment ∉ segs ∧
    ∀ x ∉ segs ++ [c.roundUp pvMemory c.heapAlignment], SameMembers h
      (h.append (c.roundUp pvMemory c.heapAlignment) last
        (trimmedSize c pvMemory stSize - c.segmentBlockSizeAlign)
        (h.stTotalByteSize + trimmedSize c pvMemory stSize)) x := by
  obtain ⟨le, aligned, size_aligned, fits⟩ := region.trimmed
  have room := region.room
  have first := region.pos
  have inside := region.inside
  have pos := c.segmentBlockSizeAlign_pos
  obtain ⟨count, _⟩ := total_add_lt core region apart
  have off : ∀ a ∈ segs, _ := fun a mem => region.off core apart mem
  rw [addGround] at count ⊢
  generalize c.roundUp pvMemory c.heapAlignment = n at *
  generalize trimmedSize c pvMemory stSize = size at *
  have fresh : n ∉ segs := by
    intro mem
    have := off n mem
    omega
  obtain ⟨s, rfl⟩ : ∃ s, segs = s ++ [last] :=
    ⟨segs.dropLast, (List.dropLast_append_getLast? last final).symm⟩
  have hne : last ≠ n := fun e => fresh (by simp [e])
  have line := listLineAddTail_spec (t := []) core.line fresh
  rw [← listLineAddRight_eq hne] at line
  have size_n : (h.append n last (size - c.segmentBlockSizeAlign)
      (h.stTotalByteSize + size)).stByteSize n = size - c.segmentBlockSizeAlign := by
    simp [Heap.append, Heap.setByteSize, Heap.setMagic]
  have size_of : ∀ x, x ≠ n → (h.append n last (size - c.segmentBlockSizeAlign)
      (h.stTotalByteSize + size)).stByteSize x = h.stByteSize x := by
    intro x hx
    simp [Heap.append, Heap.setByteSize, Heap.setMagic, hx]
  have other : ∀ x ∈ s ++ [last], x ≠ n := fun x hx e => fresh (e ▸ hx)
  have whole : n + c.segmentBlockSizeAlign + (size - c.segmentBlockSizeAlign) = n + size := by omega
  refine ⟨⟨?_, core.ring, ?_, ?_, ?_, ?_, ?_, ?_, ?_, ?_⟩, fresh, ?_⟩
  · simpa [Heap.append] using line.1
  · intro a ha
    exact List.mem_append_left _ (core.free_mem a ha)
  · have plots := core.plots.congr fun a ha => size_of a (other a ha)
    have grown := plots.extend (n := n) fun a ha => by
      rw [size_of a (other a ha), size_n]
      have := off a ha
      omega
    rw [size_n, whole] at grown
    exact grown
  · intro a ha
    rcases List.mem_append.mp ha with ha | ha
    · have hax := other a ha
      simpa [Heap.append, Heap.setByteSize, Heap.setMagic, hax] using core.magic a ha
    · simp [Heap.append, Heap.setByteSize, Heap.setMagic, List.mem_singleton.mp ha]
  · intro a ha
    rcases List.mem_append.mp ha with ha | ha
    · exact core.aligned a ha
    · exact List.mem_singleton.mp ha ▸ aligned
  · intro a ha
    rcases List.mem_append.mp ha with ha | ha
    · rw [size_of a (other a ha)]
      exact core.size_aligned a ha
    · rw [List.mem_singleton.mp ha, size_n]
      exact Nat.dvd_sub size_aligned c.heapAlignment_dvd_segmentBlockSizeAlign
  · intro a ha
    rcases List.mem_append.mp ha with ha | ha
    · rw [size_of a (other a ha)]
      exact core.bounds a ha
    · rw [List.mem_singleton.mp ha, size_n]
      omega
  · have start := core.start_eq
    cases s with
    | nil => exact start
    | cons => exact start
  · exact count.symm
  · intro x hx
    have hxn : x ≠ n := fun e => hx (by simp [e])
    have frame := line.2 x (by simpa using hx)
    refine sameMembers_iff.mpr ⟨frame, ⟨rfl, rfl⟩, size_of x hxn, ?_⟩
    simp [Heap.append, Heap.setByteSize, Heap.setMagic, hxn]

theorem heapAddMemory_spec {h : Heap} {segs free : List Nat} (core : Core c g h segs free)
    {pvMemory stSize : Nat} (region : Region c pvMemory stSize)
    (apart : ∀ y ∈ g.bytes, y ∉ regionBytes c pvMemory stSize) :
    ∃ h' free', heapAddMemory c h pvMemory stSize false = (.errorNone, h') ∧
      free'.Perm (c.roundUp pvMemory c.heapAlignment :: free) ∧
      c.roundUp pvMemory c.heapAlignment ∉ segs ∧
      Core c (addGround c g pvMemory stSize) h' (segs ++ [c.roundUp pvMemory c.heapAlignment])
        free' ∧
      ∀ u ∈ segs, Keeps c h h' u := by
  obtain ⟨last, final⟩ : ∃ last, segs.getLast? = some last := by
    have first := core.start_eq
    cases segs with
    | nil => simp at first
    | cons a t => exact ⟨_, List.getLast?_eq_some_getLast (by simp)⟩
  obtain ⟨le, _, _, fits⟩ := region.trimmed
  have room := region.room
  have inside := region.inside
  obtain ⟨layout, fresh, frame⟩ := Layout.append core region apart final
  obtain ⟨_, lt⟩ := total_add_lt core region apart
  have unmet : segs.dropLast.any (heapAddOverlaps c h (c.roundUp pvMemory c.heapAlignment)
      (c.sub (c.add (c.roundUp pvMemory c.heapAlignment) (trimmedSize c pvMemory stSize)) 1)) =
        false := by
    rw [List.any_eq_false]
    intro a mem overlap
    obtain ⟨y, end_eq, lo, hi⟩ :=
      (heapAddOverlaps_iff core (List.dropLast_subset segs mem) region).mp overlap
    have off := region.off core apart (List.dropLast_subset segs mem)
    have pos := c.segmentBlockSizeAlign_pos
    omega
  have size : c.sub (trimmedSize c pvMemory stSize) c.segmentBlockSizeAlign =
      trimmedSize c pvMemory stSize - c.segmentBlockSizeAlign := Config.sub_eq room (by omega)
  have notFree : c.roundUp pvMemory c.heapAlignment ∉ free := fun mem =>
    fresh (core.free_mem _ mem)
  have counters := core.total
  have totalUp : c.add h.stTotalByteSize (trimmedSize c pvMemory stSize) =
      h.stTotalByteSize + trimmedSize c pvMemory stSize := Config.add_eq lt
  have counted : c.add h.ulSegmentCounter 1 = h.ulSegmentCounter + 1 :=
    layout.counter_up (by rw [core.counter]; simp)
  have usedUp : c.add h.stUsedByteSize c.segmentBlockSizeAlign =
      h.stUsedByteSize + c.segmentBlockSizeAlign := Config.add_eq (by omega)
  have freeUp : c.add h.stFreeByteSize (trimmedSize c pvMemory stSize - c.segmentBlockSizeAlign) =
      h.stFreeByteSize + (trimmedSize c pvMemory stSize - c.segmentBlockSizeAlign) :=
    Config.add_eq (by omega)
  have result : heapAddMemory c h pvMemory stSize false = (.errorNone,
      { (h.append (c.roundUp pvMemory c.heapAlignment) last
          (trimmedSize c pvMemory stSize - c.segmentBlockSizeAlign)
          (h.stTotalByteSize + trimmedSize c pvMemory stSize)).addNewSegToFreelist
            (c.roundUp pvMemory c.heapAlignment) with
        ulSegmentCounter := h.ulSegmentCounter + 1
        stUsedByteSize := h.stUsedByteSize + c.segmentBlockSizeAlign
        stFreeByteSize := h.stFreeByteSize +
          (trimmedSize c pvMemory stSize - c.segmentBlockSizeAlign) }) := by
    rw [core.heapAddMemory_eq region, if_neg Bool.false_ne_true, unmet, if_neg Bool.false_ne_true,
      final, size, ← totalUp, ← counted, ← usedUp, ← freeUp]
    rfl
  obtain ⟨free', perm, grown, ringFrame⟩ := layout.addNewSegToFreelist (by simp) notFree
  have size_new : (h.append (c.roundUp pvMemory c.heapAlignment) last
      (trimmedSize c pvMemory stSize - c.segmentBlockSizeAlign)
      (h.stTotalByteSize + trimmedSize c pvMemory stSize)).stByteSize
        (c.roundUp pvMemory c.heapAlignment) =
        trimmedSize c pvMemory stSize - c.segmentBlockSizeAlign := by
    simp [Heap.append, Heap.setByteSize, Heap.setMagic]
  have size_old : ∀ x ∈ segs, (h.append (c.roundUp pvMemory c.heapAlignment) last
      (trimmedSize c pvMemory stSize - c.segmentBlockSizeAlign)
      (h.stTotalByteSize + trimmedSize c pvMemory stSize)).stByteSize x = h.stByteSize x := by
    intro x hx
    have hxn : x ≠ c.roundUp pvMemory c.heapAlignment := fun e => fresh (e ▸ hx)
    simp [Heap.append, Heap.setByteSize, Heap.setMagic, hxn]
  refine ⟨_, free', result, perm, fresh, ⟨grown.of_counters rfl rfl rfl rfl rfl rfl rfl,
    ?_, ?_, ?_, ?_⟩, ?_⟩
  · intro a mem used
    have out : a ∉ c.roundUp pvMemory c.heapAlignment :: free := fun e => used (perm.mem_iff.mpr e)
    have old : a ∈ segs := by
      rcases List.mem_append.mp mem with old | new
      · exact old
      · exact absurd (List.mem_cons.mpr (Or.inl (List.mem_singleton.mp new))) out
    have kept := (ringFrame a out).ringPrev
    exact kept.trans (core.used a old fun e => out (List.mem_cons_of_mem _ e))
  · simp [core.counter]
  · have sums := (perm.map (h.append (c.roundUp pvMemory c.heapAlignment) last
      (trimmedSize c pvMemory stSize - c.segmentBlockSizeAlign)
      (h.stTotalByteSize + trimmedSize c pvMemory stSize)).stByteSize).sum_eq
    rw [List.map_cons, List.sum_cons, size_new,
      sum_congr fun x hx => size_old x (core.free_mem x hx), ← core.freeBytes] at sums
    exact (Nat.add_comm _ _).trans sums.symm
  · change h.stUsedByteSize + c.segmentBlockSizeAlign + (h.stFreeByteSize +
      (trimmedSize c pvMemory stSize - c.segmentBlockSizeAlign)) =
      h.stTotalByteSize + trimmedSize c pvMemory stSize
    omega
  · intro u mem
    refine layout.keeps ?_ (List.mem_append_left _ mem) (size_old u mem) (size_old u mem)
    intro x out
    refine (frame x out).trans (ringFrame x ?_)
    intro e
    rcases List.mem_cons.mp e with rfl | e
    · exact out (by simp)
    · exact out (List.mem_append_left _ (core.free_mem x e))

theorem Separated.append {free free' segs : List Nat} {n stop : Nat} (sep : Separated g free segs)
    (perm : free'.Perm (n :: free)) (fresh : n ∉ segs) :
    Separated (g.extend n stop) free' (segs ++ [n]) := by
  have old : ∀ a ∈ segs, a ∈ free' → a ∈ free := by
    intro a ha hf
    rcases List.mem_cons.mp (perm.mem_iff.mp hf) with rfl | hf
    · exact absurd ha fresh
    · exact hf
  refine List.isChain_append.mpr ⟨?_, List.isChain_singleton n, ?_⟩
  · refine (sep.mono old).imp fun a b apart => ?_
    exact apart.imp_left (Set.mem_insert_of_mem n)
  · intro a _ b hb
    have hbn : b = n := by simpa using hb.symm
    exact Or.inl (hbn ▸ Set.mem_insert n g.starts)

theorem Inv.addMemory {σ : State} (inv : Inv c g σ) {pvMemory stSize : Nat}
    (region : Region c pvMemory stSize)
    (apart : ∀ y ∈ g.bytes, y ∉ regionBytes c pvMemory stSize) :
    Inv c (addGround c g pvMemory stSize)
      ⟨(heapAddMemory c σ.heap pvMemory stSize false).2, σ.live⟩ := by
  obtain ⟨segs, free, pairs, core, sep, owned, blocks⟩ := inv
  obtain ⟨h', free', added, perm, fresh, core', keep⟩ := heapAddMemory_spec core region apart
  rw [added]
  refine ⟨_, free', pairs, core', sep.append perm fresh, owned.keep ?_, blocks⟩
  intro u mem used _
  refine ⟨List.mem_append_left _ mem, ?_, keep u mem⟩
  intro hf
  rcases List.mem_cons.mp (perm.mem_iff.mp hf) with rfl | hf
  · exact fresh mem
  · exact used hf

inductive Step where
  | call (k : Call)
  | addMemory (pvMemory stSize : Nat) (ulLockErr : Bool)
  deriving DecidableEq, Repr

def execStep (c : Config) (σ : State) : Step → State
  | .call k => exec c σ k
  | .addMemory pvMemory stSize err => ⟨(heapAddMemory c σ.heap pvMemory stSize err).2, σ.live⟩

def runSteps (c : Config) (σ : State) (steps : List Step) : State := steps.foldl (execStep c) σ

def LegalStep (c : Config) (σ : State) : Step → Prop
  | .call k => Legal c σ k
  | .addMemory pvMemory stSize _ => Region c pvMemory stSize

def LegalSteps (c : Config) : State → List Step → Prop
  | _, [] => True
  | σ, k :: ks => LegalStep c σ k ∧ LegalSteps c (execStep c σ k) ks

def Step.range : Step → Option (Nat × Nat)
  | .addMemory pvMemory stSize false => some (pvMemory, stSize)
  | _ => none

def RangesApart (r r' : Nat × Nat) : Prop := r.1 + r.2 ≤ r'.1 ∨ r'.1 + r'.2 ≤ r.1

def Step.NoWrap (c : Config) : Step → Prop
  | .call k => HeapLib.NoWrap c k
  | .addMemory _ _ _ => True

instance (c : Config) (pvMemory stSize : Nat) : Decidable (Region c pvMemory stSize) :=
  decidable_of_iff (0 < pvMemory ∧ pvMemory + stSize < c.modulus ∧
      c.segmentBlockSizeAlign ≤ trimmedSize c pvMemory stSize)
    ⟨fun ⟨pos, inside, room⟩ => ⟨pos, inside, room⟩, fun ⟨pos, inside, room⟩ => ⟨pos, inside, room⟩⟩

instance (c : Config) (σ : State) (k : Step) : Decidable (LegalStep c σ k) :=
  match k with
  | .call k => inferInstanceAs (Decidable (Legal c σ k))
  | .addMemory pvMemory stSize _ => inferInstanceAs (Decidable (Region c pvMemory stSize))

instance decidableLegalSteps (c : Config) :
    (σ : State) → (steps : List Step) → Decidable (LegalSteps c σ steps)
  | _, [] => isTrue trivial
  | σ, k :: ks =>
    @instDecidableAnd _ _ inferInstance (decidableLegalSteps c (execStep c σ k) ks)

instance (r r' : Nat × Nat) : Decidable (RangesApart r r') :=
  inferInstanceAs (Decidable (_ ∨ _))

instance (c : Config) (k : Step) : Decidable (k.NoWrap c) :=
  match k with
  | .call k => inferInstanceAs (Decidable (HeapLib.NoWrap c k))
  | .addMemory _ _ _ => isTrue trivial

def Given (g : Ground) (ranges : List (Nat × Nat)) : Prop :=
  ∀ y ∈ g.bytes, ∃ r ∈ ranges, r.1 ≤ y ∧ y < r.1 + r.2

theorem Region.mem_range {pvMemory stSize y : Nat} (region : Region c pvMemory stSize)
    (mem : y ∈ regionBytes c pvMemory stSize) : pvMemory ≤ y ∧ y < pvMemory + stSize := by
  obtain ⟨le, _, _, fits⟩ := region.trimmed
  rw [regionBytes, Finset.mem_Ico] at mem
  omega

theorem Inv.execStep {σ : State} {ranges : List (Nat × Nat)} {k : Step} (inv : Inv c g σ)
    (given : Given g ranges) (legal : LegalStep c σ k) (noWrap : k.NoWrap c)
    (apart : (ranges ++ k.range.toList).Pairwise RangesApart) :
    ∃ g', Inv c g' (execStep c σ k) ∧ Given g' (ranges ++ k.range.toList) := by
  cases k with
  | call k =>
    refine ⟨g, inv.exec legal noWrap, ?_⟩
    simpa [Step.range] using given
  | addMemory pvMemory stSize err =>
    cases err with
    | true =>
      refine ⟨g, ?_, by simpa [Step.range] using given⟩
      have same : heapAddMemory c σ.heap pvMemory stSize true = (.lockErr, σ.heap) := rfl
      simpa [HeapLib.execStep, same] using inv
    | false =>
      have region : Region c pvMemory stSize := legal
      have off := (List.pairwise_append.mp apart).2.2
      refine ⟨_, inv.addMemory region ?_, ?_⟩
      · intro y old new
        obtain ⟨r, hr, lo, hi⟩ := given y old
        have within := region.mem_range new
        have none := off r hr (pvMemory, stSize) (by simp [Step.range])
        rw [RangesApart] at none
        omega
      · intro y hy
        rcases Finset.mem_union.mp hy with old | new
        · obtain ⟨r, hr, within⟩ := given y old
          exact ⟨r, List.mem_append_left _ hr, within⟩
        · exact ⟨(pvMemory, stSize), by simp [Step.range], region.mem_range new⟩

theorem Inv.runSteps {σ : State} {ranges : List (Nat × Nat)} {steps : List Step} (inv : Inv c g σ)
    (given : Given g ranges) (legal : LegalSteps c σ steps)
    (noWrap : ∀ k ∈ steps, k.NoWrap c)
    (apart : (ranges ++ steps.filterMap Step.range).Pairwise RangesApart) :
    ∃ g', Inv c g' (runSteps c σ steps) := by
  induction steps generalizing σ g ranges with
  | nil => exact ⟨g, inv⟩
  | cons k ks ih =>
    have split : (k :: ks).filterMap Step.range = k.range.toList ++ ks.filterMap Step.range := by
      cases hk : k.range with
      | none => simp [hk]
      | some r => simp [hk]
    rw [split, ← List.append_assoc] at apart
    obtain ⟨g', next, given'⟩ := inv.execStep given legal.1 (noWrap k (by simp))
      (List.pairwise_append.mp apart).1
    exact ih next given' legal.2 (fun k' hk => noWrap k' (by simp [hk])) apart

/-- A state that the constructor and any steps on live pointers and disjoint memory lead
to when no size wraps. -/
def Reachable (c : Config) (σ : State) : Prop :=
  ∃ h pvStartAddress stByteSize steps, Region c pvStartAddress stByteSize ∧
    LegalSteps c (start c h pvStartAddress stByteSize) steps ∧
    ((pvStartAddress, stByteSize) :: steps.filterMap Step.range).Pairwise RangesApart ∧
    (∀ k ∈ steps, k.NoWrap c) ∧ runSteps c (start c h pvStartAddress stByteSize) steps = σ

theorem Reachable.inv {σ : State} (reached : Reachable c σ) : ∃ g, Inv c g σ := by
  obtain ⟨h, pvStartAddress, stByteSize, steps, region, legal, apart, noWrap, rfl⟩ := reached
  have given : Given ⟨regionBytes c pvStartAddress stByteSize, ∅⟩
      [(pvStartAddress, stByteSize)] := by
    intro y hy
    exact ⟨_, List.mem_singleton_self _, region.mem_range hy⟩
  exact (heapCtorEx_spec region).runSteps given legal noWrap apart

theorem Reachable.block {σ : State} (reached : Reachable c σ) {b : Block} (live : b ∈ σ.live) :
    ∃ g segs free a, Core c g σ.heap segs free ∧ a ∈ segs ∧ a ∉ free ∧ Holds c σ.heap a b := by
  obtain ⟨g, segs, free, pairs, core, _, owned, blocks⟩ := reached.inv
  rw [← blocks] at live
  obtain ⟨⟨a, b⟩, pair, rfl⟩ := List.mem_map.mp live
  exact ⟨g, segs, free, a, core, owned.serves _ pair⟩

structure Accepted (c : Config) (h : Heap) (b : Block) : Prop where
  verified : (heapVerify c h b.ptr).isSome
  free : ∃ h' segs a, heapFree c h (some b.ptr) true false = (none, h') ∧
    IsLine h'.lineManage segs ∧ a ∈ segs ∧ segmentIsUsed h' a = false ∧
    a + c.segmentBlockSizeAlign ≤ b.ptr ∧
    b.ptr + b.size ≤ a + c.segmentBlockSizeAlign + h'.stByteSize a
  realloc : ∀ n err,
    heapRealloc c h (some b.ptr) n true err = heapRealloc c h (some b.ptr) n false err

theorem accepted_iff {h : Heap} {segs free : List Nat} {a : Nat} {b : Block}
    (core : Core c g h segs free) (mem : a ∈ segs) (used : a ∉ free) (holds : Holds c h a b) :
    Accepted c h b ↔ InRange c h b.ptr := by
  constructor
  · intro accepted
    by_contra outside
    have verified := accepted.verified
    rw [heapVerify_spec core mem used holds, if_neg outside] at verified
    exact absurd verified (by simp)
  · intro inside
    have checked : heapSegmentOf c h b.ptr true = some a := by
      rw [heapSegmentOf_spec core mem used holds, if_pos fun _ => inside]
    have unchecked := heapSegmentOf_unchecked core mem used holds
    refine ⟨?_, ?_, ?_⟩
    · rw [heapVerify_spec core mem used holds, if_pos inside]
      rfl
    · obtain ⟨s, t, rfl⟩ := List.append_of_mem mem
      obtain ⟨s', l, t', free', freed⟩ := heapRelease_freed core used
      obtain ⟨le, reach⟩ := freed.covers
      have ⟨lo, hi, _⟩ := holds
      refine ⟨_, _, l, ?_, freed.core.line, by simp, ?_, by omega, by omega⟩
      · rw [heapFree_eq core mem used holds, if_pos ⟨rfl, fun _ => inside⟩]
      · exact (freed.core.mem_free_iff (by simp)).mpr freed.mem
    · intro n err
      simp only [heapRealloc, heapFree, checked, unchecked]

/-- In every state a run reaches, verify mode accepts exactly the live pointers that lie
less than the size of the heap behind its first segment. -/
theorem live_pointer_accepted_iff (c : Config) (σ : State) (reached : Reachable c σ) (b : Block)
    (live : b ∈ σ.live) : Accepted c σ.heap b ↔ InRange c σ.heap b.ptr := by
  obtain ⟨g, segs, free, a, core, mem, used, holds⟩ := reached.block live
  exact accepted_iff core mem used holds

/-- Memory that continues the region of the constructor stays in reach. -/
theorem live_pointer_accepted_behind :
    Accepted ⟨.w64, true⟩ (runSteps ⟨.w64, true⟩ (start ⟨.w64, true⟩ blankHeap 0x1000 0x100)
      [.call (.allocate 100 false), .addMemory 0x1100 0x1000 false,
        .call (.allocate 200 false)]).heap ⟨0x1130, 200⟩ :=
  (live_pointer_accepted_iff ⟨.w64, true⟩ _
    ⟨blankHeap, 0x1000, 0x100, _, by decide, by decide +kernel, by decide, by decide, rfl⟩
    ⟨0x1130, 200⟩ (by decide +kernel)).mpr (by decide +kernel)

/-- A block in memory added farther off is live, and verify mode refuses it. -/
theorem live_pointer_refused_far_off :
    ¬ ∀ (c : Config) (σ : State), Reachable c σ → ∀ b ∈ σ.live, Accepted c σ.heap b := by
  intro all
  have accepted := all ⟨.w64, false⟩ _ ⟨blankHeap, 0x1000, 0x100,
    [.call (.allocate 200 false), .addMemory 0x100000 0x1000 false, .call (.allocate 100 false)],
    by decide, by decide +kernel, by decide, by decide, rfl⟩ ⟨0x100030, 100⟩ (by decide +kernel)
  have verified := accepted.verified
  have refused : heapVerify ⟨.w64, false⟩ (runSteps ⟨.w64, false⟩
      (start ⟨.w64, false⟩ blankHeap 0x1000 0x100)
      [.call (.allocate 200 false), .addMemory 0x100000 0x1000 false,
        .call (.allocate 100 false)]).heap 0x100030 = none := by
    decide +kernel
  rw [refused] at verified
  exact absurd verified (by simp)

end SylixOS.HeapLib
