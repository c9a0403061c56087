import SylixOS.HeapRuns

/-! Memory added to a heap, at any address. The walk of `_HeapAddMemory` tests every
segment but the last one, and of each only whether the first or the last byte of the new
memory is one of its data. -/

namespace SylixOS.HeapLib
open LinkedChain ListLink IntervalTiling

variable {c : Config} {g : Ground}

def Off (c : Config) (h : Heap) (pvMemory stSize a : Nat) : Prop :=
  pvMemory + stSize ≤ a ∨ a + c.segmentBlockSizeAlign + h.stByteSize a ≤ pvMemory

def HasEnd (c : Config) (h : Heap) (pvMemory stSize a : Nat) : Prop :=
  ∃ y, (y = c.roundUp pvMemory c.heapAlignment ∨
      y + 1 = c.roundUp pvMemory c.heapAlignment + trimmedSize c pvMemory stSize) ∧
    a + c.segmentBlockSizeAlign ≤ y ∧ y < a + c.segmentBlockSizeAlign + h.stByteSize a

instance (c : Config) (h : Heap) (pvMemory stSize a : Nat) : Decidable (Off c h pvMemory stSize a) :=
  inferInstanceAs (Decidable (_ ∨ _))

theorem Region.shrink {pvMemory stSize : Nat} (region : Region c pvMemory stSize) :
    c.roundDown (if c.roundUp pvMemory c.heapAlignment > pvMemory then
      c.sub stSize (c.sub (c.roundUp pvMemory c.heapAlignment) pvMemory)
      else stSize) c.heapAlignment = trimmedSize c pvMemory stSize := by
  obtain ⟨le, _, _, fits⟩ := region.trimmed
  obtain ⟨pos, inside, room⟩ := region
  have hpos := c.segmentBlockSizeAlign_pos
  rw [trimmedSize]
  split
  next above =>
    have skip : c.sub (c.roundUp pvMemory c.heapAlignment) pvMemory =
        c.roundUp pvMemory c.heapAlignment - pvMemory := Config.sub_eq le (by omega)
    rw [skip, Config.sub_eq (by omega) (by omega)]
  next same =>
    have zero : c.roundUp pvMemory c.heapAlignment - pvMemory = 0 := by omega
    rw [zero, Nat.sub_zero]

theorem heapAddOverlaps_iff {h : Heap} {segs free : List Nat} {a pvMemory stSize : Nat}
    (core : Core c g h segs free) (mem : a ∈ segs) (region : Region c pvMemory stSize) :
    heapAddOverlaps c h (c.roundUp pvMemory c.heapAlignment)
      (c.sub (c.add (c.roundUp pvMemory c.heapAlignment) (trimmedSize c pvMemory stSize)) 1) a = true ↔
    HasEnd c h pvMemory stSize a := by
  obtain ⟨_, _, _, fits⟩ := region.trimmed
  obtain ⟨_, inside, room⟩ := region
  have hpos := c.segmentBlockSizeAlign_pos
  have bound := core.bounds a mem
  have stop : c.add (c.roundUp pvMemory c.heapAlignment) (trimmedSize c pvMemory stSize) =
      c.roundUp pvMemory c.heapAlignment + trimmedSize c pvMemory stSize := Config.add_eq (by omega)
  have last : c.sub (c.roundUp pvMemory c.heapAlignment + trimmedSize c pvMemory stSize) 1 =
      c.roundUp pvMemory c.heapAlignment + trimmedSize c pvMemory stSize - 1 :=
    Config.sub_eq (by omega) (by omega)
  have data := core.dataPtr_eq mem
  have reach : c.add (a + c.segmentBlockSizeAlign) (h.stByteSize a) =
      a + c.segmentBlockSizeAlign + h.stByteSize a := Config.add_eq (by omega)
  simp only [heapAddOverlaps, stop, last, data, reach, Bool.or_eq_true, Bool.and_eq_true,
    decide_eq_true_eq, HasEnd]
  constructor
  · rintro (first | final)
    · exact ⟨_, Or.inl rfl, first⟩
    · exact ⟨_, Or.inr (by omega), final⟩
  · rintro ⟨y, rfl | end_eq, within⟩
    · exact Or.inl within
    · exact Or.inr (by omega)

theorem heapAddScan_eq {h : Heap} {ulStartAlign ulEnd a : Nat} {s t : List Nat}
    (line : IsLine h.lineManage (s ++ a :: t)) {fuel : Nat} (enough : t.length < fuel) :
    heapAddScan c h ulStartAlign ulEnd fuel a =
      if (a :: t).dropLast.any (heapAddOverlaps c h ulStartAlign ulEnd) then none
      else (a :: t).getLast? := by
  induction t generalizing s a fuel with
  | nil =>
    obtain ⟨fuel, rfl⟩ : ∃ k, fuel = k + 1 := ⟨fuel - 1, by simp at enough; omega⟩
    have last : h.lineManage.next a = none := by simpa using line.split.2
    simp [heapAddScan, last]
  | cons b t ih =>
    obtain ⟨fuel, rfl⟩ : ∃ k, fuel = k + 1 := ⟨fuel - 1, by simp at enough; omega⟩
    have next : h.lineManage.next a = some b := by simpa using line.split.2
    have rest : IsLine h.lineManage ((s ++ [a]) ++ b :: t) := by simpa using line
    have short : t.length < fuel := by
      simp only [List.length_cons] at enough
      omega
    have step := ih rest short
    rw [heapAddScan, next]
    simp only
    by_cases overlap : heapAddOverlaps c h ulStartAlign ulEnd a = true
    · rw [if_pos overlap, if_pos]
      simp [overlap]
    · rw [if_neg overlap, step, List.getLast?_cons_cons]
      simp [overlap]

theorem Core.heapAddMemory_eq {h : Heap} {segs free : List Nat} (core : Core c g h segs free)
    {pvMemory stSize : Nat} (region : Region c pvMemory stSize) (ulLockErr : Bool) :
    heapAddMemory c h pvMemory stSize ulLockErr =
      if ulLockErr then (.lockErr, h)
      else
        match (if segs.dropLast.any (heapAddOverlaps c h (c.roundUp pvMemory c.heapAlignment)
            (c.sub (c.add (c.roundUp pvMemory c.heapAlignment)
              (trimmedSize c pvMemory stSize)) 1)) then none else segs.getLast?) with
        | none => (.efault, h)
        | some psegmentLast =>
          let psegmentNew := c.roundUp pvMemory c.heapAlignment
          let st := c.sub (trimmedSize c pvMemory stSize) c.segmentBlockSizeAlign
          let h := (h.setByteSize psegmentNew st).setMagic psegmentNew segMagicReal
          let h := { h with lineManage := listLineAddRight h.lineManage psegmentNew psegmentLast }
          let h := (h.addNewSegToFreelist psegmentNew).countUp c
          (.errorNone,
            { h with
              stTotalByteSize := c.add h.stTotalByteSize (trimmedSize c pvMemory stSize)
              stUsedByteSize := c.add h.stUsedByteSize c.segmentBlockSizeAlign
              stFreeByteSize := c.add h.stFreeByteSize st }) := by
  have first := core.start_eq
  have line := core.line
  have count := core.counter
  cases segs with
  | nil => simp at first
  | cons a t =>
    have start : h.pvStartAddress = a := by simpa using first.symm
    have enough : t.length < h.ulSegmentCounter := by
      rw [count]
      simp
    have scan := @heapAddScan_eq c h (c.roundUp pvMemory c.heapAlignment)
      (c.sub (c.add (c.roundUp pvMemory c.heapAlignment) (trimmedSize c pvMemory stSize)) 1)
      a [] t line h.ulSegmentCounter enough
    unfold heapAddMemory
    simp only [region.shrink, start, scan]
    all_goals rfl

theorem heapAddMemory_status {h : Heap} {segs free : List Nat} (core : Core c g h segs free)
    {pvMemory stSize : Nat} (region : Region c pvMemory stSize) (ulLockErr : Bool) :
    (heapAddMemory c h pvMemory stSize ulLockErr).1 = .errorNone ↔
      ulLockErr = false ∧ ∀ a ∈ segs.dropLast, ¬HasEnd c h pvMemory stSize a := by
  have overlap_iff : segs.dropLast.any (heapAddOverlaps c h (c.roundUp pvMemory c.heapAlignment)
      (c.sub (c.add (c.roundUp pvMemory c.heapAlignment) (trimmedSize c pvMemory stSize)) 1)) =
        true ↔ ∃ a ∈ segs.dropLast, HasEnd c h pvMemory stSize a := by
    rw [List.any_eq_true]
    refine exists_congr fun a => and_congr_right fun mem => ?_
    exact heapAddOverlaps_iff core (List.dropLast_subset segs mem) region
  obtain ⟨last, final⟩ : ∃ last, segs.getLast? = some last := by
    have first := core.start_eq
    cases segs with
    | nil => simp at first
    | cons a t => exact ⟨_, List.getLast?_eq_some_getLast (by simp)⟩
  rw [core.heapAddMemory_eq region]
  cases ulLockErr with
  | true => simp
  | false =>
    simp only [Bool.false_eq_true, if_false, true_and]
    by_cases overlap : ∃ a ∈ segs.dropLast, HasEnd c h pvMemory stSize a
    · rw [if_pos (overlap_iff.mpr overlap)]
      simp only [reduceCtorEq, false_iff]
      push Not
      exact overlap
    · rw [if_neg (fun e => overlap (overlap_iff.mp e)), final]
      simp only [true_iff]
      push Not at overlap
      exact overlap

theorem heapAddMemory_refused {h : Heap} {segs free : List Nat} (core : Core c g h segs free)
    {pvMemory stSize : Nat} (region : Region c pvMemory stSize) (ulLockErr : Bool)
    (refused : (heapAddMemory c h pvMemory stSize ulLockErr).1 ≠ .errorNone) :
    (heapAddMemory c h pvMemory stSize ulLockErr).2 = h := by
  revert refused
  rw [core.heapAddMemory_eq region]
  cases ulLockErr with
  | true => exact fun _ => rfl
  | false =>
    simp only [Bool.false_eq_true, if_false]
    split
    next => exact fun _ => rfl
    next => exact fun refused => absurd rfl refused

/-- A heap takes exactly the ranges that have neither end in the data of a segment before the
last one; so it keeps off its segments only where the range does, or the test finds it. -/
theorem addMemory_keeps_off_iff (c : Config) (g : Ground) (h : Heap) (segs free : List Nat)
    (core : Core c g h segs free) (pvMemory stSize : Nat) (region : Region c pvMemory stSize)
    (ulLockErr : Bool) :
    (((heapAddMemory c h pvMemory stSize ulLockErr).1 = .errorNone →
        ∀ a ∈ segs, Off c h pvMemory stSize a) ∧
      ((heapAddMemory c h pvMemory stSize ulLockErr).1 ≠ .errorNone →
        (heapAddMemory c h pvMemory stSize ulLockErr).2 = h)) ↔
    (∀ a ∈ segs, Off c h pvMemory stSize a) ∨ ulLockErr = true ∨
      ∃ a ∈ segs.dropLast, HasEnd c h pvMemory stSize a := by
  rw [heapAddMemory_status core region]
  constructor
  · rintro ⟨keeps, _⟩
    by_cases taken : ulLockErr = false ∧ ∀ a ∈ segs.dropLast, ¬HasEnd c h pvMemory stSize a
    · exact Or.inl (keeps taken)
    · by_cases locked : ulLockErr = true
      · exact Or.inr (Or.inl locked)
      · refine Or.inr (Or.inr ?_)
        by_contra none
        refine taken ⟨by simpa using locked, fun a mem overlap => none ⟨a, mem, overlap⟩⟩
  · intro condition
    refine ⟨?_, heapAddMemory_refused core region ulLockErr⟩
    · rintro ⟨unlocked, apart⟩
      rcases condition with off | locked | ⟨a, mem, overlap⟩
      · exact off
      · exact absurd (unlocked.symm.trans locked) Bool.false_ne_true
      · exact absurd overlap (apart a mem)

theorem addMemory_keeps_off_elsewhere :
    ((heapAddMemory ⟨.w64, false⟩ (heapCtorEx ⟨.w64, false⟩ blankHeap 0x1000 0x1000) 0x3000 0x1000
        false).1 = .errorNone →
      ∀ a ∈ [0x1000], Off ⟨.w64, false⟩ (heapCtorEx ⟨.w64, false⟩ blankHeap 0x1000 0x1000)
        0x3000 0x1000 a) ∧
    ((heapAddMemory ⟨.w64, false⟩ (heapCtorEx ⟨.w64, false⟩ blankHeap 0x1000 0x1000) 0x3000 0x1000
        false).1 ≠ .errorNone →
      (heapAddMemory ⟨.w64, false⟩ (heapCtorEx ⟨.w64, false⟩ blankHeap 0x1000 0x1000) 0x3000 0x1000
        false).2 = heapCtorEx ⟨.w64, false⟩ blankHeap 0x1000 0x1000) :=
  (addMemory_keeps_off_iff ⟨.w64, false⟩ _ _ _ _
    (heapCtorEx_core (h := blankHeap) ⟨by decide, by decide, by decide⟩)
    0x3000 0x1000 ⟨by decide, by decide, by decide⟩ false).mpr (Or.inl (by decide))

/-- The only segment of a heap is its last one, so its own memory can be added again. -/
theorem addMemory_takes_own_region :
    ¬ ∀ (c : Config) (g : Ground) (h : Heap) (segs free : List Nat), Core c g h segs free →
      ∀ pvMemory stSize, Region c pvMemory stSize → ∀ ulLockErr,
        ((heapAddMemory c h pvMemory stSize ulLockErr).1 = .errorNone →
          ∀ a ∈ segs, Off c h pvMemory stSize a) ∧
        ((heapAddMemory c h pvMemory stSize ulLockErr).1 ≠ .errorNone →
          (heapAddMemory c h pvMemory stSize ulLockErr).2 = h) := by
  intro all
  have region : Region ⟨.w64, false⟩ 0x1000 0x1000 := ⟨by decide, by decide, by decide⟩
  have core := heapCtorEx_core (h := blankHeap) region
  have taken : (heapAddMemory ⟨.w64, false⟩ (heapCtorEx ⟨.w64, false⟩ blankHeap 0x1000 0x1000)
      0x1000 0x1000 false).1 = .errorNone := by decide
  have off := (all _ _ _ _ _ core 0x1000 0x1000 region false).1 taken 0x1000 (by decide)
  exact absurd off (by decide)

end SylixOS.HeapLib
