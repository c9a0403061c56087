import SylixOS.HeapRuns

/-! What a request gets. Its size is rounded up, and the space in front of an aligned
block is added to it, in machine words and with no test before the sums. -/

namespace SylixOS.HeapLib
open LinkedChain ListLink IntervalTiling Function

variable {c : Config} {g : Ground}

def heapSearch (h : Heap) (found : Nat → Bool) : Option Nat :=
  h.pringFreeSegment.bind (ringScan h.ringFreeList h.pringFreeSegment found h.ulSegmentCounter)

def heapAllocateSegment (c : Config) (h : Heap) (stByteSize : Nat) (ulLockErr : Bool) :
    Option Nat :=
  if h.stFreeByteSize < requestSize c stByteSize ∨ ulLockErr = true then none
  else heapSearch h fun s => requestSize c stByteSize ≤ h.stByteSize s

def heapAllocateAlignSegment (c : Config) (h : Heap) (stByteSize stAlign : Nat)
    (ulLockErr : Bool) : Option Nat :=
  if h.stFreeByteSize < requestSize c stByteSize ∨ ulLockErr = true then none
  else
    (heapSearch h fun s =>
        c.add (requestSize c stByteSize) (addedSize c stAlign s) ≤ h.stByteSize s).map
      fun psegment =>
        if addedSize c stAlign psegment ≥ c.segmentBlockSizeAlign + heapSegMinSize then
          (heapSplitFront c h psegment (addedSize c stAlign psegment)).2
        else psegment

/-- An allocation that returned `r` for a block of the segment `psegment`: the segment
has `n` bytes, and the pointer is a multiple of the alignment. -/
def Served (r : Option Nat × Heap) (psegment : Option Nat) (n stAlign : Nat) : Prop :=
  ∀ p, r.1 = some p → p ≠ 0 →
    ∃ a, psegment = some a ∧ n ≤ r.2.stByteSize a ∧ stAlign ∣ p

section Words

theorem Config.add_wrap {a b : Nat} (ha : a < c.modulus) (hb : b < c.modulus)
    (wraps : c.modulus ≤ a + b) : c.add a b = a + b - c.modulus := by
  rw [Config.add, Nat.mod_eq_sub_mod wraps]
  exact Nat.mod_eq_of_lt (by omega)

theorem Config.sub_wrap {a b : Nat} (lt : a < b) (hb : b < c.modulus) :
    c.sub a b = c.modulus + a - b := by
  rw [Config.sub, ← Nat.add_sub_assoc hb.le, Nat.add_comm]
  exact Nat.mod_eq_of_lt (by omega)

theorem Config.add_ne {a b : Nat} (ha : a < c.modulus) (pos : 0 < b) (hb : b < c.modulus) :
    c.add a b ≠ a := by
  by_cases wraps : c.modulus ≤ a + b
  · rw [Config.add_wrap ha hb wraps]
    omega
  · rw [Config.add_eq (by omega)]
    omega

theorem Config.two_pow_half {k : Nat} (lt : 2 ^ k < c.modulus) : 2 * 2 ^ k ≤ c.modulus := by
  obtain ⟨m, hm⟩ := Config.two_pow_dvd_modulus lt
  have two : 2 ≤ m := by
    by_contra small
    obtain rfl | rfl : m = 0 ∨ m = 1 := by omega
    · rw [hm, Nat.mul_zero] at lt
      exact absurd lt (Nat.not_lt_zero _)
    · rw [Nat.mul_one] at hm
      omega
  rw [hm, Nat.mul_comm]
  exact Nat.mul_le_mul_left _ two

theorem requestSize_wrap {n : Nat} (lt : n < c.modulus)
    (wraps : c.modulus ≤ n + c.markSize + 15) : requestSize c n ≤ 16 := by
  have large := c.modulus_large
  have word := c.sizeofSizeT_le_eight
  have round : ∀ x, x < 8 ∨ c.modulus ≤ x + 15 ∧ x < c.modulus →
      c.roundUp x heapSegMinSize ≤ 16 := by
    intro x hx
    simp only [Config.roundUp, heapSegMinSize, Nat.reduceSub]
    rcases hx with small | ⟨above, inside⟩
    · rw [Config.add_eq (by omega)]
      omega
    · rw [Config.add_wrap inside (by omega) above]
      omega
  rw [requestSize]
  refine round _ ?_
  rw [Config.markSize] at wraps
  rw [heapCrossbordSize]
  split
  next marked =>
    rw [if_pos marked] at wraps
    by_cases above : c.modulus ≤ n + c.sizeofSizeT
    · rw [Config.add_wrap lt (by omega) above]
      omega
    · rw [Config.add_eq (by omega)]
      omega
  next plain =>
    rw [if_neg plain] at wraps
    omega

end Words

theorem Core.heapSearch_eq {h : Heap} {segs free : List Nat} (core : Core c g h segs free)
    (found : Nat → Bool) : heapSearch h found = free.find? found := by
  rw [heapSearch]
  cases header : h.pringFreeSegment with
  | none =>
    have empty := core.ring.header_eq
    rw [header] at empty
    have nil : free = [] := List.head?_eq_none_iff.mp empty.symm
    rw [nil]
    rfl
  | some first =>
    have scan := core.ringScan_eq found header
    rw [header] at scan
    exact scan

theorem Core.free_room {h : Heap} {segs free : List Nat} (core : Core c g h segs free) {a : Nat}
    (mem : a ∈ free) :
    h.stFreeByteSize + c.segmentBlockSizeAlign + 2 * c.heapAlignment ≤ c.modulus ∧
    (h.stByteSize a = h.stFreeByteSize ∨
      h.stFreeByteSize + 2 * c.segmentBlockSizeAlign + 2 * c.heapAlignment ≤ c.modulus) := by
  have headers := core.headers_le_used
  have total := core.total
  have within := core.total_le
  have sum := core.freeBytes
  rw [sum_eq_add_erase h.stByteSize mem] at sum
  have count := core.free_length_le
  cases rest : free.erase a with
  | nil =>
    rw [rest, List.map_nil, List.sum_nil, Nat.add_zero] at sum
    have one : 1 * c.segmentBlockSizeAlign ≤ segs.length * c.segmentBlockSizeAlign :=
      Nat.mul_le_mul_right _ ((List.length_pos_of_mem mem).trans_le count)
    refine ⟨by omega, Or.inl sum.symm⟩
  | cons b l =>
    have two : 2 * c.segmentBlockSizeAlign ≤ segs.length * c.segmentBlockSizeAlign := by
      have length := List.length_erase_of_mem mem
      rw [rest, List.length_cons] at length
      exact Nat.mul_le_mul_right _ (by omega)
    refine ⟨by omega, Or.inr (by omega)⟩

section Sizes
variable {h : Heap} {a st : Nat}

@[simp] theorem heapCrossbordMark_stByteSize : (heapCrossbordMark c h a).stByteSize = h.stByteSize := by
  unfold heapCrossbordMark
  split <;> rfl

theorem heapTake_stByteSize (c : Config) (h : Heap) (a st : Nat) (inside : a < c.modulus) (room : c.segmentBlockSizeAlign + st < c.modulus) :
    (heapTake c h a st).stByteSize a =
      if c.sub (h.stByteSize a) st > c.segmentBlockSizeAlign + heapSegMinSize then st
      else h.stByteSize a := by
  have pos := c.segmentBlockSizeAlign_pos
  have ne : a ≠ c.add (dataPtr c a) st := by
    have sum : c.add (dataPtr c a) st = c.add a (c.segmentBlockSizeAlign + st) := by
      rw [dataPtr, Config.add, Config.add, Config.add, Nat.mod_add_mod, Nat.add_assoc]
    rw [sum]
    exact (Config.add_ne inside (by omega) room).symm
  have same : (h.ringDel a).stByteSize = h.stByteSize := rfl
  simp only [heapTake, same]
  split
  · change update (update h.stByteSize a st) _ _ a = st
    rw [update_of_ne ne, update_self]
  · rfl

theorem heapSplitFront_stByteSize {added : Nat} (inside : a + c.segmentBlockSizeAlign + added < c.modulus)
    (pos : 0 < added) :
    (heapSplitFront c h a added).2 = a + added ∧
    (heapSplitFront c h a added).1.stByteSize (a + added) = c.sub (h.stByteSize a) added := by
  have data : dataPtr c a = a + c.segmentBlockSizeAlign := Config.add_eq (by omega)
  have new : c.sub (c.add (dataPtr c a) added) c.segmentBlockSizeAlign = a + added := by
    rw [data, Config.add_eq (by omega), Config.sub_eq (by omega) (by omega)]
    omega
  refine ⟨new, ?_⟩
  have ne : a + added ≠ a := by omega
  simp only [heapSplitFront, new]
  change update (update h.stByteSize (a + added) _) a _ (a + added) = _
  rw [update_of_ne ne, update_self]

end Sizes

theorem cut_ge {size added st : Nat} (hs : size < c.modulus) (ha : added < c.modulus)
    (ht : st < c.modulus) (fits : c.add st added ≤ size)
    (room : c.modulus ≤ st + added → added ≤ size →
      st + c.segmentBlockSizeAlign + heapSegMinSize < c.modulus + (size - added)) :
    c.sub (c.sub size added) st > c.segmentBlockSizeAlign + heapSegMinSize ∨
    st ≤ c.sub size added := by
  by_cases wraps : c.modulus ≤ st + added
  · rw [Config.add_wrap ht ha wraps] at fits
    by_cases le : added ≤ size
    · have rest := room wraps le
      rw [Config.sub_eq le hs]
      rw [Config.sub_wrap (by omega) ht]
      omega
    · rw [Config.sub_wrap (by omega) ha]
      omega
  · rw [Config.add_eq (by omega)] at fits
    rw [Config.sub_eq (by omega) hs]
    omega

def alignSegment (c : Config) (h : Heap) (psegment stAlign : Nat) : Nat :=
  if addedSize c stAlign psegment ≥ c.segmentBlockSizeAlign + heapSegMinSize then
    (heapSplitFront c h psegment (addedSize c stAlign psegment)).2
  else psegment

section Found
variable {h : Heap} {segs free : List Nat} {a k st : Nat}

def alignedBytes (c : Config) (size added st : Nat) : Nat :=
  if added ≥ c.segmentBlockSizeAlign + heapSegMinSize then
    if c.sub (c.sub size added) st > c.segmentBlockSizeAlign + heapSegMinSize then st
    else c.sub size added
  else
    if c.sub size (st + added) > c.segmentBlockSizeAlign + heapSegMinSize then st + added
    else size

theorem narrow_add (core : Core c g h segs free) (mem : a ∈ free)
    (narrow : ¬segmentGap c a k ≥ c.segmentBlockSizeAlign + heapSegMinSize)
    (room : st ≤ h.stFreeByteSize) : c.add st (segmentGap c a k) = st + segmentGap c a k := by
  have least : 16 < 3 * c.heapAlignment := by
    obtain ⟨w, b⟩ := c
    cases w <;> simp [Config.heapAlignment]
  have whole : c.heapAlignment ∣ c.segmentBlockSizeAlign + heapSegMinSize :=
    Nat.dvd_add c.heapAlignment_dvd_segmentBlockSizeAlign c.heapAlignment_dvd_segMin
  have left : c.heapAlignment ≤ c.segmentBlockSizeAlign + heapSegMinSize - segmentGap c a k :=
    Nat.le_of_dvd (by omega) (Nat.dvd_sub whole (segmentGap_aligned core (core.free_mem a mem) k))
  have within := (core.free_room mem).1
  simp only [heapSegMinSize] at left narrow
  exact Config.add_eq (by omega)

theorem heapAlignFound_stByteSize (core : Core c g h segs free) (mem : a ∈ free)
    (lt : 2 ^ k < c.modulus) (inside : a + c.segmentBlockSizeAlign + segmentGap c a k < c.modulus)
    (room : st ≤ h.stFreeByteSize) (fits : c.add st (segmentGap c a k) ≤ h.stByteSize a) :
    (heapAlignFound c h a st (2 ^ k)).1 = some (a + c.segmentBlockSizeAlign + segmentGap c a k) ∧
    (heapAlignFound c h a st (2 ^ k)).2.stByteSize (alignSegment c h a (2 ^ k)) =
      alignedBytes c (h.stByteSize a) (segmentGap c a k) st := by
  have amem := core.free_mem a mem
  obtain ⟨gap, ptr⟩ := addedSize_segment core amem lt
  have ptr' := ptr.trans (Nat.mod_eq_of_lt inside)
  have pos := c.segmentBlockSizeAlign_pos
  have within := (core.free_room mem).1
  have align := c.heapAlignment_pos
  unfold heapAlignFound alignSegment alignedBytes
  simp only [gap, ptr']
  by_cases wide : segmentGap c a k ≥ c.segmentBlockSizeAlign + heapSegMinSize
  · simp only [if_pos wide]
    obtain ⟨new, size⟩ := heapSplitFront_stByteSize (h := h) inside (by omega)
    have take := heapTake_stByteSize c (heapSplitFront c h a (segmentGap c a k)).1
      (a + segmentGap c a k) st (by omega) (by omega)
    rw [size] at take
    rw [new, heapCrossbordMark_stByteSize]
    exact ⟨trivial, take⟩
  · simp only [if_neg wide]
    have sum := narrow_add core mem wide room
    rw [sum] at fits
    have bound := core.bounds a amem
    have take := heapTake_stByteSize c h a (st + segmentGap c a k) (by omega) (by omega)
    refine ⟨trivial, ?_⟩
    rw [heapCrossbordMark_stByteSize, sum]
    split
    · exact take
    · exact take

theorem alignedBytes_ge (core : Core c g h segs free) (mem : a ∈ free) (lt : 2 ^ k < c.modulus)
    (room : st ≤ h.stFreeByteSize) (fits : c.add st (segmentGap c a k) ≤ h.stByteSize a) :
    st ≤ alignedBytes c (h.stByteSize a) (segmentGap c a k) st := by
  have bound := core.bounds a (core.free_mem a mem)
  have gap_lt : segmentGap c a k < 2 ^ k := alignGap_lt _ k
  have half := Config.two_pow_half lt
  have head := c.segmentBlockSizeAlign_eq
  have word := c.sizeofSizeT_le_eight
  have align := c.heapAlignment_pos
  have large := c.modulus_large
  have least : 16 < c.segmentBlockSizeAlign + 2 * c.heapAlignment := by
    obtain ⟨w, b⟩ := c
    cases w <;> cases b <;> decide
  have rest : segmentGap c a k ≤ h.stByteSize a →
      st + c.segmentBlockSizeAlign + heapSegMinSize <
        c.modulus + (h.stByteSize a - segmentGap c a k) := by
    intro le
    rw [heapSegMinSize]
    obtain ⟨within, single | several⟩ := core.free_room mem
    · omega
    · omega
  rw [alignedBytes]
  split
  next wide =>
    have cut := cut_ge (by omega) (by omega) (by have := (core.free_room mem).1; omega) fits
      fun _ => rest
    split
    · exact le_refl st
    · omega
  next narrow =>
    rw [narrow_add core mem narrow room] at fits
    split <;> omega

theorem alignedBytes_le {size added : Nat} (inside : size < c.modulus)
    (fits : st + added ≤ size) : alignedBytes c size added st ≤ size := by
  rw [alignedBytes, Config.sub_eq (by omega) inside]
  split
  · split <;> omega
  · split <;> omega

end Found

section Iff
variable {h : Heap} {segs free : List Nat} {n : Nat} {ulLockErr : Bool}

theorem Core.size_lt_wrapped (core : Core c g h segs free) {a : Nat} (mem : a ∈ free)
    (wraps : c.modulus ≤ n + c.markSize + 15) : h.stByteSize a < n := by
  have le := core.size_le_free mem
  have within := (core.free_room mem).1
  have small : c.markSize + 15 < c.segmentBlockSizeAlign + 2 * c.heapAlignment := by
    obtain ⟨w, b⟩ := c
    cases w <;> cases b <;> decide
  omega

theorem Core.heapAllocateSegment_eq (core : Core c g h segs free) :
    heapAllocateSegment c h n ulLockErr = if ulLockErr = true then none else
      free.find? (fun s => requestSize c n ≤ h.stByteSize s) := by
  rw [heapAllocateSegment, core.heapSearch_eq]
  by_cases short : h.stFreeByteSize < requestSize c n
  · have missing : free.find? (fun s => decide (requestSize c n ≤ h.stByteSize s)) = none := by
      rw [List.find?_eq_none]
      intro s hs
      have le := core.size_le_free hs
      simp only [decide_eq_true_eq]
      omega
    rw [missing, if_pos (Or.inl short), ite_self]
  · simp only [short, false_or]

theorem served_some {p a stAlign : Nat} {h' : Heap} :
    Served (some p, h') (some a) n stAlign ↔ p ≠ 0 → n ≤ h'.stByteSize a ∧ stAlign ∣ p := by
  simp [Served]

theorem served_none {h' : Heap} {psegment : Option Nat} {stAlign : Nat} :
    Served (none, h') psegment n stAlign := by
  simp [Served]

theorem served_allocate_iff (core : Core c g h segs free) :
    Served (heapAllocate c h n ulLockErr) (heapAllocateSegment c h n ulLockErr) n 1 ↔
      n + c.markSize + 15 < c.modulus ∨ ulLockErr = true ∨
        ∀ a ∈ free, h.stByteSize a < requestSize c n := by
  rw [core.heapAllocate_eq, core.heapAllocateSegment_eq]
  cases ulLockErr with
  | true => simp [Served]
  | false =>
    simp only [Bool.false_eq_true, if_false, false_or]
    cases found : free.find? (fun s => decide (requestSize c n ≤ h.stByteSize s)) with
    | none =>
      have small : ∀ a ∈ free, h.stByteSize a < requestSize c n := by
        intro a mem
        have short := List.find?_eq_none.mp found a mem
        simpa using short
      simp only [Served, reduceCtorEq, false_implies, implies_true, true_iff]
      exact Or.inr small
    | some a =>
      have mem := List.mem_of_find?_eq_some found
      have amem := core.free_mem a mem
      have fits : requestSize c n ≤ h.stByteSize a := by simpa using List.find?_some found
      have bound := core.bounds a amem
      have data := core.dataPtr_eq amem
      have size := heapTake_stByteSize c h a (requestSize c n) (by omega) (by omega)
      rw [served_some, heapCrossbordMark_stByteSize]
      change (_ → n ≤ (heapTake c h a (requestSize c n)).stByteSize a ∧ _) ↔ _
      rw [size, data]
      constructor
      · intro served
        by_cases wraps : c.modulus ≤ n + c.markSize + 15
        · have lost := core.size_lt_wrapped mem wraps
          have le := (served (by omega)).1
          split at le <;> omega
        · exact Or.inl (not_le.mp wraps)
      · rintro (small | short) _
        · obtain ⟨asked, _⟩ := requestSize_spec small
          refine ⟨?_, Nat.one_dvd _⟩
          split <;> omega
        · exact absurd fits (not_le.mpr (short a mem))

theorem Core.heapAllocateAlignSegment_eq (core : Core c g h segs free) (stAlign : Nat) :
    heapAllocateAlignSegment c h n stAlign ulLockErr =
      if h.stFreeByteSize < requestSize c n ∨ ulLockErr = true then none else
        (free.find? fun s =>
          c.add (requestSize c n) (addedSize c stAlign s) ≤ h.stByteSize s).map
            fun a => alignSegment c h a stAlign := by
  rw [heapAllocateAlignSegment, core.heapSearch_eq]
  rfl

theorem Core.alignPtr_zero (core : Core c g h segs free) {a : Nat} (mem : a ∈ segs) :
    alignPtr c 0 a = 0 := by
  have bound := core.bounds a mem
  have data := core.dataPtr_eq mem
  obtain ⟨e, he⟩ : ∃ e, c.modulus = 2 ^ e := by
    obtain ⟨w, b⟩ := c
    cases w
    · exact ⟨32, rfl⟩
    · exact ⟨64, rfl⟩
  have mask : c.sub 0 1 = 2 ^ e - 1 := by
    rw [Config.sub, Nat.zero_add, ← he]
    exact Nat.mod_eq_of_lt (by omega)
  have inside : (a + c.segmentBlockSizeAlign) % 2 ^ e = a + c.segmentBlockSizeAlign :=
    Nat.mod_eq_of_lt (by omega)
  simp only [alignPtr, data, mask, Nat.and_two_pow_sub_one_eq_mod, inside]
  rw [if_neg (by omega), Config.add, lor_two_pow_sub_one, inside, Nat.sub_self, Nat.zero_add, he,
    Nat.mod_self]

theorem served_align_iff (core : Core c g h segs free) (lt : n < c.modulus) {stAlign : Nat}
    (align_lt : stAlign < c.modulus) (test : stAlign &&& c.sub stAlign 1 = 0) :
    Served (heapAllocateAlign c h n stAlign ulLockErr)
      (heapAllocateAlignSegment c h n stAlign ulLockErr) n stAlign ↔
      n + c.markSize + 15 < c.modulus ∨ ulLockErr = true ∨ stAlign = 0 ∨
        h.stFreeByteSize < requestSize c n ∨
        ∀ a ∈ free, h.stByteSize a < c.add (requestSize c n) (addedSize c stAlign a) := by
  rw [core.heapAllocateAlign_eq, core.heapAllocateAlignSegment_eq]
  by_cases refused : h.stFreeByteSize < requestSize c n ∨ ulLockErr = true
  · simp only [if_pos refused, served_none, true_iff]
    tauto
  simp only [if_neg refused]
  rw [not_or] at refused
  cases found : free.find? (fun s =>
      decide (c.add (requestSize c n) (addedSize c stAlign s) ≤ h.stByteSize s)) with
  | none =>
    have small : ∀ a ∈ free,
        h.stByteSize a < c.add (requestSize c n) (addedSize c stAlign a) := by
      intro a mem
      have short := List.find?_eq_none.mp found a mem
      simpa using short
    simp only [served_none, true_iff]
    tauto
  | some a =>
    have mem := List.mem_of_find?_eq_some found
    have amem := core.free_mem a mem
    have fits : c.add (requestSize c n) (addedSize c stAlign a) ≤ h.stByteSize a := by
      simpa using List.find?_some found
    have bound := core.bounds a amem
    have only : (n + c.markSize + 15 < c.modulus ∨ ulLockErr = true ∨ stAlign = 0 ∨
        h.stFreeByteSize < requestSize c n ∨
        ∀ a ∈ free, h.stByteSize a < c.add (requestSize c n) (addedSize c stAlign a)) ↔
        n + c.markSize + 15 < c.modulus ∨ stAlign = 0 := by
      constructor
      · rintro (small | locked | zero | short | none)
        · exact Or.inl small
        · exact absurd locked refused.2
        · exact Or.inr zero
        · exact absurd short refused.1
        · exact absurd fits (not_le.mpr (none a mem))
      · tauto
    rw [only]
    simp only [Option.map_some]
    by_cases zero : stAlign = 0
    · subst zero
      have null : (heapAlignFound c h a (requestSize c n) 0).1 = some 0 := by
        rw [heapAlignFound, core.alignPtr_zero amem]
        simp only
        split <;> rfl
      simp [Served, null]
    obtain ⟨k, rfl⟩ := powerOfTwo_of_legal align_lt zero test
    obtain ⟨gap, ptr⟩ := addedSize_segment core amem align_lt
    rw [gap] at fits
    have gap_lt : segmentGap c a k < 2 ^ k := alignGap_lt _ k
    have half := Config.two_pow_half align_lt
    have large := c.modulus_large
    simp only [zero, or_false]
    by_cases inside : a + c.segmentBlockSizeAlign + segmentGap c a k < c.modulus
    · obtain ⟨p, size⟩ := heapAlignFound_stByteSize core mem align_lt inside
        (not_lt.mp refused.1) fits
      generalize heapAlignFound c h a (requestSize c n) (2 ^ k) = r at p size
      obtain ⟨r, h'⟩ := r
      simp only at p size
      rw [p, served_some, size]
      constructor
      · intro served
        by_contra wraps
        have small := requestSize_wrap lt (not_lt.mp wraps)
        have lost := core.size_lt_wrapped mem (not_lt.mp wraps)
        rw [Config.add_eq (by omega)] at fits
        have within : h.stByteSize a < c.modulus := by omega
        have le := alignedBytes_le within fits
        have got := (served (by omega)).1
        omega
      · intro small _
        obtain ⟨asked, _⟩ := requestSize_spec small
        have got := alignedBytes_ge core mem align_lt (not_lt.mp refused.1) fits
        exact ⟨by omega, dvd_add_alignGap _ k⟩
    · have full : a + c.segmentBlockSizeAlign + segmentGap c a k = c.modulus := by
        have le := add_alignGap_le (d := a + c.segmentBlockSizeAlign) align_lt (by omega)
        rw [segmentGap] at inside ⊢
        omega
      have null : (heapAlignFound c h a (requestSize c n) (2 ^ k)).1 = some 0 := by
        rw [heapAlignFound, ptr, full, Nat.mod_self]
        simp only
        split <;> rfl
      have vacuous : Served (heapAlignFound c h a (requestSize c n) (2 ^ k))
          (some (alignSegment c h a (2 ^ k))) n (2 ^ k) := by
        simp [Served, null]
      simp only [vacuous, true_iff]
      by_contra wraps
      have small := requestSize_wrap lt (not_lt.mp wraps)
      rw [Config.add_eq (by omega)] at fits
      omega

end Iff

/-- The blocks of both allocations are as large as asked for and aligned if and only if
rounding the size does not wrap, or nothing is granted (a null pointer is not). -/
theorem block_as_requested_iff (c : Config) (g : Ground) (h : Heap) (segs free : List Nat)
    (core : Core c g h segs free) (n : Nat) (lt : n < c.modulus) (stAlign : Nat)
    (align_lt : stAlign < c.modulus) (test : stAlign &&& c.sub stAlign 1 = 0) (ulLockErr : Bool) :
    (Served (heapAllocate c h n ulLockErr) (heapAllocateSegment c h n ulLockErr) n 1 ↔
      n + c.markSize + 15 < c.modulus ∨ ulLockErr = true ∨
        ∀ a ∈ free, h.stByteSize a < requestSize c n) ∧
    (Served (heapAllocateAlign c h n stAlign ulLockErr)
        (heapAllocateAlignSegment c h n stAlign ulLockErr) n stAlign ↔
      n + c.markSize + 15 < c.modulus ∨ ulLockErr = true ∨ stAlign = 0 ∨
        h.stFreeByteSize < requestSize c n ∨
        ∀ a ∈ free, h.stByteSize a < c.add (requestSize c n) (addedSize c stAlign a)) :=
  ⟨served_allocate_iff core, served_align_iff core lt align_lt test⟩

theorem block_as_requested_one_page :
    Served (heapAllocate ⟨.w64, true⟩ (heapCtorEx ⟨.w64, true⟩ blankHeap 0x1000 0x1000) 100 false)
      (heapAllocateSegment ⟨.w64, true⟩ (heapCtorEx ⟨.w64, true⟩ blankHeap 0x1000 0x1000) 100
        false) 100 1 ∧
    Served (heapAllocateAlign ⟨.w64, true⟩ (heapCtorEx ⟨.w64, true⟩ blankHeap 0x1000 0x1000) 100
        256 false)
      (heapAllocateAlignSegment ⟨.w64, true⟩ (heapCtorEx ⟨.w64, true⟩ blankHeap 0x1000 0x1000)
        100 256 false) 100 256 :=
  have region : Region ⟨.w64, true⟩ 0x1000 0x1000 := ⟨by decide, by decide, by decide⟩
  have both := block_as_requested_iff ⟨.w64, true⟩ _ _ _ _ (heapCtorEx_core (h := blankHeap) region)
    100 (by decide) 256 (by decide) (by decide) false
  ⟨both.1.mpr (Or.inl (by decide)), both.2.mpr (Or.inl (by decide))⟩

/-- A request for all of memory but one byte gets a block of no bytes. -/
theorem block_of_no_bytes :
    ¬ ∀ (c : Config) (g : Ground) (h : Heap) (segs free : List Nat), Core c g h segs free →
      ∀ n < c.modulus, ∀ ulLockErr,
        Served (heapAllocate c h n ulLockErr) (heapAllocateSegment c h n ulLockErr) n 1 := by
  intro all
  have core := heapCtorEx_core (h := blankHeap) (c := ⟨.w64, false⟩)
    (⟨by decide, by decide, by decide⟩ : Region ⟨.w64, false⟩ 0x1000 0x1000)
  obtain ⟨a, segment, large, _⟩ := all _ _ _ _ _ core (2 ^ 64 - 1) (by decide) false 0x1030
    (by decide +kernel) (by decide)
  have taken : heapAllocateSegment ⟨.w64, false⟩
      (heapCtorEx ⟨.w64, false⟩ blankHeap 0x1000 0x1000) (2 ^ 64 - 1) false = some 0x1000 := by
    decide +kernel
  obtain rfl : a = 0x1000 := by
    rw [taken] at segment
    exact (Option.some.inj segment).symm
  have empty : (heapAllocate ⟨.w64, false⟩ (heapCtorEx ⟨.w64, false⟩ blankHeap 0x1000 0x1000)
      (2 ^ 64 - 1) false).2.stByteSize 0x1000 = 0 := by
    decide +kernel
  rw [empty] at large
  exact absurd large (by decide)

theorem align_room_iff {d e k st : Nat} :
    (∀ p, 2 ^ k ∣ p → d ≤ p → e < p + st) ↔ e < d + alignGap d k + st := by
  constructor
  · intro none
    exact none _ (dvd_add_alignGap d k) (by omega)
  · intro first p aligned le
    have gap := alignGap_lt d k
    have next : d + alignGap d k ≤ p := by
      by_contra before
      have step : 2 ^ k ∣ d + alignGap d k - p := Nat.dvd_sub (dvd_add_alignGap d k) aligned
      have far := Nat.le_of_dvd (by omega) step
      omega
    omega

/-- An allocation is refused exactly when the lock is, or no free segment has room for the
rounded size, for `_HeapAllocateAlign` at an aligned address: what lies before it may be smaller
than a header. -/
theorem refused_iff (c : Config) (g : Ground) (h : Heap) (segs free : List Nat)
    (core : Core c g h segs free) (n : Nat) (ulLockErr : Bool) :
    ((heapAllocate c h n ulLockErr).1 = none ↔
      ulLockErr = true ∨ ∀ a ∈ free, h.stByteSize a < requestSize c n) ∧
    ∀ k, 2 ^ k < c.modulus →
      (∀ a ∈ free, requestSize c n + segmentGap c a k < c.modulus) →
      ((heapAllocateAlign c h n (2 ^ k) ulLockErr).1 = none ↔
        ulLockErr = true ∨ ∀ a ∈ free, ∀ p, 2 ^ k ∣ p → a + c.segmentBlockSizeAlign ≤ p →
          a + c.segmentBlockSizeAlign + h.stByteSize a < p + requestSize c n) := by
  constructor
  · rw [core.heapAllocate_eq]
    cases ulLockErr with
    | true => simp
    | false =>
      simp only [Bool.false_eq_true, if_false, false_or]
      cases found : free.find? (fun s => decide (requestSize c n ≤ h.stByteSize s)) with
      | none =>
        simp only [true_iff]
        intro a mem
        simpa using List.find?_eq_none.mp found a mem
      | some a =>
        have fits : requestSize c n ≤ h.stByteSize a := by simpa using List.find?_some found
        simp only [reduceCtorEq, false_iff]
        intro none
        exact absurd fits (not_le.mpr (none a (List.mem_of_find?_eq_some found)))
  · intro k lt noWrap
    have room_iff : (∀ a ∈ free, ∀ p, 2 ^ k ∣ p → a + c.segmentBlockSizeAlign ≤ p →
        a + c.segmentBlockSizeAlign + h.stByteSize a < p + requestSize c n) ↔
        ∀ a ∈ free, h.stByteSize a < requestSize c n + segmentGap c a k := by
      refine forall_congr' fun a => forall_congr' fun _ => ?_
      rw [align_room_iff, segmentGap]
      omega
    rw [core.heapAllocateAlign_eq, room_iff]
    by_cases refused : h.stFreeByteSize < requestSize c n ∨ ulLockErr = true
    · rw [if_pos refused]
      simp only [true_iff]
      rcases refused with short | locked
      · refine Or.inr fun a mem => ?_
        have le := core.size_le_free mem
        omega
      · exact Or.inl locked
    · rw [if_neg refused]
      rw [not_or] at refused
      simp only [refused.2, Bool.false_eq_true, false_or]
      cases found : free.find? (fun s => decide
          (c.add (requestSize c n) (addedSize c (2 ^ k) s) ≤ h.stByteSize s)) with
      | none =>
        simp only [true_iff]
        intro a mem
        have short := List.find?_eq_none.mp found a mem
        rw [(addedSize_segment core (core.free_mem a mem) lt).1,
          Config.add_eq (noWrap a mem)] at short
        simpa using short
      | some a =>
        have mem := List.mem_of_find?_eq_some found
        have fits := List.find?_some found
        rw [(addedSize_segment core (core.free_mem a mem) lt).1,
          Config.add_eq (noWrap a mem), decide_eq_true_eq] at fits
        have given : (heapAlignFound c h a (requestSize c n) (2 ^ k)).1 ≠ none := by
          rw [heapAlignFound]
          simp only
          split <;> simp
        simp only [given, false_iff]
        intro none
        exact absurd fits (not_le.mpr (none a mem))

theorem refused_at_sixty_four :
    (heapAllocateAlign ⟨.w64, true⟩ (heapCtorEx ⟨.w64, true⟩ blankHeap 0x1000 0x50) 24 (2 ^ 6)
        false).1 = none ↔
      false = true ∨ ∀ a ∈ [0x1000], ∀ p, 2 ^ 6 ∣ p → a + 48 ≤ p →
        a + 48 + (heapCtorEx ⟨.w64, true⟩ blankHeap 0x1000 0x50).stByteSize a <
          p + requestSize ⟨.w64, true⟩ 24 :=
  (refused_iff ⟨.w64, true⟩ _ _ _ _
    (heapCtorEx_core (h := blankHeap) ⟨by decide, by decide, by decide⟩) 24 false).2 6 (by decide)
    (by decide)

/-- The aligned address need not leave room for a header: the few bytes before it stay
with the block. -/
theorem front_stays_with_block :
    ¬ ∀ (c : Config) (g : Ground) (h : Heap) (segs free : List Nat), Core c g h segs free →
      ∀ n k, n + c.markSize + 15 < c.modulus → 2 ^ k < c.modulus →
        (∀ a ∈ free, requestSize c n + segmentGap c a k < c.modulus) →
        ((heapAllocateAlign c h n (2 ^ k) false).1 = none ↔
          ∀ a ∈ free, ∀ p, 2 ^ k ∣ p →
            p = a + c.segmentBlockSizeAlign ∨ a + 2 * c.segmentBlockSizeAlign ≤ p →
              a + c.segmentBlockSizeAlign + h.stByteSize a < p + requestSize c n) := by
  intro all
  have core := heapCtorEx_core (h := blankHeap) (c := ⟨.w64, false⟩)
    (⟨by decide, by decide, by decide⟩ : Region ⟨.w64, false⟩ 0x1000 0x50)
  have given : (heapAllocateAlign ⟨.w64, false⟩ (heapCtorEx ⟨.w64, false⟩ blankHeap 0x1000 0x50)
      16 (2 ^ 6) false).1 = some 0x1040 := by
    decide +kernel
  have size : (heapCtorEx ⟨.w64, false⟩ blankHeap 0x1000 0x50).stByteSize 0x1000 = 32 := by decide
  have refused := (all _ _ _ _ _ core 16 6 (by decide) (by decide) (by decide)).mpr
  rw [given] at refused
  refine absurd (refused ?_) (by simp)
  intro a mem p aligned place
  have first : a = 0x1000 := List.mem_singleton.mp mem
  have head : (⟨.w64, false⟩ : Config).segmentBlockSizeAlign = 48 := by decide
  have asked : requestSize ⟨.w64, false⟩ 16 = 16 := by decide
  rw [first, head] at place
  rw [first, head, size, asked]
  omega

end SylixOS.HeapLib
