import SylixOS.HeapLib
import SylixOS.IntervalTiling
import Mathlib.Algebra.Order.BigOperators.Group.List
import Mathlib.Algebra.Order.Group.Nat
import Mathlib.Data.List.Dedup

/-! What a well-formed heap looks like, and how each elementary update of the heap library
changes it. `Layout` relates the headers to the segments in list order and to the free
segments in ring order. The segments may be scattered over several pieces of memory; `g`
says which bytes they make up and where the pieces that were added later start. -/

namespace SylixOS.HeapLib
open LinkedChain ListLink IntervalTiling

variable {c : Config}

namespace Config

theorem segmentBlockSizeAlign_eq (c : Config) : c.segmentBlockSizeAlign = 6 * c.sizeofSizeT := by
  obtain ⟨w, b⟩ := c
  cases w <;> cases b <;> decide

theorem heapAlignment_dvd_segmentBlockSizeAlign (c : Config) :
    c.heapAlignment ∣ c.segmentBlockSizeAlign := by
  obtain ⟨w, b⟩ := c
  cases w <;> cases b <;> decide

theorem heapAlignment_dvd_segMin (c : Config) : c.heapAlignment ∣ heapSegMinSize := by
  obtain ⟨w, b⟩ := c
  cases w <;> cases b <;> decide

theorem sizeofSizeT_pos (c : Config) : 0 < c.sizeofSizeT := by
  obtain ⟨w, b⟩ := c
  cases w <;> cases b <;> decide

theorem sizeofSizeT_le (c : Config) : c.sizeofSizeT ≤ c.heapAlignment := by
  obtain ⟨w, b⟩ := c
  cases w <;> cases b <;> decide

theorem sizeofSizeT_le_eight (c : Config) : c.sizeofSizeT ≤ 8 := by
  obtain ⟨w, b⟩ := c
  cases w <;> simp [sizeofSizeT]

theorem segmentBlockSizeAlign_pos (c : Config) : 0 < c.segmentBlockSizeAlign := by
  have := c.sizeofSizeT_pos
  rw [segmentBlockSizeAlign_eq]
  omega

theorem modulus_large (c : Config) : c.segmentBlockSizeAlign + 2 ^ 16 < c.modulus := by
  obtain ⟨w, b⟩ := c
  cases w <;> cases b <;> decide

theorem heapAlignment_dvd_modulus (c : Config) : c.heapAlignment ∣ c.modulus := by
  obtain ⟨w, b⟩ := c
  cases w <;> cases b <;> decide

theorem add_eq {a b : Nat} (h : a + b < c.modulus) : c.add a b = a + b := Nat.mod_eq_of_lt h

theorem sub_eq {a b : Nat} (le : b ≤ a) (lt : a < c.modulus) : c.sub a b = a - b := by
  have shift : a + (c.modulus - b) = a - b + c.modulus := by omega
  rw [sub, shift, Nat.add_mod_right]
  exact Nat.mod_eq_of_lt (by omega)

theorem roundUp_segMin {x : Nat} (h : x + 15 < c.modulus) :
    x ≤ c.roundUp x heapSegMinSize ∧ c.roundUp x heapSegMinSize < x + 16 ∧
    c.roundUp x heapSegMinSize % 16 = 0 := by
  have sum : c.add x 15 = x + 15 := add_eq h
  simp only [roundUp, heapSegMinSize, Nat.reduceSub, sum]
  omega

theorem heapAlignment_dvd_of_segMin {x : Nat} (h : x % 16 = 0) : c.heapAlignment ∣ x :=
  c.heapAlignment_dvd_segMin.trans (Nat.dvd_of_mod_eq_zero h)

end Config

structure Layout (c : Config) (g : Ground) (h : Heap) (segs free : List Nat) : Prop where
  line : IsLine h.lineManage segs
  ring : IsRing h.ringFreeList h.pringFreeSegment free
  free_mem : ∀ a ∈ free, a ∈ segs
  plots : Plots c.segmentBlockSizeAlign h.stByteSize g segs
  magic : ∀ a ∈ segs, h.stMagic a = segMagicReal
  aligned : ∀ a ∈ segs, c.heapAlignment ∣ a
  size_aligned : ∀ a ∈ segs, c.heapAlignment ∣ h.stByteSize a
  bounds : ∀ a ∈ segs, 0 < a ∧ a + c.segmentBlockSizeAlign + h.stByteSize a < c.modulus
  start_eq : segs.head? = some h.pvStartAddress
  total_eq : h.stTotalByteSize = g.bytes.card

def UsedMarks (h : Heap) (segs free : List Nat) : Prop :=
  ∀ a ∈ segs, a ∉ free → h.ringFreeList.prev a = none

def SameMembers (h h' : Heap) (x : Nat) : Prop := ∀ m, h'.member x m = h.member x m

theorem SameMembers.refl (h : Heap) (x : Nat) : SameMembers h h x := fun _ => rfl

theorem SameMembers.trans {h h' h'' : Heap} {x : Nat} (first : SameMembers h h' x)
    (second : SameMembers h' h'' x) : SameMembers h h'' x :=
  fun m => (second m).trans (first m)

theorem sameMembers_iff {h h' : Heap} {x : Nat} : SameMembers h h' x ↔
    (h'.lineManage.next x = h.lineManage.next x ∧ h'.lineManage.prev x = h.lineManage.prev x) ∧
    (h'.ringFreeList.next x = h.ringFreeList.next x ∧
      h'.ringFreeList.prev x = h.ringFreeList.prev x) ∧
    h'.stByteSize x = h.stByteSize x ∧ h'.stMagic x = h.stMagic x := by
  constructor
  · intro same
    exact ⟨⟨same .lineNext, same .linePrev⟩, ⟨same .ringNext, same .ringPrev⟩,
      Option.some.inj (same .stByteSize), Option.some.inj (same .stMagic)⟩
  · rintro ⟨⟨lineNext, linePrev⟩, ⟨ringNext, ringPrev⟩, size, magic⟩ m
    cases m with
    | lineNext => exact lineNext
    | linePrev => exact linePrev
    | ringNext => exact ringNext
    | ringPrev => exact ringPrev
    | stByteSize => exact congrArg some size
    | stMagic => exact congrArg some magic

namespace SameMembers

variable {h h' : Heap} {x : Nat}

theorem ringPrev (same : SameMembers h h' x) :
    h'.ringFreeList.prev x = h.ringFreeList.prev x := same .ringPrev

theorem stMagic (same : SameMembers h h' x) : h'.stMagic x = h.stMagic x :=
  Option.some.inj (same .stMagic)

end SameMembers

namespace Layout

variable {g : Ground} {h : Heap} {segs free : List Nat}

theorem dataPtr_eq (layout : Layout c g h segs free) {a : Nat} (mem : a ∈ segs) :
    dataPtr c a = a + c.segmentBlockSizeAlign := by
  have bound := layout.bounds a mem
  exact Config.add_eq (by omega)

theorem nextPtr_eq (layout : Layout c g h segs free) {a : Nat} (mem : a ∈ segs) :
    nextPtr c h a = a + c.segmentBlockSizeAlign + h.stByteSize a := by
  have bound := layout.bounds a mem
  rw [nextPtr, layout.dataPtr_eq mem]
  exact Config.add_eq (by omega)

theorem total_le (layout : Layout c g h segs free) :
    h.stTotalByteSize + 2 * c.heapAlignment ≤ c.modulus := by
  have inside : g.bytes ⊆ Finset.Ico c.heapAlignment (c.modulus - c.heapAlignment) := by
    intro y hy
    obtain ⟨a, mem, lo, hi⟩ := (layout.plots.mem_bytes y).mp hy
    obtain ⟨pos, bound⟩ := layout.bounds a mem
    have first := Nat.le_of_dvd pos (layout.aligned a mem)
    have stop : c.heapAlignment ∣
        c.modulus - (a + c.segmentBlockSizeAlign + h.stByteSize a) := by
      refine Nat.dvd_sub c.heapAlignment_dvd_modulus ?_
      exact Nat.dvd_add (Nat.dvd_add (layout.aligned a mem)
        c.heapAlignment_dvd_segmentBlockSizeAlign) (layout.size_aligned a mem)
    have last := Nat.le_of_dvd (by omega) stop
    rw [Finset.mem_Ico]
    omega
  have count := Finset.card_le_card inside
  rw [Nat.card_Ico] at count
  have large : 2 * c.heapAlignment ≤ c.modulus := by
    obtain ⟨w, b⟩ := c
    cases w <;> cases b <;> decide
  have total := layout.total_eq
  omega

theorem total_lt (layout : Layout c g h segs free) : h.stTotalByteSize < c.modulus := by
  have le := layout.total_le
  have pos := c.sizeofSizeT_pos.trans_le c.sizeofSizeT_le
  omega

theorem sum_eq_total (layout : Layout c g h segs free) :
    (segs.map h.stByteSize).sum + segs.length * c.segmentBlockSizeAlign = h.stTotalByteSize := by
  have whole := layout.plots.card_eq c.segmentBlockSizeAlign_pos
  have total := layout.total_eq
  have split : (segs.map (fun a => c.segmentBlockSizeAlign + h.stByteSize a)).sum =
      segs.length * c.segmentBlockSizeAlign + (segs.map h.stByteSize).sum := by
    rw [List.sum_map_add]
    simp
  omega

theorem length_lt (layout : Layout c g h segs free) : segs.length < c.modulus := by
  have sum := layout.sum_eq_total
  have lt := layout.total_lt
  have pos := c.segmentBlockSizeAlign_pos
  have scaled : segs.length * 1 ≤ segs.length * c.segmentBlockSizeAlign :=
    Nat.mul_le_mul_left _ pos
  omega

theorem free_length_le (layout : Layout c g h segs free) : free.length ≤ segs.length :=
  (List.subperm_of_subset layout.ring.nodup layout.free_mem).length_le

theorem sum_add_le_total (layout : Layout c g h segs free) {l : List Nat} (nodup : l.Nodup)
    (sub : ∀ a ∈ l, a ∈ segs) :
    (l.map h.stByteSize).sum + segs.length * c.segmentBlockSizeAlign ≤ h.stTotalByteSize := by
  have whole := layout.sum_eq_total
  obtain ⟨l', perm, sublist⟩ := List.subperm_of_subset nodup sub
  have part : (l.map h.stByteSize).sum ≤ (segs.map h.stByteSize).sum := by
    rw [← (perm.map h.stByteSize).sum_eq]
    exact (sublist.map h.stByteSize).sum_le_sum (by simp)
  omega

theorem size_le_sum {a : Nat} (mem : a ∈ free) : h.stByteSize a ≤ (free.map h.stByteSize).sum :=
  List.single_le_sum (by simp) _ (List.mem_map_of_mem mem)

theorem not_inside (layout : Layout c g h segs free) {a b : Nat} (ha : a ∈ segs) (hb : b ∈ segs) :
    ¬(a < b ∧ b ≤ a + h.stByteSize a) := by
  rintro ⟨lo, hi⟩
  have pos := c.segmentBlockSizeAlign_pos
  have same := layout.plots.eq_of_overlap (x := b + 1) ha hb (by omega) (by omega)
  omega

theorem data_kept (layout : Layout c g h segs free) {h₁ h₂ : Heap}
    (writes : ∀ x ∉ segs, SameMembers h₁ h₂ x) {u y : Nat} (mem : u ∈ segs)
    (lo : u + c.segmentBlockSizeAlign ≤ y)
    (hi : y < u + c.segmentBlockSizeAlign + h.stByteSize u) : ¬Stored c h₁ h₂ y := by
  rintro ⟨x, m, change, first, last⟩
  have xmem : x ∈ segs := by
    by_contra out
    exact change (writes x out m)
  have word : (m.index + 1) * c.sizeofSizeT ≤ 6 * c.sizeofSizeT := by
    refine Nat.mul_le_mul_right _ ?_
    cases m <;> decide
  rw [Config.segmentBlockSizeAlign_eq] at lo
  have header := c.segmentBlockSizeAlign_eq
  by_cases hxu : x = u
  · omega
  · have apart := layout.plots.apart_of_ne xmem mem hxu
    have skip := Nat.zero_le (m.index * c.sizeofSizeT)
    omega

theorem of_counters (layout : Layout c g h segs free) {h' : Heap}
    (line : h'.lineManage = h.lineManage) (ring : h'.ringFreeList = h.ringFreeList)
    (header : h'.pringFreeSegment = h.pringFreeSegment) (size : h'.stByteSize = h.stByteSize)
    (magic : h'.stMagic = h.stMagic) (start : h'.pvStartAddress = h.pvStartAddress)
    (total : h'.stTotalByteSize = h.stTotalByteSize) : Layout c g h' segs free := by
  constructor
  · rw [line]; exact layout.line
  · rw [ring, header]; exact layout.ring
  · exact layout.free_mem
  · rw [size]; exact layout.plots
  · rw [magic]; exact layout.magic
  · exact layout.aligned
  · rw [size]; exact layout.size_aligned
  · rw [size]; exact layout.bounds
  · rw [start]; exact layout.start_eq
  · rw [total]; exact layout.total_eq

theorem setMagic (layout : Layout c g h segs free) {x v : Nat} (outside : x ∉ segs) :
    Layout c g (h.setMagic x v) segs free := by
  refine { layout with magic := ?_ }
  intro a ha
  have hax : a ≠ x := fun e => outside (e ▸ ha)
  simpa [Heap.setMagic, hax] using layout.magic a ha

theorem ringDel (layout : Layout c g h segs free) {a : Nat} (mem : a ∈ free) :
    Layout c g (h.ringDel a) segs (free.erase a) ∧ (h.ringDel a).ringFreeList.prev a = none ∧
    ∀ x, x ∉ free → SameMembers h (h.ringDel a) x := by
  obtain ⟨ring, _, cleared, frame⟩ := listRingDel_spec layout.ring mem
  refine ⟨{ layout with ring := ring, free_mem := ?_ }, cleared, ?_⟩
  · intro b hb
    exact layout.free_mem b (List.mem_of_mem_erase hb)
  · intro x hx
    exact sameMembers_iff.mpr ⟨⟨rfl, rfl⟩, frame x hx, rfl, rfl⟩

theorem addNewSegToFreelist (layout : Layout c g h segs free) {a : Nat} (mem : a ∈ segs)
    (used : a ∉ free) :
    ∃ free', free'.Perm (a :: free) ∧ Layout c g (h.addNewSegToFreelist a) segs free' ∧
    ∀ x, x ∉ a :: free → SameMembers h (h.addNewSegToFreelist a) x := by
  have members : ∀ b, b ∈ a :: free → b ∈ segs := by
    intro b hb
    rcases List.mem_cons.mp hb with rfl | hb
    · exact mem
    · exact layout.free_mem b hb
  unfold Heap.addNewSegToFreelist
  cases next : h.lineManage.next a with
  | some n =>
    obtain ⟨ring, frame⟩ := listRingAddAhead_spec layout.ring used
    refine ⟨a :: free, List.Perm.refl _, { layout with ring := ring, free_mem := members }, ?_⟩
    intro x hx
    exact sameMembers_iff.mpr ⟨⟨rfl, rfl⟩, frame x hx, rfl, rfl⟩
  | none =>
    obtain ⟨ring, frame⟩ := listRingAddLast_spec layout.ring used
    have perm : (free ++ [a]).Perm (a :: free) := List.perm_append_singleton a free
    refine ⟨free ++ [a], perm,
      { layout with ring := ring, free_mem := fun b hb => members b (perm.mem_iff.mp hb) }, ?_⟩
    intro x hx
    exact sameMembers_iff.mpr
      ⟨⟨rfl, rfl⟩, frame x (fun e => hx (perm.mem_iff.mp e)), rfl, rfl⟩

end Layout

def Heap.cut (h : Heap) (a n st rest : Nat) : Heap :=
  (((h.setByteSize a st).setByteSize n rest).setMagic n segMagicReal).lineAddTail n a

def Heap.swallow (h : Heap) (a b st : Nat) : Heap := (h.setByteSize a st).lineDel b

namespace Layout

variable {g : Ground} {h : Heap} {segs free : List Nat}

theorem cut_fresh {s t : List Nat} {a st rest : Nat} (layout : Layout c g h (s ++ a :: t) free)
    (whole : h.stByteSize a = st + c.segmentBlockSizeAlign + rest) :
    a + c.segmentBlockSizeAlign + st ∉ s ++ a :: t := by
  have pos := c.segmentBlockSizeAlign_pos
  exact layout.plots.cut_fresh (a := a) (by simp) (by omega) (by omega)

theorem cut {s t : List Nat} {a st rest : Nat} (layout : Layout c g h (s ++ a :: t) free)
    (whole : h.stByteSize a = st + c.segmentBlockSizeAlign + rest)
    (st_aligned : c.heapAlignment ∣ st) :
    Layout c g (h.cut a (a + c.segmentBlockSizeAlign + st) st rest)
      (s ++ a :: (a + c.segmentBlockSizeAlign + st) :: t) free ∧
    ∀ x ∉ s ++ a :: (a + c.segmentBlockSizeAlign + st) :: t,
      SameMembers h (h.cut a (a + c.segmentBlockSizeAlign + st) st rest) x := by
  have pos := c.segmentBlockSizeAlign_pos
  have fresh := layout.cut_fresh whole
  have abound := layout.bounds a (by simp)
  have rest_aligned : c.heapAlignment ∣ rest := by
    have split := layout.size_aligned a (by simp)
    rw [whole] at split
    exact (Nat.dvd_add_right
      (Nat.dvd_add st_aligned c.heapAlignment_dvd_segmentBlockSizeAlign)).mp split
  generalize hn : a + c.segmentBlockSizeAlign + st = n at fresh ⊢
  have hna : n ≠ a := by omega
  have mem_iff : ∀ x, x ∈ s ++ a :: n :: t ↔ x = n ∨ x ∈ s ++ a :: t := by
    intro x
    simp only [List.mem_append, List.mem_cons]
    tauto
  have size_n : (h.cut a n st rest).stByteSize n = rest := by
    simp [Heap.cut, Heap.setByteSize, Heap.setMagic, Heap.lineAddTail]
  have size_a : (h.cut a n st rest).stByteSize a = st := by
    simp [Heap.cut, Heap.setByteSize, Heap.setMagic, Heap.lineAddTail, hna.symm]
  have size_of : ∀ b, b ≠ a → b ≠ n → (h.cut a n st rest).stByteSize b = h.stByteSize b := by
    intro b hba hbn
    simp [Heap.cut, Heap.setByteSize, Heap.setMagic, Heap.lineAddTail, hba, hbn]
  have line := listLineAddTail_spec layout.line fresh
  refine ⟨⟨line.1, layout.ring, ?_, ?_, ?_, ?_, ?_, ?_, ?_, layout.total_eq⟩, ?_⟩
  · intro b hb
    exact (mem_iff b).mpr (Or.inr (layout.free_mem b hb))
  · subst hn
    exact layout.plots.cut pos whole size_a size_n size_of
  · intro b hb
    rcases (mem_iff b).mp hb with rfl | hb
    · simp [Heap.cut, Heap.setByteSize, Heap.setMagic, Heap.lineAddTail]
    · have hbn : b ≠ n := fun e => fresh (e ▸ hb)
      simpa [Heap.cut, Heap.setByteSize, Heap.setMagic, Heap.lineAddTail, hbn] using
        layout.magic b hb
  · intro b hb
    rcases (mem_iff b).mp hb with rfl | hb
    · rw [← hn]
      exact Nat.dvd_add (Nat.dvd_add (layout.aligned a (by simp))
        c.heapAlignment_dvd_segmentBlockSizeAlign) st_aligned
    · exact layout.aligned b hb
  · intro b hb
    by_cases hbn : b = n
    · rw [hbn, size_n]
      exact rest_aligned
    · by_cases hba : b = a
      · rw [hba, size_a]
        exact st_aligned
      · rw [size_of b hba hbn]
        exact layout.size_aligned b (((mem_iff b).mp hb).resolve_left hbn)
  · intro b hb
    by_cases hbn : b = n
    · rw [hbn, size_n]
      omega
    · by_cases hba : b = a
      · rw [hba, size_a]
        omega
      · rw [size_of b hba hbn]
        exact layout.bounds b (((mem_iff b).mp hb).resolve_left hbn)
  · have first := layout.start_eq
    cases s with
    | nil => exact first
    | cons => exact first
  · intro x hx
    have hxn : x ≠ n := fun e => hx ((mem_iff x).mpr (Or.inl e))
    have hxa : x ≠ a := fun e => hx ((mem_iff x).mpr (Or.inr (by simp [e])))
    refine sameMembers_iff.mpr ⟨line.2 x hx, ⟨rfl, rfl⟩, size_of x hxa hxn, ?_⟩
    simp [Heap.cut, Heap.setByteSize, Heap.setMagic, Heap.lineAddTail, hxn]

theorem swallow {s t : List Nat} {a b : Nat} (layout : Layout c g h (s ++ a :: b :: t) free)
    (touch : a + c.segmentBlockSizeAlign + h.stByteSize a = b)
    (used : b ∉ free) {st : Nat}
    (sum : st = h.stByteSize a + c.segmentBlockSizeAlign + h.stByteSize b) :
    Layout c g (h.swallow a b st) (s ++ a :: t) free ∧
    ∀ x ∉ s ++ a :: t, SameMembers h (h.swallow a b st) x := by
  have sub : ∀ x, x ∈ s ++ a :: t → x ∈ s ++ a :: b :: t := by
    intro x
    simp only [List.mem_append, List.mem_cons]
    tauto
  have bbound := layout.bounds b (by simp)
  have abound := layout.bounds a (by simp)
  have size_a : (h.swallow a b st).stByteSize a = st := by
    simp [Heap.swallow, Heap.setByteSize, Heap.lineDel]
  have size_of : ∀ x, x ≠ a → (h.swallow a b st).stByteSize x = h.stByteSize x := by
    intro x hx
    simp [Heap.swallow, Heap.setByteSize, Heap.lineDel, hx]
  have line : IsLine h.lineManage ((s ++ [a]) ++ b :: t) := by simpa using layout.line
  have del := listLineDel_spec line none
  refine ⟨⟨?_, layout.ring, ?_, ?_, fun x hx => layout.magic x (sub x hx),
    fun x hx => layout.aligned x (sub x hx), ?_, ?_, ?_, layout.total_eq⟩, ?_⟩
  · simpa [Heap.swallow, Heap.setByteSize, Heap.lineDel] using del.1
  · intro x hx
    have mem := layout.free_mem x hx
    have hxb : x ≠ b := fun e => used (e ▸ hx)
    simp only [List.mem_append, List.mem_cons] at mem ⊢
    tauto
  · exact layout.plots.join c.segmentBlockSizeAlign_pos touch (size_a.trans sum) size_of
  · intro x hx
    by_cases hxa : x = a
    · rw [hxa, size_a, sum]
      exact Nat.dvd_add (Nat.dvd_add (layout.size_aligned a (by simp))
        c.heapAlignment_dvd_segmentBlockSizeAlign) (layout.size_aligned b (by simp))
    · rw [size_of x hxa]
      exact layout.size_aligned x (sub x hx)
  · intro x hx
    by_cases hxa : x = a
    · rw [hxa, size_a]
      omega
    · rw [size_of x hxa]
      exact layout.bounds x (sub x hx)
  · have first := layout.start_eq
    cases s with
    | nil => exact first
    | cons => exact first
  · intro x hx
    have hxa : x ≠ a := fun e => hx (by simp [e])
    have out : x ∉ (s ++ [a]) ++ t := by simpa using hx
    exact sameMembers_iff.mpr ⟨del.2 x out, ⟨rfl, rfl⟩, size_of x hxa, rfl⟩

end Layout

end SylixOS.HeapLib
