import SylixOS.HeapLayout

/-! The bookkeeping of the heap over every operation. `Core` adds the counters to
the layout, `Separated` says that no two neighbours are free, and `Keeps` is what
an operation guarantees to the segments it does not serve. -/

namespace SylixOS.HeapLib
open LinkedChain ListLink IntervalTiling Function

variable {c : Config} {g : Ground}

structure Core (c : Config) (g : Ground) (h : Heap) (segs free : List Nat) : Prop
    extends Layout c g h segs free where
  used : UsedMarks h segs free
  counter : h.ulSegmentCounter = segs.length
  freeBytes : h.stFreeByteSize = (free.map h.stByteSize).sum
  total : h.stUsedByteSize + h.stFreeByteSize = h.stTotalByteSize

/-- No two neighbours are free, unless the second is where added memory started. -/
def Separated (g : Ground) (free : List Nat) (segs : List Nat) : Prop :=
  segs.IsChain (fun a b => b ∈ g.starts ∨ ¬(a ∈ free ∧ b ∈ free))

theorem Separated.mono {free free' segs : List Nat} (sep : Separated g free segs)
    (sub : ∀ a ∈ segs, a ∈ free' → a ∈ free) : Separated g free' segs := by
  refine sep.imp_of_mem_imp ?_
  intro a b ha hb apart
  exact apart.imp_right fun out both => out ⟨sub a ha both.1, sub b hb both.2⟩

theorem separated_around {free s t : List Nat} {a : Nat} (used : a ∉ free) :
    Separated g free (s ++ a :: t) ↔ Separated g free s ∧ Separated g free t := by
  simp only [Separated, List.isChain_append, List.isChain_cons]
  constructor
  · rintro ⟨left, ⟨_, right⟩, _⟩
    exact ⟨left, right⟩
  · rintro ⟨left, right⟩
    refine ⟨left, ⟨fun y _ => Or.inr fun both => used both.1, right⟩, ?_⟩
    intro x _ y hy
    have hya : y = a := by simpa using hy.symm
    exact Or.inr fun both => used (hya ▸ both.2)

theorem separated_cons_free {free t : List Nat} {a : Nat} (mem : a ∈ free) :
    Separated g free (a :: t) ↔
      (∀ y, t.head? = some y → y ∈ g.starts ∨ y ∉ free) ∧ Separated g free t := by
  simp only [Separated, List.isChain_cons]
  constructor
  · rintro ⟨first, rest⟩
    exact ⟨fun y hy => (first y hy).imp_right fun out hf => out ⟨mem, hf⟩, rest⟩
  · rintro ⟨first, rest⟩
    exact ⟨fun y hy => (first y hy).imp_right fun out both => out both.2, rest⟩

theorem Separated.free_neighbours {free s t : List Nat} {a : Nat}
    (sep : Separated g free (s ++ a :: t)) (mem : a ∈ free) :
    Separated g free s ∧ Separated g free t ∧
    (∀ y, t.head? = some y → y ∈ g.starts ∨ y ∉ free) ∧
    ∀ y, s.getLast? = some y → a ∈ g.starts ∨ y ∉ free := by
  simp only [Separated, List.isChain_append, List.isChain_cons] at sep
  obtain ⟨left, ⟨first, right⟩, last⟩ := sep
  exact ⟨left, right, fun y hy => (first y hy).imp_right fun out hf => out ⟨mem, hf⟩,
    fun y hy => (last y hy a rfl).imp_right fun out hf => out ⟨hf, mem⟩⟩

def Keeps (c : Config) (h h' : Heap) (u : Nat) : Prop :=
  h'.stByteSize u = h.stByteSize u ∧
  ∀ y, u + c.segmentBlockSizeAlign ≤ y → y < u + c.segmentBlockSizeAlign + h.stByteSize u →
    ¬Stored c h h' y

theorem SameMembers.not_stored {h h' : Heap} (same : ∀ x, SameMembers h h' x) (y : Nat) :
    ¬Stored c h h' y := by
  rintro ⟨x, m, change, _⟩
  exact change (same x m)

theorem Stored.cases {h h'' : Heap} {y : Nat} (stored : Stored c h h'' y) (h' : Heap) :
    Stored c h h' y ∨ Stored c h' h'' y := by
  obtain ⟨x, m, change, lo, hi⟩ := stored
  by_cases first : h'.member x m = h.member x m
  · exact Or.inr ⟨x, m, fun e => change (e.trans first), lo, hi⟩
  · exact Or.inl ⟨x, m, first, lo, hi⟩

theorem Keeps.of_same {h h' : Heap} (same : ∀ x, SameMembers h h' x) (u : Nat) : Keeps c h h' u :=
  ⟨Option.some.inj (same u .stByteSize), fun y _ _ => SameMembers.not_stored same y⟩

theorem Keeps.refl (h : Heap) (u : Nat) : Keeps c h h u := Keeps.of_same (SameMembers.refl h) u

theorem Keeps.trans {h h' h'' : Heap} {u : Nat} (first : Keeps c h h' u)
    (second : Keeps c h' h'' u) : Keeps c h h'' u := by
  refine ⟨second.1.trans first.1, ?_⟩
  intro y lo hi stored
  rcases stored.cases h' with early | late
  · exact first.2 y lo hi early
  · exact second.2 y lo (by rw [first.1]; exact hi) late

theorem Keeps.stMagic {h h' : Heap} {u x : Nat} (keeps : Keeps c h h' u) (lo : u < x)
    (hi : x ≤ u + h.stByteSize u) : h'.stMagic x = h.stMagic x := by
  by_contra change
  have pos := c.sizeofSizeT_pos
  have header := c.segmentBlockSizeAlign_eq
  refine keeps.2 (x + c.segmentBlockSizeAlign - 1) (by omega) (by omega) ⟨x, .stMagic, ?_, ?_, ?_⟩
  · exact fun e => change (Option.some.inj e)
  · change x + 5 * c.sizeofSizeT ≤ _
    omega
  · change _ < x + 6 * c.sizeofSizeT
    omega

theorem Layout.keeps {h₀ h h' : Heap} {segs free : List Nat} (layout : Layout c g h₀ segs free)
    (writes : ∀ x ∉ segs, SameMembers h h' x) {u : Nat} (mem : u ∈ segs)
    (size₀ : h₀.stByteSize u = h.stByteSize u) (size : h'.stByteSize u = h.stByteSize u) :
    Keeps c h h' u :=
  ⟨size, fun _ lo hi => layout.data_kept writes mem lo (size₀ ▸ hi)⟩

theorem Layout.keeps_setMagic {h : Heap} {segs free : List Nat} (layout : Layout c g h segs free)
    {a u x v : Nat} (amem : a ∈ segs) (umem : u ∈ segs) (apart : u ≠ a) (lo : a < x)
    (hi : x ≤ a + h.stByteSize a) : Keeps c h (h.setMagic x v) u := by
  refine ⟨rfl, ?_⟩
  rintro y ylo yhi ⟨z, m, change, first, last⟩
  have header := c.segmentBlockSizeAlign_eq
  have spans := layout.plots.apart_of_ne amem umem apart.symm
  cases m with
  | stMagic =>
    have hzx : z = x := by
      by_contra hzx
      refine change ?_
      simp [Heap.member, Heap.setMagic, hzx]
    change z + 5 * c.sizeofSizeT ≤ y at first
    change y < z + 6 * c.sizeofSizeT at last
    omega
  | lineNext => exact change rfl
  | linePrev => exact change rfl
  | ringNext => exact change rfl
  | ringPrev => exact change rfl
  | stByteSize => exact change rfl

theorem Core.free_lt {h : Heap} {segs free : List Nat} (core : Core c g h segs free) :
    h.stUsedByteSize + h.stFreeByteSize < c.modulus := by
  have lt := core.total_lt
  have total := core.total
  omega

theorem accountUsed_eq {h : Heap} {st : Nat} (le : st ≤ h.stFreeByteSize)
    (lt : h.stUsedByteSize + h.stFreeByteSize < c.modulus) :
    h.accountUsed c st =
      { h with
        stUsedByteSize := h.stUsedByteSize + st
        stFreeByteSize := h.stFreeByteSize - st } := by
  rw [Heap.accountUsed, Config.add_eq (by omega), Config.sub_eq le (by omega)]

theorem accountFree_eq {h : Heap} {st : Nat} (le : st ≤ h.stUsedByteSize)
    (lt : h.stUsedByteSize + h.stFreeByteSize < c.modulus) :
    h.accountFree c st =
      { h with
        stUsedByteSize := h.stUsedByteSize - st
        stFreeByteSize := h.stFreeByteSize + st } := by
  rw [Heap.accountFree, Config.add_eq (by omega), Config.sub_eq le (by omega)]

theorem Core.mem_free_iff {h : Heap} {segs free : List Nat} (core : Core c g h segs free) {a : Nat}
    (mem : a ∈ segs) : segmentIsUsed h a = false ↔ a ∈ free := by
  constructor
  · intro busy
    by_contra out
    simp [segmentIsUsed, core.used a mem out] at busy
  · intro hf
    have linked := core.ring.prev_ne_none hf
    simp [segmentIsUsed, Option.isSome_iff_ne_none, linked]

theorem Core.of_counters {h h' : Heap} {segs free : List Nat} (core : Core c g h segs free)
    (line : h'.lineManage = h.lineManage) (ring : h'.ringFreeList = h.ringFreeList)
    (header : h'.pringFreeSegment = h.pringFreeSegment) (size : h'.stByteSize = h.stByteSize)
    (magic : h'.stMagic = h.stMagic) (start : h'.pvStartAddress = h.pvStartAddress)
    (total : h'.stTotalByteSize = h.stTotalByteSize)
    (counter : h'.ulSegmentCounter = h.ulSegmentCounter)
    (usedBytes : h'.stUsedByteSize = h.stUsedByteSize)
    (freeBytes : h'.stFreeByteSize = h.stFreeByteSize) : Core c g h' segs free := by
  refine ⟨core.toLayout.of_counters line ring header size magic start total, ?_, ?_, ?_, ?_⟩
  · intro a ha hf
    rw [ring]
    exact core.used a ha hf
  · rw [counter, core.counter]
  · rw [freeBytes, size, core.freeBytes]
  · rw [usedBytes, freeBytes, total, core.total]

theorem Core.updataMaxUsed {h : Heap} {segs free : List Nat} (core : Core c g h segs free) :
    Core c g h.updataMaxUsed segs free :=
  core.of_counters rfl rfl rfl rfl rfl rfl rfl rfl rfl rfl

theorem Layout.counter_up {h : Heap} {segs free : List Nat} (layout : Layout c g h segs free)
    {k : Nat} (len : segs.length = k + 1) : c.add k 1 = k + 1 := by
  have bound := layout.length_lt
  exact Config.add_eq (by omega)

theorem Core.setMagic {h : Heap} {segs free : List Nat} (core : Core c g h segs free) {x v : Nat}
    (outside : x ∉ segs) : Core c g (h.setMagic x v) segs free :=
  ⟨core.toLayout.setMagic outside, core.used, core.counter, core.freeBytes, core.total⟩

theorem sum_eq_add_erase (size : Nat → Nat) {l : List Nat} {a : Nat} (mem : a ∈ l) :
    (l.map size).sum = size a + ((l.erase a).map size).sum := by
  have perm := (List.perm_cons_erase mem).map size
  simpa using perm.sum_eq

theorem sum_congr {size size' : Nat → Nat} {l : List Nat} (same : ∀ x ∈ l, size' x = size x) :
    (l.map size').sum = (l.map size).sum := by
  rw [List.map_congr_left same]

section Cut

variable {h : Heap} {a n st rest : Nat}

@[simp] theorem cut_stByteSize_new : (h.cut a n st rest).stByteSize n = rest := by
  simp [Heap.cut, Heap.setByteSize, Heap.setMagic, Heap.lineAddTail]

theorem cut_stByteSize_old (hna : n ≠ a) : (h.cut a n st rest).stByteSize a = st := by
  simp [Heap.cut, Heap.setByteSize, Heap.setMagic, Heap.lineAddTail, hna.symm]

theorem cut_stByteSize_other {x : Nat} (hxa : x ≠ a) (hxn : x ≠ n) :
    (h.cut a n st rest).stByteSize x = h.stByteSize x := by
  simp [Heap.cut, Heap.setByteSize, Heap.setMagic, Heap.lineAddTail, hxa, hxn]

end Cut

theorem Core.used_ge {h : Heap} {segs free : List Nat} (core : Core c g h segs free) {a : Nat}
    (mem : a ∈ segs) (used : a ∉ free) :
    h.stByteSize a + segs.length * c.segmentBlockSizeAlign ≤ h.stUsedByteSize := by
  have room := core.sum_add_le_total (l := a :: free) (List.nodup_cons.mpr ⟨used, core.ring.nodup⟩)
    (by
      intro x hx
      rcases List.mem_cons.mp hx with rfl | hx
      · exact mem
      · exact core.free_mem x hx)
  have freeBytes := core.freeBytes
  have total := core.total
  simp only [List.map_cons, List.sum_cons] at room
  omega

theorem Core.headers_le_used {h : Heap} {segs free : List Nat} (core : Core c g h segs free) :
    segs.length * c.segmentBlockSizeAlign ≤ h.stUsedByteSize := by
  have room := core.sum_add_le_total core.ring.nodup core.free_mem
  have freeBytes := core.freeBytes
  have total := core.total
  omega

theorem Core.readd {h : Heap} {segs free : List Nat} (core : Core c g h segs free) {a : Nat}
    (mem : a ∈ free) :
    ∃ free', free'.Perm free ∧ Core c g ((h.ringDel a).addNewSegToFreelist a) segs free' ∧
    ∀ x, x ∉ free → SameMembers h ((h.ringDel a).addNewSegToFreelist a) x := by
  have nodup := core.ring.nodup
  obtain ⟨layout, _, frame⟩ := core.toLayout.ringDel mem
  have out : a ∉ free.erase a := nodup.not_mem_erase
  obtain ⟨free', perm, added, addFrame⟩ :=
    layout.addNewSegToFreelist (core.free_mem a mem) out
  have perm' : free'.Perm free := perm.trans (List.perm_cons_erase mem).symm
  have same : ∀ x, x ∉ free → SameMembers h ((h.ringDel a).addNewSegToFreelist a) x := by
    intro x hx
    have hxa : x ∉ a :: free.erase a := fun e => hx ((List.perm_cons_erase mem).mem_iff.mpr e)
    exact (frame x hx).trans (addFrame x hxa)
  refine ⟨free', perm', ⟨added, ?_, core.counter, ?_, core.total⟩, same⟩
  · intro x hx hf
    have hxf : x ∉ free := fun e => hf (perm'.mem_iff.mpr e)
    exact (same x hxf).ringPrev.trans (core.used x hx hxf)
  · change h.stFreeByteSize = (free'.map h.stByteSize).sum
    rw [core.freeBytes, (perm'.map _).sum_eq]

structure Taken (c : Config) (g : Ground) (h : Heap) (s t free : List Nat) (a stSize : Nat)
    (h' : Heap) (new free' : List Nat) : Prop where
  core : Core c g h' (s ++ a :: (new ++ t)) free'
  shape :
    new = [] ∧ h'.stByteSize a = h.stByteSize a ∧
      h.stByteSize a ≤ stSize + (c.segmentBlockSizeAlign + heapSegMinSize) ∨
    new = [a + c.segmentBlockSizeAlign + stSize] ∧ h'.stByteSize a = stSize ∧
      h.stByteSize a = stSize + c.segmentBlockSizeAlign +
        h'.stByteSize (a + c.segmentBlockSizeAlign + stSize)
  mem_free : ∀ x, x ∈ free' ↔ x ∈ new ∨ x ∈ free ∧ x ≠ a
  fresh : ∀ x ∈ new, x ∉ s ++ a :: t
  keep : ∀ u ∈ s ++ t, Keeps c h h' u

namespace Taken

variable {h h' : Heap} {s t free new free' : List Nat} {a stSize : Nat}

theorem used (taken : Taken c g h s t free a stSize h' new free') : a ∉ free' := by
  rw [taken.mem_free]
  rintro (hn | ⟨_, e⟩)
  · exact taken.fresh a hn (by simp)
  · exact e rfl

theorem room (taken : Taken c g h s t free a stSize h' new free') (fits : stSize ≤ h.stByteSize a) :
    stSize ≤ h'.stByteSize a := by
  rcases taken.shape with ⟨_, size, _⟩ | ⟨_, size, _⟩
  · omega
  · omega

theorem short (taken : Taken c g h s t free a stSize h' new free') : new.length ≤ 1 := by
  rcases taken.shape with ⟨rfl, _⟩ | ⟨rfl, _⟩
  · simp
  · simp

theorem others (taken : Taken c g h s t free a stSize h' new free') {x : Nat} (hx : x ∈ s ++ t) :
    x ≠ a ∧ (x ∈ free' ↔ x ∈ free) := by
  have hxa : x ≠ a := by
    refine taken.core.line.ne_of_around ?_
    simp only [List.mem_append] at hx ⊢
    tauto
  have hxn : x ∉ new := by
    intro e
    refine taken.fresh x e ?_
    simp only [List.mem_append, List.mem_cons] at hx ⊢
    tauto
  refine ⟨hxa, ?_⟩
  rw [taken.mem_free]
  tauto

theorem setMagic (taken : Taken c g h s t free a stSize h' new free') {x v : Nat} (lo : a < x)
    (hi : x ≤ a + h'.stByteSize a) : Taken c g h s t free a stSize (h'.setMagic x v) new free' := by
  have amem : a ∈ s ++ a :: (new ++ t) := by simp
  have outside : x ∉ s ++ a :: (new ++ t) := fun e => taken.core.not_inside amem e ⟨lo, hi⟩
  refine { taken with core := taken.core.setMagic outside, keep := ?_ }
  intro u hu
  have umem : u ∈ s ++ a :: (new ++ t) := by
    simp only [List.mem_append, List.mem_cons] at hu ⊢
    tauto
  exact (taken.keep u hu).trans
    (taken.core.keeps_setMagic amem umem (taken.others hu).1 lo hi)

theorem updataMaxUsed (taken : Taken c g h s t free a stSize h' new free') :
    Taken c g h s t free a stSize h'.updataMaxUsed new free' :=
  { taken with
    core := taken.core.updataMaxUsed
    keep := fun u hu => (taken.keep u hu).trans (Keeps.of_same (fun _ _ => rfl) u) }

end Taken

theorem heapTake_spec {h : Heap} {s t free : List Nat} {a stSize : Nat}
    (core : Core c g h (s ++ a :: t) free) (mem : a ∈ free) (fits : stSize ≤ h.stByteSize a)
    (st_aligned : c.heapAlignment ∣ stSize) :
    ∃ new free', Taken c g h s t free a stSize (heapTake c h a stSize) new free' := by
  have amem : a ∈ s ++ a :: t := by simp
  have bound := core.bounds a amem
  have pos := c.segmentBlockSizeAlign_pos
  obtain ⟨layout, cleared, frame⟩ := core.toLayout.ringDel mem
  have nodup := core.ring.nodup
  have erase_iff : ∀ x, x ∈ free.erase a ↔ x ∈ free ∧ x ≠ a := by
    intro x
    rw [nodup.mem_erase_iff]
    exact and_comm
  have marks : UsedMarks (h.ringDel a) (s ++ a :: t) (free.erase a) := by
    intro x hx hf
    by_cases hxa : x = a
    · rw [hxa]; exact cleared
    · have hxf : x ∉ free := fun e => hf ((erase_iff x).mpr ⟨e, hxa⟩)
      rw [(frame x hxf).ringPrev]
      exact core.used x hx hxf
  have sum := sum_eq_add_erase h.stByteSize mem
  have accounts := core.free_lt
  have freeBytes := core.freeBytes
  have rest_eq : c.sub (h.stByteSize a) stSize = h.stByteSize a - stSize :=
    Config.sub_eq fits (by omega)
  by_cases cutting : h.stByteSize a - stSize > c.segmentBlockSizeAlign + heapSegMinSize
  · obtain ⟨rest, whole⟩ : ∃ rest, h.stByteSize a = stSize + c.segmentBlockSizeAlign + rest :=
      ⟨h.stByteSize a - stSize - c.segmentBlockSizeAlign, by omega⟩
    have fresh := layout.cut_fresh whole
    obtain ⟨cut, cutFrame⟩ := layout.cut whole st_aligned
    have new_eq : c.add (dataPtr c a) stSize = a + c.segmentBlockSizeAlign + stSize := by
      rw [core.dataPtr_eq amem]
      exact Config.add_eq (by omega)
    generalize hn : a + c.segmentBlockSizeAlign + stSize = n at fresh cut cutFrame new_eq
    have hna : n ≠ a := by omega
    have restSize : c.sub (h.stByteSize a - stSize) c.segmentBlockSizeAlign = rest := by
      rw [Config.sub_eq (by omega) (by omega)]
      omega
    have nfree : n ∉ free.erase a := fun e =>
      fresh (core.free_mem n (List.mem_of_mem_erase e))
    obtain ⟨free', perm, added, addFrame⟩ := cut.addNewSegToFreelist (a := n) (by simp) nfree
    have rest_gt : c.sub ((h.ringDel a).stByteSize a) stSize >
        c.segmentBlockSizeAlign + heapSegMinSize := rest_eq ▸ cutting
    have moved : c.add stSize c.segmentBlockSizeAlign = stSize + c.segmentBlockSizeAlign :=
      Config.add_eq (by omega)
    have value : heapTake c h a stSize =
        { ((h.ringDel a).cut a n stSize rest).addNewSegToFreelist n with
          ulSegmentCounter := h.ulSegmentCounter + 1
          stUsedByteSize := h.stUsedByteSize + (stSize + c.segmentBlockSizeAlign)
          stFreeByteSize := h.stFreeByteSize - (stSize + c.segmentBlockSizeAlign) } := by
      have counted : c.add h.ulSegmentCounter 1 = h.ulSegmentCounter + 1 :=
        cut.counter_up (by rw [core.counter]; simp only [List.length_append, List.length_cons]; omega)
      have inner : c.sub (c.sub ((h.ringDel a).stByteSize a) stSize) c.segmentBlockSizeAlign =
          rest := by
        rw [← restSize, ← rest_eq]; rfl
      simp only [heapTake, rest_gt, if_true, inner, new_eq, moved]
      rw [accountUsed_eq]
      · simp only [Heap.countUp]
        rw [← counted]
        rfl
      · change _ ≤ h.stFreeByteSize
        omega
      · exact accounts
    have free_iff : ∀ x, x ∈ free' ↔ x = n ∨ x ∈ free ∧ x ≠ a := by
      intro x
      rw [perm.mem_iff, List.mem_cons, erase_iff]
    have writes : ∀ x ∉ s ++ a :: n :: t, SameMembers h (heapTake c h a stSize) x := by
      intro x hx
      have old : x ∉ s ++ a :: t := fun e => hx (by
        simp only [List.mem_append, List.mem_cons] at e ⊢
        tauto)
      have hxf : x ∉ free := fun e => old (core.free_mem x e)
      have hxn : x ∉ n :: free.erase a := by
        intro e
        rcases List.mem_cons.mp e with rfl | e
        · exact hx (by simp)
        · exact hxf ((erase_iff x).mp e).1
      rw [value]
      exact ((frame x hxf).trans (cutFrame x hx)).trans (addFrame x hxn)
    have sizes : (heapTake c h a stSize).stByteSize =
        ((h.ringDel a).cut a n stSize rest).stByteSize := by rw [value]; rfl
    have layout' : Layout c g (heapTake c h a stSize) (s ++ a :: n :: t) free' := by
      rw [value]
      exact added.of_counters rfl rfl rfl rfl rfl rfl rfl
    refine ⟨[n], free', ⟨⟨layout', ?_, ?_, ?_, ?_⟩, Or.inr ⟨by rw [hn], ?_, ?_⟩, ?_, ?_, ?_⟩⟩
    · intro x hx hf
      have hxn : x ≠ n := fun e => hf ((free_iff x).mpr (Or.inl e))
      have hxf : x ∉ free.erase a := fun e => hf ((free_iff x).mpr (Or.inr ((erase_iff x).mp e)))
      have mem' : x ∈ s ++ a :: t := by
        simp only [List.mem_append, List.mem_cons, List.singleton_append] at hx ⊢
        tauto
      have keep := (addFrame x (by simp [hxn, hxf])).ringPrev
      rw [value]
      exact keep.trans (marks x mem' hxf)
    · have count := core.counter
      rw [value]
      simp only [List.length_append, List.length_cons, List.length_nil] at count ⊢
      omega
    · have keep : ((free.erase a).map ((h.ringDel a).cut a n stSize rest).stByteSize).sum =
          ((free.erase a).map h.stByteSize).sum := by
        refine sum_congr ?_
        intro x hx
        have hxa : x ≠ a := ((erase_iff x).mp hx).2
        have hxn : x ≠ n := fun e => nfree (e ▸ hx)
        exact cut_stByteSize_other hxa hxn
      rw [sizes, value]
      change h.stFreeByteSize - _ =
        (free'.map ((h.ringDel a).cut a n stSize rest).stByteSize).sum
      rw [(perm.map _).sum_eq, List.map_cons, List.sum_cons, cut_stByteSize_new, keep]
      omega
    · rw [value]
      change h.stUsedByteSize + _ + (h.stFreeByteSize - _) = h.stTotalByteSize
      have total := core.total
      omega
    · rw [sizes]
      exact cut_stByteSize_old hna
    · rw [sizes, hn, cut_stByteSize_new]
      exact whole
    · intro x
      rw [free_iff, List.mem_singleton]
    · intro x hx
      have hxn : x = n := by simpa using hx
      rw [hxn]; exact fresh
    · intro u hu
      have hua : u ≠ a := core.line.ne_of_around hu
      have umem : u ∈ s ++ a :: (n :: t) := by
        simp only [List.mem_append, List.mem_cons] at hu ⊢
        tauto
      have hun : u ≠ n := by
        intro e
        refine fresh ?_
        simp only [List.mem_append, List.mem_cons] at hu ⊢
        rw [← e]; tauto
      have size_u : (heapTake c h a stSize).stByteSize u = h.stByteSize u := by
        rw [sizes]
        exact cut_stByteSize_other hua hun
      exact layout'.keeps writes umem size_u size_u
  · have small : ¬ c.sub ((h.ringDel a).stByteSize a) stSize >
        c.segmentBlockSizeAlign + heapSegMinSize := by
      change ¬ c.sub (h.stByteSize a) stSize > _
      rw [rest_eq]; exact cutting
    have asize : h.stByteSize a ≤ h.stFreeByteSize := by omega
    have value : heapTake c h a stSize =
        { h.ringDel a with
          stUsedByteSize := h.stUsedByteSize + h.stByteSize a
          stFreeByteSize := h.stFreeByteSize - h.stByteSize a } := by
      simp only [heapTake, small, if_false]
      exact accountUsed_eq (h := h.ringDel a) asize accounts
    have writes : ∀ x ∉ s ++ a :: t, SameMembers h (heapTake c h a stSize) x := by
      intro x hx
      rw [value]
      exact frame x (fun e => hx (core.free_mem x e))
    have sizes : (heapTake c h a stSize).stByteSize = h.stByteSize := by rw [value]; rfl
    have layout' : Layout c g (heapTake c h a stSize) (s ++ a :: t) (free.erase a) := by
      rw [value]
      exact layout.of_counters rfl rfl rfl rfl rfl rfl rfl
    refine ⟨[], free.erase a, ⟨⟨layout', ?_, ?_, ?_, ?_⟩, Or.inl ⟨rfl, by rw [sizes], by omega⟩,
      ?_, by simp, ?_⟩⟩
    · rw [value]
      exact marks
    · rw [value]
      exact core.counter
    · rw [sizes, value]
      change h.stFreeByteSize - h.stByteSize a = ((free.erase a).map h.stByteSize).sum
      omega
    · rw [value]
      change h.stUsedByteSize + h.stByteSize a + (h.stFreeByteSize - h.stByteSize a) =
        h.stTotalByteSize
      have total := core.total
      omega
    · intro x
      rw [erase_iff]
      simp
    · intro u hu
      have umem : u ∈ s ++ a :: t := by
        simp only [List.mem_append, List.mem_cons] at hu ⊢
        tauto
      exact layout'.keeps writes umem (by rw [sizes]) (by rw [sizes])

theorem heapSplitFront_spec {h : Heap} {s t free : List Nat} {a : Nat}
    (core : Core c g h (s ++ a :: t) free) (mem : a ∈ free) (added : Nat)
    (room : c.segmentBlockSizeAlign ≤ added) (fits : added ≤ h.stByteSize a)
    (added_aligned : c.heapAlignment ∣ added) :
    (heapSplitFront c h a added).2 = a + added ∧ a + added ∉ s ++ a :: t ∧
    (heapSplitFront c h a added).1.stByteSize (a + added) = h.stByteSize a - added ∧
    (heapSplitFront c h a added).1.stByteSize a + c.segmentBlockSizeAlign = added ∧
    ∃ free', free'.Perm ((a + added) :: free) ∧
      Core c g (heapSplitFront c h a added).1 (s ++ a :: (a + added) :: t) free' ∧
      ∀ u ∈ s ++ t, Keeps c h (heapSplitFront c h a added).1 u := by
  have amem : a ∈ s ++ a :: t := by simp
  have bound := core.bounds a amem
  have pos := c.segmentBlockSizeAlign_pos
  obtain ⟨st, hst⟩ : ∃ st, added = st + c.segmentBlockSizeAlign :=
    ⟨added - c.segmentBlockSizeAlign, by omega⟩
  obtain ⟨rest, hrest⟩ : ∃ rest, h.stByteSize a = added + rest := ⟨_, (Nat.add_sub_of_le fits).symm⟩
  have whole : h.stByteSize a = st + c.segmentBlockSizeAlign + rest := by omega
  have st_aligned : c.heapAlignment ∣ st :=
    (Nat.dvd_add_left c.heapAlignment_dvd_segmentBlockSizeAlign).mp (hst ▸ added_aligned)
  have fresh := core.toLayout.cut_fresh whole
  obtain ⟨cut, cutFrame⟩ := core.toLayout.cut whole st_aligned
  have reach : a + c.segmentBlockSizeAlign + st = a + added := by omega
  rw [reach] at fresh cut cutFrame
  generalize hn : a + added = n at fresh cut cutFrame
  have hna : n ≠ a := by omega
  have nfree : n ∉ free := fun e => fresh (core.free_mem n e)
  obtain ⟨free', perm, placed, addFrame⟩ := cut.addNewSegToFreelist (a := n) (by simp) nfree
  have new_eq : c.sub (c.add (dataPtr c a) added) c.segmentBlockSizeAlign = n := by
    rw [core.dataPtr_eq amem, Config.add_eq (by omega), Config.sub_eq (by omega) (by omega)]
    omega
  have restSize : c.sub (h.stByteSize a) added = rest := by
    rw [Config.sub_eq fits (by omega)]
    omega
  have stSize : c.sub added c.segmentBlockSizeAlign = st := by
    rw [Config.sub_eq room (by omega)]
    omega
  have sum := sum_update_of_mem h.stByteSize core.ring.nodup (v := st) mem
  have accounts := core.free_lt
  have freeBytes := core.freeBytes
  have asize := Layout.size_le_sum (h := h) mem
  have value : heapSplitFront c h a added =
      ({ (h.cut a n st rest).addNewSegToFreelist n with
          ulSegmentCounter := h.ulSegmentCounter + 1
          stUsedByteSize := h.stUsedByteSize + c.segmentBlockSizeAlign
          stFreeByteSize := h.stFreeByteSize - c.segmentBlockSizeAlign }, n) := by
    have counted : c.add h.ulSegmentCounter 1 = h.ulSegmentCounter + 1 :=
      cut.counter_up (by rw [core.counter]; simp only [List.length_append, List.length_cons]; omega)
    simp only [heapSplitFront, new_eq, restSize, stSize]
    rw [accountUsed_eq]
    · simp only [Heap.countUp]
      rw [← counted]
      have swap := update_comm hna rest st h.stByteSize
      simp only [Heap.setByteSize, Heap.setMagic, Heap.lineAddTail, Heap.addNewSegToFreelist,
        Heap.cut, swap]
    · change _ ≤ h.stFreeByteSize
      omega
    · exact accounts
  have free_iff : ∀ x, x ∈ free' ↔ x = n ∨ x ∈ free := by
    intro x
    rw [perm.mem_iff, List.mem_cons]
  have writes : ∀ x ∉ s ++ a :: n :: t, SameMembers h (heapSplitFront c h a added).1 x := by
    intro x hx
    have out : x ∉ n :: free := by
      intro e
      rcases List.mem_cons.mp e with rfl | e
      · exact hx (by simp)
      · refine hx ?_
        have mem := core.free_mem x e
        simp only [List.mem_append, List.mem_cons] at mem ⊢
        tauto
    rw [value]
    exact (cutFrame x hx).trans (addFrame x out)
  have sizes : (heapSplitFront c h a added).1.stByteSize = (h.cut a n st rest).stByteSize := by
    rw [value]; rfl
  have layout' : Layout c g (heapSplitFront c h a added).1 (s ++ a :: n :: t) free' := by
    rw [value]
    exact placed.of_counters rfl rfl rfl rfl rfl rfl rfl
  refine ⟨by rw [value], fresh, ?_, ?_, free', perm, ⟨layout', ?_, ?_, ?_, ?_⟩, ?_⟩
  · rw [sizes, cut_stByteSize_new]
    omega
  · rw [sizes, cut_stByteSize_old hna]
    exact hst.symm
  · intro x hx hf
    have hxn : x ≠ n := fun e => hf ((free_iff x).mpr (Or.inl e))
    have hxf : x ∉ free := fun e => hf ((free_iff x).mpr (Or.inr e))
    have mem' : x ∈ s ++ a :: t := by
      simp only [List.mem_append, List.mem_cons] at hx ⊢
      tauto
    have keep := (addFrame x (by simp [hxn, hxf])).ringPrev
    rw [value]
    exact keep.trans (core.used x mem' hxf)
  · have count := core.counter
    rw [value]
    simp only [List.length_append, List.length_cons] at count ⊢
    omega
  · have keep : (free.map (h.cut a n st rest).stByteSize).sum =
        (free.map (update h.stByteSize a st)).sum := by
      refine sum_congr ?_
      intro x hx
      have hxn : x ≠ n := fun e => nfree (e ▸ hx)
      by_cases hxa : x = a
      · rw [hxa, cut_stByteSize_old hna, update_self]
      · rw [cut_stByteSize_other hxa hxn, update_of_ne hxa]
    rw [sizes, value]
    change h.stFreeByteSize - _ = (free'.map (h.cut a n st rest).stByteSize).sum
    rw [(perm.map _).sum_eq, List.map_cons, List.sum_cons, cut_stByteSize_new, keep]
    omega
  · rw [value]
    change h.stUsedByteSize + _ + (h.stFreeByteSize - _) = h.stTotalByteSize
    have total := core.total
    omega
  · intro u hu
    have hua : u ≠ a := core.line.ne_of_around hu
    have umem : u ∈ s ++ a :: n :: t := by
      simp only [List.mem_append, List.mem_cons] at hu ⊢
      tauto
    have hun : u ≠ n := by
      intro e
      refine fresh ?_
      simp only [List.mem_append, List.mem_cons] at hu ⊢
      rw [← e]; tauto
    have size_u : (heapSplitFront c h a added).1.stByteSize u = h.stByteSize u := by
      rw [sizes]
      exact cut_stByteSize_other hua hun
    exact layout'.keeps writes umem size_u size_u

structure Block where
  ptr : Nat
  size : Nat
  deriving DecidableEq, Repr

def Config.markSize (c : Config) : Nat := if c.crossBorderEn then c.sizeofSizeT else 0

def Holds (c : Config) (h : Heap) (a : Nat) (b : Block) : Prop :=
  a + c.segmentBlockSizeAlign ≤ b.ptr ∧
  b.ptr + b.size + c.markSize ≤ a + c.segmentBlockSizeAlign + h.stByteSize a ∧
  (b.ptr = a + c.segmentBlockSizeAlign ∨
    a + c.segmentBlockSizeAlign + c.sizeofSizeT ≤ b.ptr ∧
      h.stMagic (b.ptr - c.segmentBlockSizeAlign) = a)

theorem Holds.keep {h h' : Heap} {a : Nat} {b : Block} (holds : Holds c h a b)
    (keeps : Keeps c h h' a) : Holds c h' a b := by
  obtain ⟨lo, hi, lead⟩ := holds
  have pos := c.sizeofSizeT_pos
  refine ⟨lo, by rw [keeps.1]; exact hi, lead.imp_right ?_⟩
  rintro ⟨apart, word⟩
  refine ⟨apart, ?_⟩
  rw [keeps.stMagic (by omega) (by omega), word]

theorem heapCrossbordMark_eq {h : Heap} {segs free : List Nat} {a : Nat}
    (core : Core c g h segs free) (mem : a ∈ segs) :
    heapCrossbordMark c h a =
      if c.crossBorderEn then h.setMagic (a + h.stByteSize a) heapSegmentMarkFlag else h := by
  have bound := core.bounds a mem
  have pos := c.segmentBlockSizeAlign_pos
  have spot : c.sub (nextPtr c h a) c.segmentBlockSizeAlign = a + h.stByteSize a := by
    rw [core.nextPtr_eq mem, Config.sub_eq (by omega) (by omega)]
    omega
  rw [heapCrossbordMark, spot]

theorem Holds.mark {h : Heap} {segs free : List Nat} {a : Nat} {b : Block}
    (core : Core c g h segs free) (mem : a ∈ segs) (holds : Holds c h a b) :
    Holds c (heapCrossbordMark c h a) a b := by
  rw [heapCrossbordMark_eq core mem]
  split
  next enabled =>
    obtain ⟨lo, hi, lead⟩ := holds
    refine ⟨lo, hi, lead.imp_right ?_⟩
    rintro ⟨apart, word⟩
    have size := c.sizeofSizeT_pos
    simp only [Config.markSize, enabled, if_true] at hi
    have off : b.ptr - c.segmentBlockSizeAlign ≠ a + h.stByteSize a := by omega
    refine ⟨apart, ?_⟩
    simpa [Heap.setMagic, off] using word
  next => exact holds

theorem heapCrossbordMark_spec {h : Heap} {segs free : List Nat} {a : Nat}
    (core : Core c g h segs free) (mem : a ∈ segs)
    (room : c.crossBorderEn = true → 0 < h.stByteSize a) :
    Core c g (heapCrossbordMark c h a) segs free ∧
    (heapCrossbordMark c h a).stByteSize = h.stByteSize ∧
    ∀ u ∈ segs, u ≠ a → Keeps c h (heapCrossbordMark c h a) u := by
  rw [heapCrossbordMark_eq core mem]
  split
  next enabled =>
    have filled := room enabled
    have outside : a + h.stByteSize a ∉ segs := fun e =>
      core.not_inside mem e ⟨by omega, le_refl _⟩
    refine ⟨core.setMagic outside, rfl, ?_⟩
    intro u hu hua
    exact core.keeps_setMagic mem hu hua (by omega) (le_refl _)
  next => exact ⟨core, rfl, fun u _ _ => Keeps.refl h u⟩

end SylixOS.HeapLib
