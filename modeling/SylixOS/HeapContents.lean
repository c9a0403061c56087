import SylixOS.HeapScatter

/-! The bytes behind a reallocation. The heap library writes nothing but header words and,
where it moves a block, the copy, whose length it takes as an `UINT`. -/

namespace SylixOS.HeapLib
open LinkedChain ListLink IntervalTiling

variable {c : Config} {g : Ground}

def Frame (c : Config) (h h' : Heap) (m m' : Nat → UInt8) : Prop :=
  ∀ y, ¬Stored c h h' y → m' y = m y

def memcpy (m : Nat → UInt8) (dest src n : Nat) : Nat → UInt8 := fun y =>
  if dest ≤ y ∧ y < dest + n then m (src + (y - dest)) else m y

def uintOf (st : Nat) : Nat := st % 2 ^ 32

def Reallocated (c : Config) (h : Heap) (p n : Nat) (bIsNeedVerify : Bool) (err : LockErr)
    (m m' : Nat → UInt8) : Prop :=
  match heapReallocMoves c h p n bIsNeedVerify err,
      heapAllocate c h (requestSize c n) err.allocate with
  | some psegment, (some q, h₁) => ∃ m₁, Frame c h h₁ m m₁ ∧
      Frame c h₁ (heapRealloc c h (some p) n bIsNeedVerify err).2
        (memcpy m₁ q (dataPtr c psegment) (uintOf (h₁.stByteSize psegment))) m'
  | _, _ => Frame c h (heapRealloc c h (some p) n bIsNeedVerify err).2 m m'

def usableSize (c : Config) (h : Heap) (p : Nat) : Nat := nextPtr c h (headerOf c h p) - p

structure ContentsKept (σ : State) (b : Block) (n usable : Nat) (r : Option Nat × Heap)
    (m m' : Nat → UInt8) : Prop where
  others : ∀ b' ∈ σ.live, b' ≠ b → ∀ i < b'.size, m' (b'.ptr + i) = m (b'.ptr + i)
  granted : ∀ q, r.1 = some q → ∀ i < min usable n, m' (q + i) = m (b.ptr + i)
  refused : r.1 = none → n ≠ 0 → (∀ i < usable, m' (b.ptr + i) = m (b.ptr + i)) ∧
    (r.2 = σ.heap ∨ r.2 = σ.heap.updataMaxUsed)

theorem Frame.refl (c : Config) (h h' : Heap) (m : Nat → UInt8) : Frame c h h' m m :=
  fun _ _ => rfl

theorem memcpy_inside {m : Nat → UInt8} {dest src n i : Nat} (lt : i < n) :
    memcpy m dest src n (dest + i) = m (src + i) := by
  rw [memcpy, if_pos ⟨Nat.le_add_right _ _, by omega⟩, Nat.add_sub_cancel_left]

theorem memcpy_outside {m : Nat → UInt8} {dest src n y : Nat} (out : y < dest ∨ dest + n ≤ y) :
    memcpy m dest src n y = m y := by
  rw [memcpy, if_neg (by omega)]

theorem Frame.keeps {h h' : Heap} {m m' : Nat → UInt8} {u y : Nat} (frame : Frame c h h' m m')
    (keeps : Keeps c h h' u) (lo : u + c.segmentBlockSizeAlign ≤ y)
    (hi : y < u + c.segmentBlockSizeAlign + h.stByteSize u) : m' y = m y :=
  frame y (keeps.2 y lo hi)

theorem release_keeps {h : Heap} {segs free : List Nat} {a u : Nat} {b : Block}
    (core : Core c g h segs free) (mem : a ∈ segs) (used : a ∉ free) (holds : Holds c h a b)
    (umem : u ∈ segs) (uused : u ∉ free) (ne : u ≠ a) (bIsNeedVerify ulLockErr : Bool) :
    Keeps c h (heapFree c h (some b.ptr) bIsNeedVerify ulLockErr).2 u := by
  rcases heapFree_spec core mem used holds bIsNeedVerify ulLockErr with failed | ⟨h', ok, released⟩
  · rw [failed]
    exact Keeps.refl h u
  · rw [ok]
    obtain ⟨_, _, _, _, rest⟩ := released
    exact (rest u umem uused ne).2.2

theorem Keeps.updataMaxUsed {h h' : Heap} {u : Nat} (keeps : Keeps c h h' u) :
    Keeps c h h'.updataMaxUsed u :=
  keeps.trans (Keeps.of_same (fun _ _ => rfl) u)

section Moved
variable {h h₁ : Heap} {segs free : List Nat} {a n q : Nat} {b : Block} {err : LockErr}
  {m m₁ m' : Nat → UInt8}

theorem moved_others (mem : a ∈ segs) (used : a ∉ free) (holds : Holds c h a b)
    (granted : Granted c g h segs free h₁ ⟨q, requestSize c n⟩)
    (small : h.stByteSize a < requestSize c n) (first : Frame c h h₁ m m₁)
    (second : Frame c h₁ (heapFree c h₁ (some b.ptr) false err.free).2.updataMaxUsed
      (memcpy m₁ q (dataPtr c a) (uintOf (h₁.stByteSize a))) m')
    {u y : Nat} (umem : u ∈ segs) (uused : u ∉ free) (ne : u ≠ a)
    (lo : u + c.segmentBlockSizeAlign ≤ y)
    (hi : y < u + c.segmentBlockSizeAlign + h.stByteSize u) : m' y = m y := by
  obtain ⟨segs₁, free₁, a', core₁, _, mem', used', holds', rest⟩ := granted
  obtain ⟨_, amem, aused, akeep⟩ := rest a mem used
  obtain ⟨apart, umem', uused', ukeep⟩ := rest u umem uused
  have released := (release_keeps core₁ amem aused (holds.keep akeep) umem' uused' ne false
    err.free).updataMaxUsed
  have size := ukeep.1
  have far := core₁.plots.apart_of_ne umem' mem' apart
  obtain ⟨lo', hi', _⟩ := holds'
  have short : uintOf (h₁.stByteSize a) ≤ h.stByteSize a := by
    rw [akeep.1]
    exact Nat.mod_le _ _
  rw [second.keeps released lo (by omega), memcpy_outside (by simp only at lo' hi'; omega)]
  exact first.keeps ukeep lo hi

theorem moved_own (mem : a ∈ segs) (used : a ∉ free) (core : Core c g h segs free)
    (holds : Holds c h a b) (granted : Granted c g h segs free h₁ ⟨q, requestSize c n⟩)
    (small : h.stByteSize a < requestSize c n) (first : Frame c h h₁ m m₁)
    (second : Frame c h₁ (heapFree c h₁ (some b.ptr) false err.free).2.updataMaxUsed
      (memcpy m₁ q (dataPtr c a) (uintOf (h₁.stByteSize a))) m')
    {i : Nat} (lt : i < uintOf (h.stByteSize a)) :
    m' (q + i) = m (a + c.segmentBlockSizeAlign + i) := by
  obtain ⟨segs₁, free₁, a', core₁, _, mem', used', holds', rest⟩ := granted
  obtain ⟨apart, amem, aused, akeep⟩ := rest a mem used
  have released := (release_keeps core₁ amem aused (holds.keep akeep) mem' used' apart.symm false
    err.free).updataMaxUsed
  obtain ⟨lo', hi', _⟩ := holds'
  have short : uintOf (h.stByteSize a) ≤ h.stByteSize a := Nat.mod_le _ _
  rw [second.keeps released (by simp only at lo'; omega) (by simp only at hi'; omega), akeep.1,
    memcpy_inside lt, core.dataPtr_eq mem]
  exact first.keeps akeep (by omega) (by omega)

end Moved

theorem Reallocated.frame {h : Heap} {p n : Nat} {bIsNeedVerify : Bool} {err : LockErr}
    {m m' : Nat → UInt8} (call : Reallocated c h p n bIsNeedVerify err m m')
    (still : heapReallocMoves c h p n bIsNeedVerify err = none ∨
      (heapAllocate c h (requestSize c n) err.allocate).1 = none) :
    Frame c h (heapRealloc c h (some p) n bIsNeedVerify err).2 m m' := by
  rw [Reallocated] at call
  split at call
  next a q h₁ moves given =>
    rw [moves, given] at still
    simp at still
  next => exact call

theorem Frame.same {h h' : Heap} {m m' : Nat → UInt8} (frame : Frame c h h' m m')
    (same : ∀ x, SameMembers h h' x) : m' = m :=
  funext fun y => frame y (SameMembers.not_stored same y)

section Calls
variable {h : Heap} {segs free : List Nat} {a n : Nat} {b : Block} {bIsNeedVerify : Bool}
  {err : LockErr}

theorem usableSize_eq (core : Core c g h segs free) (mem : a ∈ segs) (holds : Holds c h a b)
    (ptr : b.ptr = a + c.segmentBlockSizeAlign) : usableSize c h b.ptr = h.stByteSize a := by
  rw [usableSize, headerOf_eq core mem holds, core.nextPtr_eq mem, ptr, Nat.add_sub_cancel_left]

theorem Reallocated.kept {σ : State} {pairs : List (Nat × Block)} {m m' : Nat → UInt8}
    (core : Core c g σ.heap segs free) (owned : Owned c σ.heap segs free pairs)
    (blocks : pairs.map Prod.snd = σ.live) (pair : (a, b) ∈ pairs)
    (noWrap : NoWrap c (.realloc (some b.ptr) n bIsNeedVerify err))
    (whole : σ.heap.stByteSize a < 2 ^ 32 ∨
      heapReallocMoves c σ.heap b.ptr n bIsNeedVerify err = none ∨
      (heapAllocate c σ.heap (requestSize c n) err.allocate).1 = none)
    (call : Reallocated c σ.heap b.ptr n bIsNeedVerify err m m') :
    ContentsKept σ b n (usableSize c σ.heap b.ptr)
      (heapRealloc c σ.heap (some b.ptr) n bIsNeedVerify err) m m' := by
  have served : a ∈ segs ∧ a ∉ free ∧ Holds c σ.heap a b := owned.serves _ pair
  obtain ⟨mem, used, holds⟩ := served
  obtain ⟨small, move⟩ := noWrap
  -- the other blocks lie in the data of other segments in use
  have othersKept : (∀ u ∈ segs, u ∉ free → u ≠ a → ∀ y, u + c.segmentBlockSizeAlign ≤ y →
      y < u + c.segmentBlockSizeAlign + σ.heap.stByteSize u → m' y = m y) →
      ∀ b' ∈ σ.live, b' ≠ b → ∀ i < b'.size, m' (b'.ptr + i) = m (b'.ptr + i) := by
    intro data b' live ne i lt
    rw [← blocks] at live
    obtain ⟨⟨u, b''⟩, pair', second⟩ := List.mem_map.mp live
    obtain rfl : b'' = b' := second
    have served' : u ∈ segs ∧ u ∉ free ∧ Holds c σ.heap u b'' := owned.serves _ pair'
    obtain ⟨umem, uused, lo, hi, _⟩ := served'
    have other : u ≠ a := by
      intro same
      have one := List.inj_on_of_nodup_map owned.nodup pair' pair same
      exact ne (congrArg Prod.snd one)
    exact data u umem uused other _ (by omega) (by omega)
  by_cases zero : n = 0
  · have still : heapReallocMoves c σ.heap b.ptr n bIsNeedVerify err = none := by
      simp [heapReallocMoves, zero]
    have value : heapRealloc c σ.heap (some b.ptr) n bIsNeedVerify err =
        heapFree c σ.heap (some b.ptr) bIsNeedVerify err.free := by
      simp [heapRealloc, zero]
    have frame := call.frame (Or.inl still)
    rw [value] at frame ⊢
    refine ⟨othersKept fun u umem uused ne y lo hi => ?_, ?_, fun _ some_bytes => absurd zero some_bytes⟩
    · exact frame.keeps (release_keeps core mem used holds umem uused ne _ _) lo hi
    · intro q _ i lt
      omega
  rcases heapRealloc_cases core mem used holds zero small move bIsNeedVerify err with
    ⟨still, h', value, same⟩ | ⟨ptr, still, h', value, resized, own⟩ |
    ⟨ptr, less, moves, q, h₁, given, granted, value⟩
  · have frame := call.frame still
    rw [value] at frame ⊢
    have unchanged : m' = m := by
      rcases same with rfl | rfl
      · exact frame.same (SameMembers.refl _)
      · exact frame.same fun _ _ => rfl
    subst unchanged
    exact ⟨fun _ _ _ _ _ => rfl, fun q absent => by simp at absent,
      fun _ _ => ⟨fun _ _ => rfl, same⟩⟩
  · have frame := call.frame (Or.inl still)
    rw [value] at frame ⊢
    rw [usableSize_eq core mem holds ptr]
    obtain ⟨_, _, _, _, _, _, _, _, rest⟩ := resized
    refine ⟨othersKept fun u umem uused ne y lo hi => ?_, ?_, fun absent => by simp at absent⟩
    · exact frame.keeps (rest u umem uused ne).2.2.2 lo hi
    · intro q returned i lt
      obtain rfl : b.ptr = q := Option.some.inj returned
      exact frame _ (own _ (by omega) (by omega))
  · rw [usableSize_eq core mem holds ptr]
    have copied : ∃ m₁, Frame c σ.heap h₁ m m₁ ∧
        Frame c h₁ (heapRealloc c σ.heap (some b.ptr) n bIsNeedVerify err).2
          (memcpy m₁ q (dataPtr c a) (uintOf (h₁.stByteSize a))) m' := by
      rw [Reallocated, moves, given] at call
      exact call
    rw [value] at copied ⊢
    obtain ⟨m₁, first, second⟩ := copied
    have short : σ.heap.stByteSize a < 2 ^ 32 := by
      rcases whole with short | still | absent
      · exact short
      · rw [moves] at still
        simp at still
      · rw [given] at absent
        simp at absent
    refine ⟨othersKept fun u umem uused ne y lo hi => ?_, ?_, fun absent => by simp at absent⟩
    · exact moved_others mem used holds granted less first second umem uused ne lo hi
    · intro q' returned i lt
      obtain rfl : q = q' := Option.some.inj returned
      have all : uintOf (σ.heap.stByteSize a) = σ.heap.stByteSize a := Nat.mod_eq_of_lt short
      rw [ptr]
      exact moved_own mem used core holds granted less first second (by omega)

theorem not_kept_of_moved {σ : State} {pairs : List (Nat × Block)}
    (core : Core c g σ.heap segs free) (owned : Owned c σ.heap segs free pairs)
    (pair : (a, b) ∈ pairs) (noWrap : NoWrap c (.realloc (some b.ptr) n bIsNeedVerify err))
    (large : 2 ^ 32 ≤ σ.heap.stByteSize a)
    (moves : heapReallocMoves c σ.heap b.ptr n bIsNeedVerify err ≠ none)
    (given : (heapAllocate c σ.heap (requestSize c n) err.allocate).1 ≠ none) :
    ∃ m m', Reallocated c σ.heap b.ptr n bIsNeedVerify err m m' ∧
      ¬ContentsKept σ b n (usableSize c σ.heap b.ptr)
        (heapRealloc c σ.heap (some b.ptr) n bIsNeedVerify err) m m' := by
  have served : a ∈ segs ∧ a ∉ free ∧ Holds c σ.heap a b := owned.serves _ pair
  obtain ⟨mem, used, holds⟩ := served
  obtain ⟨small, move⟩ := noWrap
  have some_bytes : n ≠ 0 := by
    rintro rfl
    simp [heapReallocMoves] at moves
  rcases heapRealloc_cases core mem used holds some_bytes small move bIsNeedVerify err with
    ⟨still, _⟩ | ⟨_, still, _⟩ | ⟨ptr, less, moved, q, h₁, alloc, granted, value⟩
  · rcases still with still | absent
    · exact absurd still moves
    · exact absurd absent given
  · exact absurd still moves
  obtain ⟨segs₁, free₁, a', core₁, _, mem', _, holds', rest⟩ := granted
  obtain ⟨apart, amem, _, akeep⟩ := rest a mem used
  have far := core₁.plots.apart_of_ne amem mem' apart
  have size := akeep.1
  obtain ⟨lo', hi', _⟩ := holds'
  simp only at lo' hi'
  have asked := (requestSize_spec small).2
  have mark : c.markSize ≤ 8 := by
    have word := c.sizeofSizeT_le_eight
    rw [Config.markSize]
    split <;> omega
  -- the first byte that is not copied
  have reach : uintOf (σ.heap.stByteSize a) + 2 ^ 32 ≤ σ.heap.stByteSize a := by
    rw [uintOf]
    omega
  have other : q ≠ b.ptr := by
    have pos := c.segmentBlockSizeAlign_pos
    omega
  refine ⟨fun y => if y = b.ptr + uintOf (σ.heap.stByteSize a) then 1 else 0,
    memcpy (fun y => if y = b.ptr + uintOf (σ.heap.stByteSize a) then 1 else 0) q (dataPtr c a)
      (uintOf (h₁.stByteSize a)), ?_, ?_⟩
  · rw [Reallocated, moved, alloc]
    exact ⟨_, Frame.refl c _ _ _, Frame.refl c _ _ _⟩
  · intro kept
    rw [usableSize_eq core mem holds ptr, value] at kept
    have byte := kept.granted q rfl (uintOf (σ.heap.stByteSize a)) (by omega)
    rw [size, memcpy_outside (Or.inr (le_refl _)), if_neg (by omega), if_pos rfl] at byte
    exact absurd byte (by decide)

end Calls

theorem Reachable.lost {σ : State} (reached : Reachable c σ) {b : Block} (live : b ∈ σ.live)
    {n : Nat} {bIsNeedVerify : Bool} {err : LockErr}
    (noWrap : NoWrap c (.realloc (some b.ptr) n bIsNeedVerify err))
    (large : 2 ^ 32 ≤ σ.heap.stByteSize (headerOf c σ.heap b.ptr))
    (moves : heapReallocMoves c σ.heap b.ptr n bIsNeedVerify err ≠ none)
    (given : (heapAllocate c σ.heap (requestSize c n) err.allocate).1 ≠ none) :
    ∃ m m', Reallocated c σ.heap b.ptr n bIsNeedVerify err m m' ∧
      ¬ContentsKept σ b n (usableSize c σ.heap b.ptr)
        (heapRealloc c σ.heap (some b.ptr) n bIsNeedVerify err) m m' := by
  obtain ⟨g, segs, free, pairs, core, _, owned, blocks⟩ := reached.inv
  obtain ⟨⟨a, b'⟩, pair, second⟩ := List.mem_map.mp (blocks ▸ live)
  obtain rfl : b' = b := second
  have served : a ∈ segs ∧ a ∉ free ∧ Holds c σ.heap a b' := owned.serves _ pair
  rw [headerOf_eq core served.1 served.2.2] at large
  exact not_kept_of_moved core owned pair noWrap large moves given

/-- In every state a run reaches, a reallocation whose sizes do not wrap keeps the contents
it owes if and only if the block is smaller than what an `UINT` counts or is not moved. -/
theorem realloc_contents_iff (c : Config) (σ : State) (reached : Reachable c σ) (b : Block)
    (live : b ∈ σ.live) (n : Nat) (bIsNeedVerify : Bool) (err : LockErr)
    (noWrap : NoWrap c (.realloc (some b.ptr) n bIsNeedVerify err)) :
    (∀ m m', Reallocated c σ.heap b.ptr n bIsNeedVerify err m m' →
      ContentsKept σ b n (usableSize c σ.heap b.ptr)
        (heapRealloc c σ.heap (some b.ptr) n bIsNeedVerify err) m m') ↔
    σ.heap.stByteSize (headerOf c σ.heap b.ptr) < 2 ^ 32 ∨
      heapReallocMoves c σ.heap b.ptr n bIsNeedVerify err = none ∨
      (heapAllocate c σ.heap (requestSize c n) err.allocate).1 = none := by
  constructor
  · intro kept
    by_contra lost
    rw [not_or, not_or, not_lt] at lost
    obtain ⟨m, m', call, spoiled⟩ := reached.lost live noWrap lost.1 lost.2.1 lost.2.2
    exact spoiled (kept m m' call)
  · intro whole m m' call
    obtain ⟨g, segs, free, pairs, core, _, owned, blocks⟩ := reached.inv
    obtain ⟨⟨a, b'⟩, pair, second⟩ := List.mem_map.mp (blocks ▸ live)
    obtain rfl : b' = b := second
    have served : a ∈ segs ∧ a ∉ free ∧ Holds c σ.heap a b' := owned.serves _ pair
    rw [headerOf_eq core served.1 served.2.2] at whole
    exact call.kept core owned blocks pair noWrap whole

def twoBlocks : State :=
  runSteps ⟨.w64, true⟩ (start ⟨.w64, true⟩ blankHeap 0x1000 0x1000)
    [.call (.allocate 100 false), .call (.allocate 50 false)]

theorem realloc_contents_moved :
    heapReallocMoves ⟨.w64, true⟩ twoBlocks.heap 0x1030 300 true ⟨false, false, false⟩ =
      some 0x1000 ∧
    ∀ m m', Reallocated ⟨.w64, true⟩ twoBlocks.heap 0x1030 300 true ⟨false, false, false⟩ m m' →
      ContentsKept twoBlocks ⟨0x1030, 100⟩ 300 (usableSize ⟨.w64, true⟩ twoBlocks.heap 0x1030)
        (heapRealloc ⟨.w64, true⟩ twoBlocks.heap (some 0x1030) 300 true ⟨false, false, false⟩)
        m m' :=
  ⟨by decide +kernel,
    (realloc_contents_iff ⟨.w64, true⟩ twoBlocks
      ⟨blankHeap, 0x1000, 0x1000, _, by decide, by decide +kernel, by decide, by decide, rfl⟩
      ⟨0x1030, 100⟩ (by decide +kernel) 300 true ⟨false, false, false⟩ (by decide)).mpr
      (Or.inl (by decide +kernel))⟩

/-- A block of 2^32 bytes is moved, and none of its bytes is copied. -/
theorem realloc_copies_nothing :
    ¬ ∀ (c : Config) (σ : State), Reachable c σ → ∀ b ∈ σ.live, ∀ n bIsNeedVerify err,
      NoWrap c (.realloc (some b.ptr) n bIsNeedVerify err) →
      ∀ m m', Reallocated c σ.heap b.ptr n bIsNeedVerify err m m' →
        ContentsKept σ b n (usableSize c σ.heap b.ptr)
          (heapRealloc c σ.heap (some b.ptr) n bIsNeedVerify err) m m' := by
  intro all
  have reached : Reachable ⟨.w64, false⟩ (runSteps ⟨.w64, false⟩
      (start ⟨.w64, false⟩ blankHeap 0x1000 (2 ^ 34))
      [.call (.allocate (2 ^ 32) false), .call (.allocate 16 false)]) :=
    ⟨blankHeap, 0x1000, 2 ^ 34, _, by decide, by decide +kernel, by decide, by decide, rfl⟩
  have live : (⟨0x1030, 2 ^ 32⟩ : Block) ∈ (runSteps ⟨.w64, false⟩
      (start ⟨.w64, false⟩ blankHeap 0x1000 (2 ^ 34))
      [.call (.allocate (2 ^ 32) false), .call (.allocate 16 false)]).live := by
    decide +kernel
  have noWrap : NoWrap ⟨.w64, false⟩
      (.realloc (some 0x1030) (2 ^ 33) false ⟨false, false, false⟩) := by decide
  obtain ⟨m, m', call, spoiled⟩ := reached.lost live noWrap (by decide +kernel)
    (by decide +kernel) (by decide +kernel)
  exact spoiled (all _ _ reached _ live _ _ _ noWrap m m' call)

end SylixOS.HeapLib
