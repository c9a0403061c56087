import SylixOS.HeapReallocation

/-! Whole runs of the heap library: the constructor on one region, then any calls on live
pointers. `Coherent` is what the library owes its clients after every call. -/

namespace SylixOS.HeapLib
open LinkedChain ListLink IntervalTiling Function

structure State where
  heap : Heap
  live : List Block

inductive Call where
  | allocate (stByteSize : Nat) (ulLockErr : Bool)
  | allocateAlign (stByteSize stAlign : Nat) (ulLockErr : Bool)
  | free (pvStartAddress : Option Nat) (bIsNeedVerify ulLockErr : Bool)
  | realloc (pvStartAddress : Option Nat) (stNewByteSize : Nat) (bIsNeedVerify : Bool)
      (err : LockErr)
  deriving DecidableEq, Repr

def grant (r : Option Nat) (n : Nat) (live : List Block) : List Block :=
  match r with
  | none => live
  | some p => ⟨p, n⟩ :: live

def drop (p : Nat) (live : List Block) : List Block := live.eraseP (fun b => b.ptr == p)

def release (r : Option Nat) (p : Nat) (live : List Block) : List Block :=
  match r with
  | none => drop p live
  | some _ => live

def replace (r : Option Nat) (p n : Nat) (live : List Block) : List Block :=
  match r with
  | none => live
  | some q => ⟨q, n⟩ :: drop p live

def exec (c : Config) (σ : State) : Call → State
  | .allocate n err =>
    let r := heapAllocate c σ.heap n err
    ⟨r.2, grant r.1 n σ.live⟩
  | .allocateAlign n stAlign err =>
    let r := heapAllocateAlign c σ.heap n stAlign err
    ⟨r.2, grant r.1 n σ.live⟩
  | .free none verify err => ⟨(heapFree c σ.heap none verify err).2, σ.live⟩
  | .free (some p) verify err =>
    let r := heapFree c σ.heap (some p) verify err
    ⟨r.2, release r.1 p σ.live⟩
  | .realloc none n verify err =>
    let r := heapRealloc c σ.heap none n verify err
    ⟨r.2, grant r.1 n σ.live⟩
  | .realloc (some p) n verify err =>
    let r := heapRealloc c σ.heap (some p) n verify err
    ⟨r.2, if n = 0 then release r.1 p σ.live else replace r.1 p n σ.live⟩

def run (c : Config) (σ : State) (calls : List Call) : State := calls.foldl (exec c) σ

def IsLive (σ : State) : Option Nat → Prop
  | none => True
  | some p => ∃ b ∈ σ.live, b.ptr = p

/-- Arguments are `size_t` values, alignments pass the callers' test
`stAlign & (stAlign - 1)`, and pointers are live. -/
def Legal (c : Config) (σ : State) : Call → Prop
  | .allocate n _ => n < c.modulus
  | .allocateAlign n stAlign _ =>
    n < c.modulus ∧ stAlign < c.modulus ∧ stAlign &&& c.sub stAlign 1 = 0
  | .free p _ _ => IsLive σ p
  | .realloc p n _ _ => IsLive σ p ∧ n < c.modulus

def LegalRun (c : Config) : State → List Call → Prop
  | _, [] => True
  | σ, k :: ks => Legal c σ k ∧ LegalRun c (exec c σ k) ks

instance (σ : State) (p : Option Nat) : Decidable (IsLive σ p) :=
  match p with
  | none => isTrue trivial
  | some p => inferInstanceAs (Decidable (∃ b ∈ σ.live, b.ptr = p))

instance (c : Config) (σ : State) (k : Call) : Decidable (Legal c σ k) :=
  match k with
  | .allocate n _ => inferInstanceAs (Decidable (n < c.modulus))
  | .allocateAlign n stAlign _ => inferInstanceAs (Decidable
      (n < c.modulus ∧ stAlign < c.modulus ∧ stAlign &&& c.sub stAlign 1 = 0))
  | .free p _ _ => inferInstanceAs (Decidable (IsLive σ p))
  | .realloc p n _ _ => inferInstanceAs (Decidable (IsLive σ p ∧ n < c.modulus))

instance decidableLegalRun (c : Config) :
    (σ : State) → (calls : List Call) → Decidable (LegalRun c σ calls)
  | _, [] => isTrue trivial
  | σ, k :: ks =>
    @instDecidableAnd _ _ inferInstance (decidableLegalRun c (exec c σ k) ks)

def trimmedSize (c : Config) (pvStartAddress stByteSize : Nat) : Nat :=
  c.roundDown (stByteSize - (c.roundUp pvStartAddress c.heapAlignment - pvStartAddress))
    c.heapAlignment

structure Region (c : Config) (pvStartAddress stByteSize : Nat) : Prop where
  pos : 0 < pvStartAddress
  inside : pvStartAddress + stByteSize < c.modulus
  room : c.segmentBlockSizeAlign ≤ trimmedSize c pvStartAddress stByteSize

def start (c : Config) (h : Heap) (pvStartAddress stByteSize : Nat) : State :=
  ⟨heapCtorEx c h pvStartAddress stByteSize, []⟩

def Disjoint (b b' : Block) : Prop := b.ptr + b.size ≤ b'.ptr ∨ b'.ptr + b'.size ≤ b.ptr

structure Coherent (c : Config) (σ : State) (segs free : List Nat) : Prop where
  line : IsLine σ.heap.lineManage segs
  tiles : Tiles c.segmentBlockSizeAlign σ.heap.stByteSize σ.heap.pvStartAddress segs
    (σ.heap.pvStartAddress + σ.heap.stTotalByteSize)
  sum : (segs.map σ.heap.stByteSize).sum + segs.length * c.segmentBlockSizeAlign =
    σ.heap.stTotalByteSize
  freeBytes : σ.heap.stFreeByteSize = (free.map σ.heap.stByteSize).sum
  total : σ.heap.stUsedByteSize + σ.heap.stFreeByteSize = σ.heap.stTotalByteSize
  counter : σ.heap.ulSegmentCounter = segs.length
  ring : IsRing σ.heap.ringFreeList σ.heap.pringFreeSegment free
  free_iff : ∀ a, a ∈ free ↔ a ∈ segs ∧ segmentIsUsed σ.heap a = false
  apart : segs.IsChain (fun a b => ¬(segmentIsUsed σ.heap a = false ∧
    segmentIsUsed σ.heap b = false))
  disjoint : σ.live.Pairwise Disjoint

def NoWrap (c : Config) : Call → Prop
  | .allocate n _ => n + c.markSize + 15 < c.modulus
  | .allocateAlign n stAlign _ =>
    n + c.markSize + 15 < c.modulus ∧ stAlign ≠ 0 ∧
    c.roundUp (heapCrossbordSize c n) heapSegMinSize + stAlign ≤ c.modulus
  | .free _ _ _ => True
  | .realloc _ n _ _ =>
    n + c.markSize + 15 < c.modulus ∧
    c.roundUp (heapCrossbordSize c n) heapSegMinSize + c.markSize + 15 < c.modulus

instance (c : Config) (k : Call) : Decidable (NoWrap c k) :=
  match k with
  | .allocate n _ => inferInstanceAs (Decidable (n + c.markSize + 15 < c.modulus))
  | .allocateAlign n stAlign _ => inferInstanceAs (Decidable
      (n + c.markSize + 15 < c.modulus ∧ stAlign ≠ 0 ∧
        c.roundUp (heapCrossbordSize c n) heapSegMinSize + stAlign ≤ c.modulus))
  | .free _ _ _ => isTrue trivial
  | .realloc _ n _ _ => inferInstanceAs (Decidable
      (n + c.markSize + 15 < c.modulus ∧
        c.roundUp (heapCrossbordSize c n) heapSegMinSize + c.markSize + 15 < c.modulus))

variable {c : Config} {g : Ground}

structure Owned (c : Config) (h : Heap) (segs free : List Nat) (pairs : List (Nat × Block)) :
    Prop where
  nodup : (pairs.map Prod.fst).Nodup
  serves : ∀ x ∈ pairs, x.1 ∈ segs ∧ x.1 ∉ free ∧ Holds c h x.1 x.2

def Inv (c : Config) (g : Ground) (σ : State) : Prop :=
  ∃ segs free pairs, Core c g σ.heap segs free ∧ Separated g free segs ∧
    Owned c σ.heap segs free pairs ∧ pairs.map Prod.snd = σ.live

theorem Owned.keep {h h' : Heap} {segs free segs' free' : List Nat} {pairs : List (Nat × Block)}
    (owned : Owned c h segs free pairs)
    (keep : ∀ u ∈ segs, u ∉ free → u ∈ pairs.map Prod.fst →
      u ∈ segs' ∧ u ∉ free' ∧ Keeps c h h' u) :
    Owned c h' segs' free' pairs := by
  refine ⟨owned.nodup, ?_⟩
  intro x hx
  obtain ⟨mem, used, holds⟩ := owned.serves x hx
  obtain ⟨mem', used', kept⟩ := keep x.1 mem used (List.mem_map_of_mem hx)
  exact ⟨mem', used', holds.keep kept⟩

theorem Owned.cons {h : Heap} {segs free : List Nat} {pairs : List (Nat × Block)} {a : Nat}
    {b : Block} (owned : Owned c h segs free pairs) (mem : a ∈ segs) (used : a ∉ free)
    (holds : Holds c h a b) (fresh : a ∉ pairs.map Prod.fst) :
    Owned c h segs free ((a, b) :: pairs) := by
  refine ⟨List.nodup_cons.mpr ⟨fresh, owned.nodup⟩, ?_⟩
  intro x hx
  rcases List.mem_cons.mp hx with rfl | hx
  · exact ⟨mem, used, holds⟩
  · exact owned.serves x hx

theorem Owned.drop {h : Heap} {segs free : List Nat} {pairs : List (Nat × Block)}
    {live : List Block} (owned : Owned c h segs free pairs) (blocks : pairs.map Prod.snd = live)
    {p : Nat} (isLive : ∃ b ∈ live, b.ptr = p) :
    ∃ a b rest, (a, b) ∈ pairs ∧ b.ptr = p ∧ a ∉ rest.map Prod.fst ∧
      Owned c h segs free rest ∧ rest.map Prod.snd = HeapLib.drop p live := by
  obtain ⟨b₀, mem₀, ptr₀⟩ := isLive
  obtain ⟨b, l₁, l₂, _, ptr, split, erased⟩ :=
    List.exists_of_eraseP (p := fun b : Block => b.ptr == p) mem₀ (by simpa using ptr₀)
  rw [← blocks] at split
  obtain ⟨p₁, p', rfl, hp₁, tail⟩ := List.map_eq_append_iff.mp split
  obtain ⟨⟨a, b'⟩, p₂, rfl, hb, hp₂⟩ := List.map_eq_cons_iff.mp tail
  have same : b' = b := hb
  subst same
  have nodup := owned.nodup
  rw [List.map_append, List.map_cons, List.nodup_middle, List.nodup_cons] at nodup
  rw [← List.map_append] at nodup
  refine ⟨a, b', p₁ ++ p₂, by simp, by simpa using ptr, nodup.1, ⟨nodup.2, ?_⟩, ?_⟩
  · intro x hx
    refine owned.serves x ?_
    simp only [List.mem_append, List.mem_cons] at hx ⊢
    tauto
  · rw [HeapLib.drop, erased, List.map_append, hp₁, hp₂]

theorem Inv.disjoint {σ : State} (inv : Inv c g σ) : σ.live.Pairwise Disjoint := by
  obtain ⟨segs, free, pairs, core, _, owned, blocks⟩ := inv
  rw [← blocks, List.pairwise_map]
  have distinct : pairs.Pairwise (fun x y => x.1 ≠ y.1) := List.pairwise_map.mp owned.nodup
  refine distinct.imp_of_mem ?_
  intro x y hx hy ne
  obtain ⟨xmem, _, xlo, xhi, _⟩ := owned.serves x hx
  obtain ⟨ymem, _, ylo, yhi, _⟩ := owned.serves y hy
  have apart := core.plots.apart_of_ne xmem ymem ne
  rw [Disjoint]
  omega

theorem Core.free_iff {h : Heap} {segs free : List Nat} (core : Core c g h segs free) (a : Nat) :
    a ∈ free ↔ a ∈ segs ∧ segmentIsUsed h a = false := by
  constructor
  · intro hf
    have mem := core.free_mem a hf
    exact ⟨mem, (core.mem_free_iff mem).mpr hf⟩
  · rintro ⟨mem, busy⟩
    exact (core.mem_free_iff mem).mp busy

theorem Inv.coherent {σ : State} (inv : Inv c g σ) (single : g.starts = ∅) :
    ∃ segs free, Coherent c σ segs free := by
  have disjoint := inv.disjoint
  obtain ⟨segs, free, pairs, core, sep, owned, blocks⟩ := inv
  refine ⟨segs, free, core.line, ?_, core.sum_eq_total, core.freeBytes, core.total,
    core.counter, core.ring, core.free_iff, ?_, disjoint⟩
  · have first := core.start_eq
    have total := core.total_eq
    rw [core.plots.card_eq c.segmentBlockSizeAlign_pos] at total
    cases segs with
    | nil => simp at first
    | cons a t =>
      have start : a = σ.heap.pvStartAddress := by simpa using first
      have tiles := core.plots.tiles (by simp [single])
      rw [← total, start] at tiles
      rw [start]
      exact tiles
  · refine sep.imp_of_mem_imp ?_
    intro a b ha hb apart both
    rw [single] at apart
    refine apart.resolve_left (Set.notMem_empty b) ?_
    exact ⟨(core.free_iff a).mpr ⟨ha, both.1⟩, (core.free_iff b).mpr ⟨hb, both.2⟩⟩

theorem inv_of_granted {h h' : Heap} {segs free : List Nat} {pairs : List (Nat × Block)}
    {live : List Block} {b : Block} (granted : Granted c g h segs free h' b)
    (owned : Owned c h segs free pairs) (sep : Separated g free segs)
    (blocks : pairs.map Prod.snd = live) :
    Inv c g ⟨h', b :: live⟩ := by
  obtain ⟨segs', free', a, core, sep', mem, used, holds, rest⟩ := granted
  have fresh : a ∉ pairs.map Prod.fst := by
    intro e
    obtain ⟨x, hx, hxa⟩ := List.mem_map.mp e
    obtain ⟨xmem, xused, _⟩ := owned.serves x hx
    exact (rest x.1 xmem xused).1 hxa
  have kept := owned.keep (fun u hu huf _ => (rest u hu huf).2)
  refine ⟨segs', free', (a, b) :: pairs, core, sep' sep, kept.cons mem used holds fresh, ?_⟩
  rw [List.map_cons, blocks]

theorem inv_of_released {h h' : Heap} {segs free : List Nat} {pairs : List (Nat × Block)}
    {a : Nat} (released : Released c g h segs free a h') (owned : Owned c h segs free pairs)
    (sep : Separated g free segs) (gone : a ∉ pairs.map Prod.fst) : Inv c g ⟨h', pairs.map Prod.snd⟩ := by
  obtain ⟨segs', free', core, sep', rest⟩ := released
  refine ⟨segs', free', pairs, core, sep' sep, owned.keep ?_, rfl⟩
  intro u hu huf hup
  exact rest u hu huf (fun e => gone (e ▸ hup))

theorem inv_of_resized {h h' : Heap} {segs free : List Nat} {pairs : List (Nat × Block)}
    {a : Nat} {b : Block} (resized : Resized c g h segs free a h' b)
    (owned : Owned c h segs free pairs) (sep : Separated g free segs) (gone : a ∉ pairs.map Prod.fst) :
    Inv c g ⟨h', b :: pairs.map Prod.snd⟩ := by
  obtain ⟨segs', free', a', core, sep', mem, used, holds, rest⟩ := resized
  have other : ∀ u ∈ pairs.map Prod.fst, u ≠ a := fun u hu e => gone (e ▸ hu)
  have fresh : a' ∉ pairs.map Prod.fst := by
    intro e
    obtain ⟨x, hx, hxa⟩ := List.mem_map.mp e
    obtain ⟨xmem, xused, _⟩ := owned.serves x hx
    exact (rest x.1 xmem xused (other x.1 (List.mem_map_of_mem hx))).1 hxa
  have kept := owned.keep (fun u hu huf hup => (rest u hu huf (other u hup)).2)
  exact ⟨segs', free', (a', b) :: pairs, core, sep' sep, kept.cons mem used holds fresh, rfl⟩

theorem Inv.updataMaxUsed {h : Heap} {live : List Block} (inv : Inv c g ⟨h, live⟩) :
    Inv c g ⟨h.updataMaxUsed, live⟩ := by
  obtain ⟨segs, free, pairs, core, sep, owned, blocks⟩ := inv
  exact ⟨segs, free, pairs, core.updataMaxUsed, sep, owned.keep (fun u hu huf _ =>
    ⟨hu, huf, Keeps.of_same (fun _ _ => rfl) u⟩), blocks⟩

theorem powerOfTwo_of_legal {stAlign : Nat} (lt : stAlign < c.modulus) (pos : stAlign ≠ 0)
    (test : stAlign &&& c.sub stAlign 1 = 0) : ∃ k, stAlign = 2 ^ k := by
  rw [Config.sub_eq (by omega) lt] at test
  exact (Nat.and_sub_one_eq_zero_iff_isPowerOfTwo pos).mp test

theorem Inv.exec {σ : State} {k : Call} (inv : Inv c g σ) (legal : Legal c σ k)
    (noWrap : NoWrap c k) : Inv c g (exec c σ k) := by
  obtain ⟨h, live⟩ := σ
  have whole := inv
  obtain ⟨segs, free, pairs, core, sep, owned, blocks⟩ := inv
  simp only at core owned blocks
  cases k with
  | allocate n err =>
    rcases heapAllocate_spec core noWrap err with failed | ⟨p, h', ok, granted⟩
    · simpa only [HeapLib.exec, failed, grant, release] using whole
    · simp only [HeapLib.exec, ok]
      exact inv_of_granted granted owned sep blocks
  | allocateAlign n stAlign err =>
    obtain ⟨_, lt, test⟩ := legal
    obtain ⟨small, pos, sum⟩ := noWrap
    obtain ⟨e, rfl⟩ := powerOfTwo_of_legal lt pos test
    have room : ∀ a ∈ free, requestSize c n + segmentGap c a e < c.modulus := fun a _ => by
      have gap := alignGap_lt (a + c.segmentBlockSizeAlign) e
      rw [segmentGap, requestSize]
      omega
    rcases heapAllocateAlign_spec core small lt room err with failed | ⟨p, h', ok, granted⟩
    · simpa only [HeapLib.exec, failed, grant, release] using whole
    · simp only [HeapLib.exec, ok]
      exact inv_of_granted granted owned sep blocks
  | free p verify err =>
    cases p with
    | none => exact whole
    | some p =>
      obtain ⟨a, b, rest, pair, rfl, gone, others, left⟩ := owned.drop blocks legal
      obtain ⟨mem, used, holds⟩ := owned.serves _ pair
      rcases heapFree_spec core mem used holds verify err with failed | ⟨h', ok, released⟩
      · simpa only [HeapLib.exec, failed, grant, release] using whole
      · simp only [HeapLib.exec, ok, release]
        rw [← left]
        exact inv_of_released released others sep gone
  | realloc p n verify err =>
    obtain ⟨small, move⟩ := noWrap
    cases p with
    | none =>
      by_cases zero : n = 0
      · simpa only [HeapLib.exec, heapRealloc, zero, if_true, grant] using whole
      · rcases heapAllocate_spec core small err.allocate with failed | ⟨p, h', ok, granted⟩
        · simpa only [HeapLib.exec, heapRealloc, zero, if_false, failed, grant] using whole
        · simp only [HeapLib.exec, heapRealloc, zero, if_false, ok]
          exact inv_of_granted granted owned sep blocks
    | some p =>
      obtain ⟨a, b, rest, pair, rfl, gone, others, left⟩ := owned.drop blocks legal.1
      obtain ⟨mem, used, holds⟩ := owned.serves _ pair
      by_cases zero : n = 0
      · rcases heapFree_spec core mem used holds verify err.free with failed | ⟨h', ok, released⟩
        · simpa only [HeapLib.exec, heapRealloc, zero, if_true, failed, release] using whole
        · simp only [HeapLib.exec, heapRealloc, zero, if_true, ok, release]
          rw [← left]
          exact inv_of_released released others sep gone
      · rcases heapRealloc_spec core mem used holds zero small move verify err with
          ⟨h', failed, same⟩ | ⟨q, h', ok, resized⟩
        · simp only [HeapLib.exec, zero, if_false, failed, replace]
          rcases same with rfl | rfl
          · exact whole
          · exact whole.updataMaxUsed
        · simp only [HeapLib.exec, zero, if_false, ok, replace]
          rw [← left]
          exact inv_of_resized resized others sep gone

theorem Inv.run {σ : State} {calls : List Call} (inv : Inv c g σ) (legal : LegalRun c σ calls)
    (noWrap : ∀ k ∈ calls, NoWrap c k) : Inv c g (run c σ calls) := by
  induction calls generalizing σ with
  | nil => exact inv
  | cons k ks ih =>
    have next := inv.exec legal.1 (noWrap k (by simp))
    exact ih next legal.2 (fun k' hk => noWrap k' (by simp [hk]))

theorem Config.heapAlignment_pos (c : Config) : 0 < c.heapAlignment :=
  c.sizeofSizeT_pos.trans_le c.sizeofSizeT_le

theorem Config.heapAlignment_le (c : Config) : c.heapAlignment ≤ c.segmentBlockSizeAlign :=
  Nat.le_of_dvd c.segmentBlockSizeAlign_pos c.heapAlignment_dvd_segmentBlockSizeAlign

theorem Region.trimmed {pvStartAddress stByteSize : Nat}
    (region : Region c pvStartAddress stByteSize) :
    pvStartAddress ≤ c.roundUp pvStartAddress c.heapAlignment ∧
    c.heapAlignment ∣ c.roundUp pvStartAddress c.heapAlignment ∧
    c.heapAlignment ∣ trimmedSize c pvStartAddress stByteSize ∧
    c.roundUp pvStartAddress c.heapAlignment + trimmedSize c pvStartAddress stByteSize ≤
      pvStartAddress + stByteSize := by
  obtain ⟨pos, inside, room⟩ := region
  have apos := c.heapAlignment_pos
  have ale := c.heapAlignment_le
  have hpos := c.segmentBlockSizeAlign_pos
  simp only [trimmedSize, Config.roundDown] at room ⊢
  have sum : c.add pvStartAddress (c.heapAlignment - 1) = pvStartAddress + (c.heapAlignment - 1) :=
    Config.add_eq (by omega)
  have up : c.roundUp pvStartAddress c.heapAlignment =
      pvStartAddress + (c.heapAlignment - 1) -
        (pvStartAddress + (c.heapAlignment - 1)) % c.heapAlignment := by
    simp only [Config.roundUp, sum]
  have rest := Nat.mod_lt (pvStartAddress + (c.heapAlignment - 1)) apos
  refine ⟨by omega, ?_, Nat.dvd_sub_mod _, by omega⟩
  rw [up]
  exact Nat.dvd_sub_mod _

def regionBytes (c : Config) (pvStartAddress stByteSize : Nat) : Finset Nat :=
  Finset.Ico (c.roundUp pvStartAddress c.heapAlignment)
    (c.roundUp pvStartAddress c.heapAlignment + trimmedSize c pvStartAddress stByteSize)

theorem heapCtorEx_core {h : Heap} {pvStartAddress stByteSize : Nat}
    (region : Region c pvStartAddress stByteSize) :
    Core c ⟨regionBytes c pvStartAddress stByteSize, ∅⟩ (heapCtorEx c h pvStartAddress stByteSize)
      [c.roundUp pvStartAddress c.heapAlignment] [c.roundUp pvStartAddress c.heapAlignment] := by
  obtain ⟨le, up_aligned, st_aligned, fits⟩ := region.trimmed
  obtain ⟨pos, inside, room⟩ := region
  have hpos := c.segmentBlockSizeAlign_pos
  have shrink : c.roundDown (if c.roundUp pvStartAddress c.heapAlignment > pvStartAddress then
      c.sub stByteSize (c.sub (c.roundUp pvStartAddress c.heapAlignment) pvStartAddress)
      else stByteSize) c.heapAlignment = trimmedSize c pvStartAddress stByteSize := by
    rw [trimmedSize]
    split
    next above =>
      have skip : c.sub (c.roundUp pvStartAddress c.heapAlignment) pvStartAddress =
          c.roundUp pvStartAddress c.heapAlignment - pvStartAddress :=
        Config.sub_eq le (by omega)
      rw [skip, Config.sub_eq (by omega) (by omega)]
    next same =>
      have zero : c.roundUp pvStartAddress c.heapAlignment - pvStartAddress = 0 := by omega
      rw [zero, Nat.sub_zero]
  have size : c.sub (trimmedSize c pvStartAddress stByteSize) c.segmentBlockSizeAlign =
      trimmedSize c pvStartAddress stByteSize - c.segmentBlockSizeAlign :=
    Config.sub_eq room (by omega)
  simp only [heapCtorEx, shrink, size, regionBytes]
  generalize c.roundUp pvStartAddress c.heapAlignment = a at le up_aligned fits ⊢
  generalize trimmedSize c pvStartAddress stByteSize = st at room st_aligned fits ⊢
  have empty : IsRing (initListRingHead h.ringFreeList a) none [] := ⟨rfl, List.nodup_nil, trivial⟩
  have out : a ∉ ([] : List Nat) := by simp
  have ring := (listRingAddAhead_spec empty out).1
  have whole : st - c.segmentBlockSizeAlign + c.segmentBlockSizeAlign = st := by omega
  have plots := plots_singleton c.segmentBlockSizeAlign
    (update h.stByteSize a (st - c.segmentBlockSizeAlign)) ∅ a
  rw [update_self, Nat.add_assoc, Nat.add_comm c.segmentBlockSizeAlign, whole] at plots
  refine ⟨⟨?_, ring, fun x hx => hx, plots, ?_, ?_, ?_, ?_, rfl, ?_⟩, ?_, rfl, ?_, ?_⟩
  · refine ⟨List.nodup_singleton a, ?_⟩
    simp [Linked, setNext_next, setPrev_prev]
  · simp
  · simpa using up_aligned
  · intro x hx
    rw [List.mem_singleton.mp hx]
    simp only [update_self]
    exact Nat.dvd_sub st_aligned c.heapAlignment_dvd_segmentBlockSizeAlign
  · intro x hx
    rw [List.mem_singleton.mp hx]
    simp only [update_self]
    omega
  · simp only [Nat.card_Ico]
    omega
  · exact fun x hx hf => absurd hx hf
  · simp
  · simp only
    omega

theorem heapCtorEx_spec {h : Heap} {pvStartAddress stByteSize : Nat}
    (region : Region c pvStartAddress stByteSize) :
    Inv c ⟨regionBytes c pvStartAddress stByteSize, ∅⟩ (start c h pvStartAddress stByteSize) :=
  ⟨_, _, [], heapCtorEx_core region, List.isChain_singleton _, ⟨List.nodup_nil, by simp⟩, rfl⟩

/-- Along every run in which no size computation wraps, the heap is coherent. -/
theorem heap_coherent_of_noWrap (c : Config) (h : Heap) (pvStartAddress stByteSize : Nat)
    (calls : List Call) (region : Region c pvStartAddress stByteSize)
    (legal : LegalRun c (start c h pvStartAddress stByteSize) calls)
    (noWrap : ∀ k ∈ calls, NoWrap c k) :
    ∃ segs free, Coherent c (run c (start c h pvStartAddress stByteSize) calls) segs free :=
  ((heapCtorEx_spec region).run legal noWrap).coherent rfl

def blankHeap : Heap where
  lineManage := ⟨fun _ => none, fun _ => none⟩
  ringFreeList := ⟨fun _ => none, fun _ => none⟩
  stByteSize := fun _ => 0
  stMagic := fun _ => 0
  pringFreeSegment := none
  pvStartAddress := 0
  stTotalByteSize := 0
  ulSegmentCounter := 0
  stUsedByteSize := 0
  stFreeByteSize := 0
  stMaxUsedByteSize := 0

theorem heap_coherent_after_move :
    ∃ segs free, Coherent ⟨.w64, true⟩
      (run ⟨.w64, true⟩ (start ⟨.w64, true⟩ blankHeap 0x1000 0x1000)
        [.allocate 100 false, .allocateAlign 40 64 false,
          .realloc (some 0x1030) 200 true ⟨false, false, false⟩]) segs free :=
  heap_coherent_of_noWrap ⟨.w64, true⟩ blankHeap 0x1000 0x1000 _
    ⟨by decide, by decide, by decide⟩ (by decide +kernel) (by decide)

/-- Two requests of the largest size are both granted, with the same bytes. -/
theorem heap_overlap_after_wrap :
    ¬ ∀ (c : Config) (h : Heap) (pvStartAddress stByteSize : Nat) (calls : List Call),
      Region c pvStartAddress stByteSize →
      LegalRun c (start c h pvStartAddress stByteSize) calls →
      ∃ segs free, Coherent c (run c (start c h pvStartAddress stByteSize) calls) segs free := by
  intro all
  obtain ⟨segs, free, coherent⟩ := all ⟨.w64, false⟩ blankHeap 0x1000 0x1000
    [.allocate (2 ^ 64 - 1) false, .allocate (2 ^ 64 - 1) false]
    ⟨by decide, by decide, by decide⟩ (by decide +kernel)
  have blocks : (run ⟨.w64, false⟩ (start ⟨.w64, false⟩ blankHeap 0x1000 0x1000)
      [.allocate (2 ^ 64 - 1) false, .allocate (2 ^ 64 - 1) false]).live =
      [⟨0x1060, 2 ^ 64 - 1⟩, ⟨0x1030, 2 ^ 64 - 1⟩] := by
    decide +kernel
  have apart := coherent.disjoint
  rw [blocks] at apart
  simp [Disjoint] at apart

end SylixOS.HeapLib
