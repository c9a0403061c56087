import SylixOS.HeapInvariant

/-! Allocation and aligned allocation against the invariant. The hypotheses on
sizes say that no size computation of the call wraps around the word. -/

namespace SylixOS.HeapLib
open LinkedChain ListLink IntervalTiling

variable {c : Config} {g : Ground}

def Granted (c : Config) (g : Ground) (h : Heap) (segs free : List Nat) (h' : Heap) (b : Block) :
    Prop :=
  ∃ segs' free' a, Core c g h' segs' free' ∧
    (Separated g free segs → Separated g free' segs') ∧ a ∈ segs' ∧ a ∉ free' ∧ Holds c h' a b ∧
    ∀ u ∈ segs, u ∉ free → u ≠ a ∧ u ∈ segs' ∧ u ∉ free' ∧ Keeps c h h' u

def requestSize (c : Config) (n : Nat) : Nat := c.roundUp (heapCrossbordSize c n) heapSegMinSize

theorem crossbordSize_eq {n : Nat} (noWrap : n + c.markSize < c.modulus) :
    heapCrossbordSize c n = n + c.markSize := by
  unfold heapCrossbordSize
  unfold Config.markSize at noWrap ⊢
  split
  next enabled =>
    simp only [enabled, if_true] at noWrap
    exact Config.add_eq noWrap
  next => rfl

theorem requestSize_spec {n : Nat} (noWrap : n + c.markSize + 15 < c.modulus) :
    n + c.markSize ≤ requestSize c n ∧ requestSize c n < n + c.markSize + 16 := by
  rw [requestSize, crossbordSize_eq (by omega)]
  obtain ⟨lo, hi, _⟩ := Config.roundUp_segMin noWrap
  exact ⟨lo, hi⟩

theorem requestSize_aligned (c : Config) (n : Nat) : c.heapAlignment ∣ requestSize c n := by
  refine Config.heapAlignment_dvd_of_segMin ?_
  simp only [requestSize, Config.roundUp, heapSegMinSize]
  omega

theorem Core.ringScan_eq {h : Heap} {segs free : List Nat} (core : Core c g h segs free)
    (found : Nat → Bool) {first : Nat} (header : h.pringFreeSegment = some first) :
    ringScan h.ringFreeList h.pringFreeSegment found h.ulSegmentCounter first =
      free.find? found := by
  have ring := core.ring
  have len := core.free_length_le
  have start := ring.header_eq
  rw [header] at start
  cases free with
  | nil => simp at start
  | cons f t =>
    have hf : first = f := by simpa using start
    subst hf
    have whole : IsRing h.ringFreeList h.pringFreeSegment ([] ++ first :: t) := ring
    refine ringScan_eq_find whole found ?_
    rw [core.counter]
    simp only [List.length_cons] at len
    omega

theorem Core.size_le_free {h : Heap} {segs free : List Nat} (core : Core c g h segs free) {a : Nat}
    (mem : a ∈ free) : h.stByteSize a ≤ h.stFreeByteSize := by
  rw [core.freeBytes]
  exact Layout.size_le_sum mem

theorem Core.heapAllocate_eq {h : Heap} {segs free : List Nat} (core : Core c g h segs free)
    (n : Nat) (ulLockErr : Bool) :
    heapAllocate c h n ulLockErr =
      match if ulLockErr then none else
        free.find? (fun s => requestSize c n ≤ h.stByteSize s) with
      | none => (none, h)
      | some a => (some (dataPtr c a),
          heapCrossbordMark c (heapTake c h a (requestSize c n)).updataMaxUsed a) := by
  unfold heapAllocate
  simp only
  rw [show c.roundUp (heapCrossbordSize c n) heapSegMinSize = requestSize c n from rfl]
  split
  next short =>
    have missing : free.find? (fun s => decide (requestSize c n ≤ h.stByteSize s)) = none := by
      rw [List.find?_eq_none]
      intro s hs
      have le := core.size_le_free hs
      simp only [decide_eq_true_eq]
      omega
    rw [missing]
    simp
  next =>
    cases ulLockErr with
    | true => rfl
    | false =>
      simp only [Bool.false_eq_true, if_false]
      cases header : h.pringFreeSegment with
      | none =>
        have empty := core.ring.header_eq
        rw [header] at empty
        have nil : free = [] := List.head?_eq_none_iff.mp empty.symm
        rw [nil]
        rfl
      | some first =>
        have scan := core.ringScan_eq
          (fun s => decide (requestSize c n ≤ h.stByteSize s)) header
        rw [header] at scan
        simp only [scan] <;> rfl

theorem separated_take {free free' s t new : List Nat} {a : Nat} (left : Separated g free s)
    (right : Separated g free t) (first : ∀ y, t.head? = some y → y ∈ g.starts ∨ y ∉ free)
    (used : a ∉ free') (short : new.length ≤ 1) (sub : ∀ x ∈ s ++ t, x ∈ free' → x ∈ free) :
    Separated g free' (s ++ a :: (new ++ t)) := by
  have rightTail : Separated g free' t := right.mono (fun x hx => sub x (by simp [hx]))
  rw [separated_around used]
  refine ⟨left.mono (fun x hx => sub x (by simp [hx])), ?_⟩
  cases new with
  | nil => exact rightTail
  | cons n rest =>
    have restNil : rest = [] := List.length_eq_zero_iff.mp (by simpa using short)
    subst restNil
    simp only [List.singleton_append, Separated, List.isChain_cons]
    refine ⟨fun y hy => ?_, rightTail⟩
    refine (first y hy).imp_right fun out both => ?_
    exact out (sub y (by simp [List.mem_of_mem_head? hy]) both.2)

theorem Taken.separated {h h' : Heap} {s t free new free' : List Nat} {a stSize : Nat}
    (taken : Taken c g h s t free a stSize h' new free') (mem : a ∈ free)
    (sep : Separated g free (s ++ a :: t)) : Separated g free' (s ++ a :: (new ++ t)) := by
  obtain ⟨left, right, first, _⟩ := sep.free_neighbours mem
  exact separated_take left right first taken.used taken.short
    (fun x hx => (taken.others hx).2.mp)

theorem Taken.granted {h h' : Heap} {s t free new free' : List Nat} {a stSize : Nat} {b : Block}
    (taken : Taken c g h s t free a stSize h' new free') (mem : a ∈ free)
    (holds : Holds c h' a b) : Granted c g h (s ++ a :: t) free h' b := by
  refine ⟨_, free', a, taken.core, taken.separated mem, by simp, taken.used, holds, ?_⟩
  intro u hu huf
  have hua : u ≠ a := fun e => huf (e ▸ mem)
  have around : u ∈ s ++ t := by
    simp only [List.mem_append, List.mem_cons] at hu ⊢
    tauto
  refine ⟨hua, ?_, fun e => huf ((taken.others around).2.mp e), taken.keep u around⟩
  simp only [List.mem_append, List.mem_cons] at around ⊢
  tauto

def recordSegment (h : Heap) (a added : Nat) : Heap :=
  if added ≠ 0 then h.setMagic (a + added) a else h

theorem taken_of_take {h : Heap} {s t free : List Nat} {a : Nat} (stSize added : Nat)
    (core : Core c g h (s ++ a :: t) free) (mem : a ∈ free)
    (fits : stSize + added ≤ h.stByteSize a) (st_aligned : c.heapAlignment ∣ stSize)
    (added_aligned : c.heapAlignment ∣ added) (room : c.markSize ≤ stSize) :
    ∃ new free', Taken c g h s t free a (stSize + added)
        (heapCrossbordMark c
          (recordSegment (heapTake c h a (stSize + added)) a added).updataMaxUsed a) new free' ∧
      ∀ n, n + c.markSize ≤ stSize → Holds c
        (heapCrossbordMark c
          (recordSegment (heapTake c h a (stSize + added)) a added).updataMaxUsed a) a
        ⟨a + c.segmentBlockSizeAlign + added, n⟩ := by
  obtain ⟨new, free', taken⟩ := heapTake_spec core mem fits (Nat.dvd_add st_aligned added_aligned)
  have space := taken.room fits
  have amem : a ∈ s ++ a :: (new ++ t) := by simp
  have recorded : Taken c g h s t free a (stSize + added)
      (recordSegment (heapTake c h a (stSize + added)) a added) new free' := by
    unfold recordSegment
    split
    next some => exact taken.setMagic (by omega) (by omega)
    next none => exact taken
  have sizes : (recordSegment (heapTake c h a (stSize + added)) a added).stByteSize =
      (heapTake c h a (stSize + added)).stByteSize := by
    unfold recordSegment
    split <;> rfl
  have counted := recorded.updataMaxUsed
  refine ⟨new, free', ?_, ?_⟩
  · rw [heapCrossbordMark_eq counted.core amem]
    split
    next enabled =>
      have size := c.sizeofSizeT_pos
      simp only [Config.markSize, enabled, if_true] at room
      refine counted.setMagic ?_ (le_refl _)
      change a < a + (recordSegment (heapTake c h a (stSize + added)) a added).stByteSize a
      rw [sizes]
      omega
    next => exact counted
  · intro n asked
    refine Holds.mark counted.core amem ⟨by simp, ?_, ?_⟩
    · change a + c.segmentBlockSizeAlign + added + n + c.markSize ≤ a + c.segmentBlockSizeAlign +
        (recordSegment (heapTake c h a (stSize + added)) a added).stByteSize a
      rw [sizes]
      omega
    · by_cases zero : added = 0
      · exact Or.inl (by simp [zero])
      · have word := c.sizeofSizeT_le
        have step := Nat.le_of_dvd (Nat.pos_of_ne_zero zero) added_aligned
        refine Or.inr ⟨by simp only; omega, ?_⟩
        have spot : a + c.segmentBlockSizeAlign + added - c.segmentBlockSizeAlign = a + added := by
          omega
        simp only [spot]
        change (recordSegment (heapTake c h a (stSize + added)) a added).stMagic (a + added) = a
        simp [recordSegment, zero, Heap.setMagic]

theorem Core.heapAllocate_taken {h h' : Heap} {segs free : List Nat} {n p : Nat}
    {ulLockErr : Bool} (core : Core c g h segs free) (room : c.markSize ≤ requestSize c n)
    (given : heapAllocate c h n ulLockErr = (some p, h')) :
    ∃ s t a new free', segs = s ++ a :: t ∧ a ∈ free ∧ p = a + c.segmentBlockSizeAlign ∧
      requestSize c n ≤ h.stByteSize a ∧ Taken c g h s t free a (requestSize c n) h' new free' ∧
      ∀ k, k + c.markSize ≤ requestSize c n → Holds c h' a ⟨p, k⟩ := by
  rw [core.heapAllocate_eq] at given
  split at given
  next => simp at given
  next a found =>
    cases ulLockErr with
    | true => simp at found
    | false =>
      simp only [Bool.false_eq_true, if_false] at found
      have mem := List.mem_of_find?_eq_some found
      have fits : requestSize c n ≤ h.stByteSize a := by simpa using List.find?_some found
      have amem := core.free_mem a mem
      rw [core.dataPtr_eq amem] at given
      obtain ⟨s, t, rfl⟩ := List.append_of_mem amem
      obtain ⟨new, free', taken, holds⟩ := taken_of_take (requestSize c n) 0 core mem fits
        (requestSize_aligned c n) (Nat.dvd_zero _) (by omega)
      obtain ⟨rfl, rfl⟩ := Prod.mk.inj given |>.imp_left Option.some.inj
      exact ⟨s, t, a, new, free', rfl, mem, rfl, fits, taken, holds⟩

theorem heapAllocate_spec {h : Heap} {segs free : List Nat} {n : Nat}
    (core : Core c g h segs free) (noWrap : n + c.markSize + 15 < c.modulus) (ulLockErr : Bool) :
    heapAllocate c h n ulLockErr = (none, h) ∨
    ∃ p h', heapAllocate c h n ulLockErr = (some p, h') ∧ Granted c g h segs free h' ⟨p, n⟩ := by
  obtain ⟨asked, _⟩ := requestSize_spec noWrap
  cases given : heapAllocate c h n ulLockErr with
  | mk r h' =>
    cases r with
    | none =>
      have same := given
      rw [core.heapAllocate_eq] at same
      split at same
      next =>
        obtain ⟨-, rfl⟩ := Prod.mk.inj same
        exact Or.inl rfl
      next => simp at same
    | some p =>
      obtain ⟨s, t, a, new, free', rfl, mem, _, _, taken, holds⟩ :=
        core.heapAllocate_taken (by omega) given
      exact Or.inr ⟨p, h', rfl, taken.granted mem (holds n asked)⟩

section Alignment

theorem lor_two_pow_sub_one (d k : Nat) :
    (d ||| (2 ^ k - 1)) + 1 = d - d % 2 ^ k + 2 ^ k := by
  have pos : 0 < 2 ^ k := Nat.two_pow_pos k
  have high : (d ||| (2 ^ k - 1)) / 2 ^ k = d / 2 ^ k := by
    rw [Nat.or_div_two_pow, Nat.div_eq_of_lt (Nat.sub_one_lt (by omega) : 2 ^ k - 1 < 2 ^ k)]
    simp
  have low : (d ||| (2 ^ k - 1)) % 2 ^ k = 2 ^ k - 1 := by
    refine Nat.eq_of_testBit_eq ?_
    intro i
    rw [Nat.testBit_mod_two_pow, Nat.testBit_or, Nat.testBit_two_pow_sub_one]
    by_cases hi : i < k <;> simp [hi]
  have whole := Nat.div_add_mod (d ||| (2 ^ k - 1)) (2 ^ k)
  have parts := Nat.div_add_mod d (2 ^ k)
  rw [high, low] at whole
  omega

theorem Config.two_pow_dvd_modulus {k : Nat} (lt : 2 ^ k < c.modulus) : 2 ^ k ∣ c.modulus := by
  obtain ⟨w, b⟩ := c
  cases w with
  | w32 => exact pow_dvd_pow 2 ((Nat.pow_lt_pow_iff_right (by omega)).mp lt).le
  | w64 => exact pow_dvd_pow 2 ((Nat.pow_lt_pow_iff_right (by omega)).mp lt).le

theorem Config.heapAlignment_two_pow (c : Config) : ∃ j, c.heapAlignment = 2 ^ j := by
  obtain ⟨w, b⟩ := c
  cases w
  · exact ⟨3, rfl⟩
  · exact ⟨4, rfl⟩

def alignGap (d k : Nat) : Nat := (2 ^ k - d % 2 ^ k) % 2 ^ k

theorem alignGap_lt (d k : Nat) : alignGap d k < 2 ^ k := Nat.mod_lt _ (Nat.two_pow_pos k)

theorem alignGap_dvd {d k : Nat} (aligned : c.heapAlignment ∣ d) :
    c.heapAlignment ∣ alignGap d k := by
  obtain ⟨j, hj⟩ := c.heapAlignment_two_pow
  rw [hj] at aligned ⊢
  rcases le_total j k with le | le
  · have pow : 2 ^ j ∣ 2 ^ k := pow_dvd_pow 2 le
    have rest : 2 ^ j ∣ d % 2 ^ k := (Nat.dvd_mod_iff pow).mpr aligned
    exact (Nat.dvd_mod_iff pow).mpr (Nat.dvd_sub pow rest)
  · have multiple : d % 2 ^ k = 0 :=
      Nat.mod_eq_zero_of_dvd ((pow_dvd_pow 2 le).trans aligned)
    simp [alignGap, multiple]

theorem dvd_add_alignGap (d k : Nat) : 2 ^ k ∣ d + alignGap d k := by
  have below : d % 2 ^ k < 2 ^ k := Nat.mod_lt _ (Nat.two_pow_pos k)
  have le : d % 2 ^ k ≤ d := Nat.mod_le _ _
  have next : d + (2 ^ k - d % 2 ^ k) = d - d % 2 ^ k + 2 ^ k := by omega
  have whole : 2 ^ k ∣ d - d % 2 ^ k + 2 ^ k := Nat.dvd_add (Nat.dvd_sub_mod d) (dvd_refl _)
  rw [← next] at whole
  rw [alignGap]
  refine Nat.dvd_of_mod_eq_zero ?_
  rw [Nat.add_mod_mod]
  exact Nat.mod_eq_zero_of_dvd whole

theorem add_alignGap_le {d k : Nat} (lt : 2 ^ k < c.modulus) (inside : d < c.modulus) :
    d + alignGap d k ≤ c.modulus := by
  obtain ⟨m, hm⟩ := Config.two_pow_dvd_modulus lt
  obtain ⟨q, hq⟩ := dvd_add_alignGap d k
  have gap := alignGap_lt d k
  have less : 2 ^ k * q < 2 ^ k * (m + 1) := by
    rw [← hq, Nat.mul_add, Nat.mul_one, ← hm]
    omega
  rw [hq, hm]
  exact Nat.mul_le_mul_left _ (Nat.lt_succ_iff.mp (Nat.lt_of_mul_lt_mul_left less))

theorem alignPtr_eq {a k : Nat} (lt : 2 ^ k < c.modulus) (inside : dataPtr c a < c.modulus) :
    alignPtr c (2 ^ k) a = (dataPtr c a + alignGap (dataPtr c a) k) % c.modulus := by
  have pos : 0 < 2 ^ k := Nat.two_pow_pos k
  have mask : c.sub (2 ^ k) 1 = 2 ^ k - 1 := Config.sub_eq (by omega) lt
  simp only [alignPtr, mask, Nat.and_two_pow_sub_one_eq_mod]
  generalize dataPtr c a = d at inside ⊢
  have below : d % 2 ^ k < 2 ^ k := Nat.mod_lt _ pos
  have dle : d % 2 ^ k ≤ d := Nat.mod_le _ _
  by_cases zero : d % 2 ^ k = 0
  · simp only [zero, if_true, alignGap, Nat.sub_zero, Nat.mod_self, Nat.add_zero]
    exact (Nat.mod_eq_of_lt inside).symm
  · have gap : alignGap d k = 2 ^ k - d % 2 ^ k := Nat.mod_eq_of_lt (by omega)
    have next : d + alignGap d k = d - d % 2 ^ k + 2 ^ k := by omega
    rw [if_neg zero, Config.add, lor_two_pow_sub_one, next]

theorem addedSize_eq {a k : Nat} (lt : 2 ^ k < c.modulus) (inside : dataPtr c a < c.modulus) :
    addedSize c (2 ^ k) a = alignGap (dataPtr c a) k := by
  have gap := alignGap_lt (dataPtr c a) k
  rw [addedSize, alignPtr_eq lt inside]
  rcases Nat.lt_or_eq_of_le (add_alignGap_le lt inside) with small | full
  · rw [Nat.mod_eq_of_lt small, Config.sub_eq (by omega) small]
    omega
  · rw [full, Nat.mod_self, Config.sub, Nat.zero_add, Nat.mod_eq_of_lt (by omega)]
    omega

end Alignment

def heapAlignFound (c : Config) (h : Heap) (psegment stSize stAlign : Nat) : Option Nat × Heap :=
  let pcAlign := alignPtr c stAlign psegment
  let stAddedSize := addedSize c stAlign psegment
  if stAddedSize ≥ c.segmentBlockSizeAlign + heapSegMinSize then
    let split := heapSplitFront c h psegment stAddedSize
    let h := (heapTake c split.1 split.2 stSize).updataMaxUsed
    (some pcAlign, heapCrossbordMark c h split.2)
  else
    let h := heapTake c h psegment (c.add stSize stAddedSize)
    let h := if stAddedSize ≠ 0 then h.setMagic (segPtr c pcAlign) psegment else h
    (some pcAlign, heapCrossbordMark c h.updataMaxUsed psegment)

theorem Core.heapAllocateAlign_eq {h : Heap} {segs free : List Nat} (core : Core c g h segs free)
    (n stAlign : Nat) (ulLockErr : Bool) :
    heapAllocateAlign c h n stAlign ulLockErr =
      match if h.stFreeByteSize < requestSize c n ∨ ulLockErr = true then none else
        free.find? (fun s => c.add (requestSize c n) (addedSize c stAlign s) ≤ h.stByteSize s) with
      | none => (none, h)
      | some a => heapAlignFound c h a (requestSize c n) stAlign := by
  unfold heapAllocateAlign
  simp only
  rw [show c.roundUp (heapCrossbordSize c n) heapSegMinSize = requestSize c n from rfl]
  split
  next short => simp [short]
  next large =>
    cases ulLockErr with
    | true => simp
    | false =>
      simp only [large, Bool.false_eq_true, or_self, if_false]
      cases header : h.pringFreeSegment with
      | none =>
        have empty := core.ring.header_eq
        rw [header] at empty
        have nil : free = [] := List.head?_eq_none_iff.mp empty.symm
        rw [nil]
        rfl
      | some first =>
        have scan := core.ringScan_eq (fun s =>
          decide (c.add (requestSize c n) (addedSize c stAlign s) ≤ h.stByteSize s)) header
        rw [header] at scan
        simp only [scan] <;> rfl

def segmentGap (c : Config) (a k : Nat) : Nat := alignGap (a + c.segmentBlockSizeAlign) k

theorem segmentGap_aligned {h : Heap} {segs free : List Nat} (core : Core c g h segs free) {a : Nat}
    (mem : a ∈ segs) (k : Nat) : c.heapAlignment ∣ segmentGap c a k :=
  alignGap_dvd (Nat.dvd_add (core.aligned a mem) c.heapAlignment_dvd_segmentBlockSizeAlign)

theorem addedSize_segment {h : Heap} {segs free : List Nat} (core : Core c g h segs free) {a k : Nat}
    (mem : a ∈ segs) (lt : 2 ^ k < c.modulus) :
    addedSize c (2 ^ k) a = segmentGap c a k ∧
    alignPtr c (2 ^ k) a =
      (a + c.segmentBlockSizeAlign + segmentGap c a k) % c.modulus := by
  have data := core.dataPtr_eq mem
  have bound := core.bounds a mem
  rw [addedSize_eq lt (by omega), alignPtr_eq lt (by omega), data]
  exact ⟨rfl, rfl⟩

theorem heapAlignFound_spec {h : Heap} {s t free : List Nat} {a k : Nat} (stSize : Nat)
    (core : Core c g h (s ++ a :: t) free) (mem : a ∈ free) (lt : 2 ^ k < c.modulus)
    (fits : stSize + segmentGap c a k ≤ h.stByteSize a) (st_aligned : c.heapAlignment ∣ stSize)
    (room : c.markSize ≤ stSize) :
    ∃ h', heapAlignFound c h a stSize (2 ^ k) =
        (some (a + c.segmentBlockSizeAlign + segmentGap c a k), h') ∧
      ((segmentGap c a k < c.segmentBlockSizeAlign + heapSegMinSize ∧
          ∃ new free', Taken c g h s t free a (stSize + segmentGap c a k) h' new free' ∧
            ∀ n, n + c.markSize ≤ stSize → Holds c h' a
              ⟨a + c.segmentBlockSizeAlign + segmentGap c a k, n⟩) ∨
        (c.segmentBlockSizeAlign + heapSegMinSize ≤ segmentGap c a k ∧
          ∃ h₁ free₁, h₁ = (heapSplitFront c h a (segmentGap c a k)).1 ∧
            free₁.Perm ((a + segmentGap c a k) :: free) ∧
            Core c g h₁ (s ++ a :: (a + segmentGap c a k) :: t) free₁ ∧
            ∃ new free', Taken c g h₁ (s ++ [a]) t free₁ (a + segmentGap c a k) stSize h' new
                free' ∧
              ∀ n, n + c.markSize ≤ stSize → Holds c h' (a + segmentGap c a k)
                ⟨a + c.segmentBlockSizeAlign + segmentGap c a k, n⟩)) := by
  have amem := core.free_mem a mem
  have bound := core.bounds a amem
  have gap_aligned := segmentGap_aligned core amem k
  obtain ⟨gap, ptr⟩ := addedSize_segment core amem lt
  have ptr' := ptr.trans (Nat.mod_eq_of_lt (by omega))
  unfold heapAlignFound
  simp only [gap, ptr']
  generalize segmentGap c a k = added at fits gap_aligned ⊢
  split
  next wide =>
    -- the block starts a segment of its own behind a free front part
    obtain ⟨new_eq, _, size, _, free₁, perm, core₁, _⟩ :=
      heapSplitFront_spec core mem added (by omega) (by omega) gap_aligned
    have core₂ : Core c g (heapSplitFront c h a added).1 ((s ++ [a]) ++ (a + added) :: t) free₁ := by
      simpa using core₁
    obtain ⟨new, free', taken, holds⟩ := taken_of_take stSize 0 core₂
      (perm.mem_iff.mpr (by simp)) (by rw [size]; omega) st_aligned (Nat.dvd_zero _) room
    have place : a + added + c.segmentBlockSizeAlign + 0 = a + c.segmentBlockSizeAlign + added := by
      omega
    rw [place] at holds
    rw [new_eq]
    exact ⟨_, rfl, Or.inr ⟨wide, _, free₁, rfl, perm, core₁, new, free', taken, holds⟩⟩
  next narrow =>
    have st : c.add stSize added = stSize + added := Config.add_eq (by omega)
    have spot : segPtr c (a + c.segmentBlockSizeAlign + added) = a + added := by
      rw [segPtr, Config.sub_eq (by omega) (by omega)]
      omega
    rw [st, spot]
    obtain ⟨new, free', taken, holds⟩ := taken_of_take stSize added core mem fits st_aligned
      gap_aligned room
    exact ⟨_, rfl, Or.inl ⟨by omega, new, free', taken, holds⟩⟩

theorem granted_of_align {h h' : Heap} {s t free : List Nat} {a k stSize n : Nat}
    (core : Core c g h (s ++ a :: t) free) (mem : a ∈ free) (lt : 2 ^ k < c.modulus)
    (fits : stSize + segmentGap c a k ≤ h.stByteSize a) (st_aligned : c.heapAlignment ∣ stSize)
    (asked : n + c.markSize ≤ stSize) {p : Nat}
    (found : heapAlignFound c h a stSize (2 ^ k) = (some p, h')) :
    Granted c g h (s ++ a :: t) free h' ⟨p, n⟩ := by
  obtain ⟨h₂, value, shape⟩ := heapAlignFound_spec stSize core mem lt fits st_aligned (by omega)
  rw [found] at value
  obtain ⟨rfl, rfl⟩ : p = a + c.segmentBlockSizeAlign + segmentGap c a k ∧ h' = h₂ := by
    simpa using value
  rcases shape with ⟨_, new, free', taken, holds⟩ | ⟨wide, h₁, free₁, h₁_eq, perm, core₁, new, free',
    taken, holds⟩
  · exact taken.granted mem (holds n asked)
  · obtain ⟨_, fresh, _, _, _, _, _, keep₁⟩ := heapSplitFront_spec core mem (segmentGap c a k)
      (by omega) (by omega) (segmentGap_aligned core (core.free_mem a mem) k)
    rw [← h₁_eq] at keep₁
    have old : ∀ x ∈ s ++ a :: t, x ∈ free₁ → x ∈ free := by
      intro x hx hf
      rcases List.mem_cons.mp (perm.mem_iff.mp hf) with rfl | hf
      · exact absurd hx fresh
      · exact hf
    refine ⟨_, free', _, taken.core, ?_, by simp, taken.used, holds n asked, ?_⟩
    · intro sep
      obtain ⟨_, right, next, _⟩ := sep.free_neighbours mem
      have front : Separated g free (s ++ [a]) := by
        have whole : Separated g free ((s ++ [a]) ++ t) := by simpa using sep
        exact (List.isChain_append.mp whole).1
      refine separated_take (front.mono fun x hx => old x ?_) (right.mono fun x hx => old x ?_)
        (fun y hy => (next y hy).imp_right fun out hf => out (old y ?_ hf)) taken.used taken.short
        (fun x hx => (taken.others hx).2.mp)
      · simp only [List.mem_append, List.mem_cons, List.not_mem_nil, or_false] at hx ⊢
        tauto
      · simp [hx]
      · simp [List.mem_of_mem_head? hy]
    · intro u hu huf
      have hua : u ≠ a := fun e => huf (e ▸ mem)
      have around : u ∈ s ++ t := by
        simp only [List.mem_append, List.mem_cons] at hu ⊢
        tauto
      have around' : u ∈ (s ++ [a]) ++ t := by
        simp only [List.mem_append, List.mem_cons, List.not_mem_nil, or_false] at around ⊢
        tauto
      obtain ⟨apart, used⟩ := taken.others around'
      refine ⟨apart, ?_, fun e => huf (old u hu (used.mp e)),
        (keep₁ u around).trans (taken.keep u around')⟩
      simp only [List.mem_append, List.mem_cons, List.not_mem_nil, or_false] at around ⊢
      tauto

theorem Core.heapAllocateAlign_found {h h' : Heap} {segs free : List Nat} {n k p : Nat}
    {ulLockErr : Bool} (core : Core c g h segs free) (lt : 2 ^ k < c.modulus)
    (sum : ∀ a ∈ free, requestSize c n + segmentGap c a k < c.modulus)
    (given : heapAllocateAlign c h n (2 ^ k) ulLockErr = (some p, h')) :
    ∃ s t a, segs = s ++ a :: t ∧ a ∈ free ∧
      requestSize c n + segmentGap c a k ≤ h.stByteSize a ∧
      heapAlignFound c h a (requestSize c n) (2 ^ k) = (some p, h') := by
  rw [core.heapAllocateAlign_eq] at given
  split at given
  next => simp at given
  next a found =>
    split at found
    next => simp at found
    next =>
      have mem := List.mem_of_find?_eq_some found
      have amem := core.free_mem a mem
      have fits : requestSize c n + segmentGap c a k ≤ h.stByteSize a := by
        have test : c.add (requestSize c n) (addedSize c (2 ^ k) a) ≤ h.stByteSize a := by
          simpa using List.find?_some found
        rwa [(addedSize_segment core amem lt).1, Config.add_eq (sum a mem)] at test
      obtain ⟨s, t, rfl⟩ := List.append_of_mem amem
      exact ⟨s, t, a, rfl, mem, fits, given⟩

theorem heapAllocateAlign_spec {h : Heap} {segs free : List Nat} {n k : Nat}
    (core : Core c g h segs free) (noWrap : n + c.markSize + 15 < c.modulus) (lt : 2 ^ k < c.modulus)
    (sum : ∀ a ∈ free, requestSize c n + segmentGap c a k < c.modulus) (ulLockErr : Bool) :
    heapAllocateAlign c h n (2 ^ k) ulLockErr = (none, h) ∨
    ∃ p h', heapAllocateAlign c h n (2 ^ k) ulLockErr = (some p, h') ∧
      Granted c g h segs free h' ⟨p, n⟩ := by
  obtain ⟨asked, _⟩ := requestSize_spec noWrap
  cases given : heapAllocateAlign c h n (2 ^ k) ulLockErr with
  | mk r h' =>
    cases r with
    | none =>
      have same := given
      rw [core.heapAllocateAlign_eq] at same
      split at same
      next =>
        obtain ⟨-, rfl⟩ := Prod.mk.inj same
        exact Or.inl rfl
      next a _ =>
        rw [heapAlignFound] at same
        simp only at same
        split at same <;> simp at same
    | some p =>
      obtain ⟨s, t, a, rfl, mem, fits, value⟩ := core.heapAllocateAlign_found lt sum given
      exact Or.inr ⟨p, h', rfl, granted_of_align core mem lt fits (requestSize_aligned c n) asked
        value⟩

end SylixOS.HeapLib
