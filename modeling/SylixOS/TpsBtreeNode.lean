import SylixOS.TpsTrans

/-! B+ tree nodes of tpsFs on disk (`tpsfs_btree.c`): the serialised form,
its decoding, and which bytes and array elements a decoding touches. Integers
of the node are the unsigned values of their stored words. -/

namespace SylixOS.TpsBtree
open SylixOS.ByteBuffer SylixOS.TpsTrans Function

def magicBtrNode : Nat := 0xad48ea87
def nodeUnkown : Nat := 0
def nodeRoot : Nat := 1
def nodeLeaf : Nat := 2
def nodeNonLeaf : Nat := 3

structure BtrKv where
  blkKey : Nat
  blkStart : Nat
  blkCnt : Nat
  deriving DecidableEq, Repr

structure BtrNode where
  magic : Nat
  type : Nat
  entrys : Nat
  maxCnt : Nat
  level : Nat
  reserved1 : Nat
  generation : Nat
  reserved2 : Nat × Nat
  inumInode : Nat
  blkThis : Nat
  blkParent : Nat
  blkPrev : Nat
  blkNext : Nat
  kvArr : Nat → BtrKv

def sizeofNode : Nat := 88
def sizeofKv : Nat := 24
def sizeofIblk : Nat := 8

def maxNodeCnt (size type : Nat) : Nat :=
  (size - sizeofNode) / if type = nodeLeaf then sizeofKv else sizeofIblk * 2

/-- Elements of `ND_kvArr` that `__tpsFsAllocBtrNode` allocates. -/
def allocCnt (uiBlkSize : Nat) : Nat := (uiBlkSize - sizeofNode) / (sizeofIblk * 2)

def entrySize (type : Nat) : Nat := if type = nodeNonLeaf then 16 else 24

theorem entrySize_pos (type : Nat) : 0 < entrySize type := by
  rw [entrySize]
  split <;> omega

def headFields (n : BtrNode) : List (Nat × Nat) :=
  [(4, n.magic), (4, n.type), (4, n.entrys), (4, n.maxCnt), (4, n.level), (4, n.reserved1),
    (8, n.generation), (8, n.reserved2.1), (8, n.reserved2.2), (8, n.inumInode),
    (8, n.blkThis), (8, n.blkParent), (8, n.blkPrev), (8, n.blkNext)]

def kvFields (type : Nat) (kv : BtrKv) : List (Nat × Nat) :=
  if type = nodeNonLeaf then [(8, kv.blkKey), (8, kv.blkStart)]
  else [(8, kv.blkKey), (8, kv.blkStart), (8, kv.blkCnt)]

structure Serial where
  buf : Bytes
  offStart : Nat
  offEnd : Nat

def markItems (uiItemStart uiItemCnt i pos : Nat) (out : Serial) : Serial :=
  { out with
    offStart := if uiItemStart = i then pos else out.offStart
    offEnd := if u32 (uiItemStart + uiItemCnt) = i then pos else out.offEnd }

def serialLoop (n : BtrNode) (uiLen uiItemStart uiItemCnt : Nat) :
    Nat → Nat → Nat → Serial → Option Serial
  | 0, i, pos, out => some (markItems uiItemStart uiItemCnt i pos out)
  | m + 1, i, pos, out =>
    if uiLen < pos then none
    else
      let out := markItems uiItemStart uiItemCnt i pos out
      serialLoop n uiLen uiItemStart uiItemCnt m (i + 1) (pos + entrySize n.type)
        { out with buf := putFields out.buf pos (kvFields n.type (n.kvArr i)) }

/-- `__tpsSerialBtrNode` with both offsets 0 before; `none` is `LW_FALSE`. -/
def tpsSerialBtrNode (n : BtrNode) (buf : Bytes) (uiLen uiItemStart uiItemCnt : Nat) :
    Option Serial :=
  if n.magic ≠ magicBtrNode then none
  else serialLoop n uiLen uiItemStart uiItemCnt n.entrys 0 sizeofNode
    { buf := putFields buf 0 (headFields n), offStart := 0, offEnd := 0 }

def getHead (buf : Bytes) (n : BtrNode) : BtrNode :=
  { n with
    magic := getLE 4 buf 0, type := getLE 4 buf 4, entrys := getLE 4 buf 8
    maxCnt := getLE 4 buf 12, level := getLE 4 buf 16, reserved1 := getLE 4 buf 20
    generation := getLE 8 buf 24, reserved2 := (getLE 8 buf 32, getLE 8 buf 40)
    inumInode := getLE 8 buf 48, blkThis := getLE 8 buf 56, blkParent := getLE 8 buf 64
    blkPrev := getLE 8 buf 72, blkNext := getLE 8 buf 80 }

def getKv (type : Nat) (buf : Bytes) (pos : Nat) (kv : BtrKv) : BtrKv :=
  { blkKey := getLE 8 buf pos
    blkStart := getLE 8 buf (pos + 8)
    blkCnt := if type = nodeNonLeaf then kv.blkCnt else getLE 8 buf (pos + 16) }

structure Footprint where
  reads : List (Nat × Nat)
  stores : List Nat

def unserialLoop (type uiLen : Nat) (buf : Bytes) :
    Nat → Nat → Nat → (Nat → BtrKv) → Bool × (Nat → BtrKv) × Footprint
  | 0, _, _, arr => (true, arr, { reads := [], stores := [] })
  | m + 1, i, pos, arr =>
    if uiLen < pos then (false, arr, { reads := [], stores := [] })
    else
      let r := unserialLoop type uiLen buf m (i + 1) (pos + entrySize type)
        (update arr i (getKv type buf pos (arr i)))
      (r.1, r.2.1,
        { reads := (pos, entrySize type) :: r.2.2.reads, stores := i :: r.2.2.stores })

def tpsUnserialBtrNode (n : BtrNode) (buf : Bytes) (uiLen : Nat) : Bool × BtrNode × Footprint :=
  if getLE 4 buf 0 ≠ magicBtrNode then
    (false, { n with magic := getLE 4 buf 0 }, { reads := [(0, 4)], stores := [] })
  else
    let n := getHead buf n
    let r := unserialLoop n.type uiLen buf n.entrys 0 sizeofNode n.kvArr
    (r.1, { n with kvArr := r.2.1 },
      { reads := (0, sizeofNode) :: r.2.2.reads, stores := r.2.2.stores })

theorem unserialLoop_stores (type uiLen : Nat) (buf : Bytes) (m i pos : Nat) (arr : Nat → BtrKv) :
    ∀ x ∈ (unserialLoop type uiLen buf m i pos arr).2.2.stores, x < i + m := by
  induction m generalizing i pos arr with
  | zero => simp [unserialLoop]
  | succ m ih =>
    rw [unserialLoop]
    split
    · simp
    · intro x hx
      rcases List.mem_cons.mp hx with rfl | hx
      · omega
      · have hlt := ih (i + 1) _ _ x hx
        omega

theorem unserialLoop_reads (type uiLen : Nat) (buf : Bytes) (m i pos : Nat) (arr : Nat → BtrKv) :
    (∀ r ∈ (unserialLoop type uiLen buf m i pos arr).2.2.reads, r.1 + r.2 ≤ uiLen) ↔
      m = 0 ∨ uiLen < pos ∨ pos + entrySize type * m ≤ uiLen := by
  induction m generalizing i pos arr with
  | zero => simp [unserialLoop]
  | succ m ih =>
    have hpos := entrySize_pos type
    rw [unserialLoop]
    split
    · simp_all
    · rw [List.forall_mem_cons, ih, Nat.mul_add]
      rcases Nat.eq_zero_or_pos m with rfl | hm
      · omega
      · have hle : entrySize type * 1 ≤ entrySize type * m := Nat.mul_le_mul_left _ hm
        omega

structure DecodeSafe (uiBlkSize uiLen : Nat) (n : BtrNode) (buf : Bytes) : Prop where
  entrys : (tpsUnserialBtrNode n buf uiLen).1 = true →
    (tpsUnserialBtrNode n buf uiLen).2.1.entrys ≤ allocCnt uiBlkSize
  stores : ∀ i ∈ (tpsUnserialBtrNode n buf uiLen).2.2.stores, i < allocCnt uiBlkSize
  reads : ∀ r ∈ (tpsUnserialBtrNode n buf uiLen).2.2.reads, r.1 + r.2 ≤ uiLen

/-- The area has room for the magic number and, when that is right, for the header and as many
entries as the header counts. -/
def EntrysFit (uiLen : Nat) (buf : Bytes) : Prop :=
  if getLE 4 buf 0 = magicBtrNode then
    sizeofNode + entrySize (getLE 4 buf 4) * getLE 4 buf 8 ≤ uiLen
  else 4 ≤ uiLen

theorem le_allocCnt {type cnt uiLen uiBlkSize : Nat} (hlen : uiLen ≤ uiBlkSize)
    (hfit : sizeofNode + entrySize type * cnt ≤ uiLen) : cnt ≤ allocCnt uiBlkSize := by
  have hle : 16 * cnt ≤ entrySize type * cnt :=
    Nat.mul_le_mul_right _ (by rw [entrySize]; split <;> omega)
  rw [allocCnt, sizeofIblk, Nat.le_div_iff_mul_le (by omega)]
  omega

theorem decodeSafe_iff {uiBlkSize uiLen : Nat} (hlen : uiLen ≤ uiBlkSize) (n : BtrNode)
    (buf : Bytes) : DecodeSafe uiBlkSize uiLen n buf ↔ EntrysFit uiLen buf := by
  by_cases hmagic : getLE 4 buf 0 = magicBtrNode
  · have heq : tpsUnserialBtrNode n buf uiLen =
        (let r := unserialLoop (getLE 4 buf 4) uiLen buf (getLE 4 buf 8) 0 sizeofNode n.kvArr
        (r.1, { getHead buf n with kvArr := r.2.1 },
          { reads := (0, sizeofNode) :: r.2.2.reads, stores := r.2.2.stores })) := by
      rw [tpsUnserialBtrNode, if_neg (by simpa using hmagic)]
      rfl
    have hreads := unserialLoop_reads (getLE 4 buf 4) uiLen buf (getLE 4 buf 8) 0 sizeofNode
      n.kvArr
    have hstores := unserialLoop_stores (getLE 4 buf 4) uiLen buf (getLE 4 buf 8) 0 sizeofNode
      n.kvArr
    rw [EntrysFit, if_pos hmagic]
    constructor
    · intro hsafe
      have hall := hsafe.reads
      rw [heq] at hall
      simp only [List.forall_mem_cons, hreads, Nat.zero_add] at hall
      rcases hall.2 with hzero | hshort | hfit
      · rw [hzero, Nat.mul_zero]
        exact hall.1
      · omega
      · exact hfit
    · intro hfit
      have hcnt := le_allocCnt hlen hfit
      refine ⟨?_, ?_, ?_⟩
      · rw [heq]
        exact fun _ => hcnt
      · rw [heq]
        intro i hi
        have hlt := hstores i hi
        omega
      · rw [heq]
        simp only [List.forall_mem_cons, hreads, Nat.zero_add]
        exact ⟨by omega, Or.inr (Or.inr hfit)⟩
  · have heq : tpsUnserialBtrNode n buf uiLen = (false, { n with magic := getLE 4 buf 0 },
        { reads := [(0, 4)], stores := [] }) := by
      rw [tpsUnserialBtrNode, if_pos hmagic]
    rw [EntrysFit, if_neg hmagic]
    constructor
    · intro hsafe
      have hall := hsafe.reads
      rw [heq] at hall
      simpa using hall
    · intro hfour
      exact ⟨by rw [heq]; simp, by rw [heq]; simp, by rw [heq]; simpa using hfour⟩

structure BtrKv.Fits (kv : BtrKv) : Prop where
  blkKey : kv.blkKey < 2 ^ 64
  blkStart : kv.blkStart < 2 ^ 64
  blkCnt : kv.blkCnt < 2 ^ 64

structure BtrNode.Fits (n : BtrNode) : Prop where
  magic : n.magic < 2 ^ 32
  type : n.type < 2 ^ 32
  entrys : n.entrys < 2 ^ 32
  maxCnt : n.maxCnt < 2 ^ 32
  level : n.level < 2 ^ 32
  reserved1 : n.reserved1 < 2 ^ 32
  generation : n.generation < 2 ^ 64
  reserved2 : n.reserved2.1 < 2 ^ 64 ∧ n.reserved2.2 < 2 ^ 64
  inumInode : n.inumInode < 2 ^ 64
  blkThis : n.blkThis < 2 ^ 64
  blkParent : n.blkParent < 2 ^ 64
  blkPrev : n.blkPrev < 2 ^ 64
  blkNext : n.blkNext < 2 ^ 64
  kvArr : ∀ i < n.entrys, (n.kvArr i).Fits

def storedKv (type : Nat) (a kv : BtrKv) : BtrKv :=
  { a with blkCnt := if type = nodeNonLeaf then kv.blkCnt else a.blkCnt }

theorem fieldsLen_kvFields (type : Nat) (kv : BtrKv) :
    fieldsLen (kvFields type kv) = entrySize type := by
  rw [kvFields, entrySize]
  split <;> rfl

theorem getKv_congr {type pos pos' : Nat} {b c : Bytes} {kv : BtrKv}
    (h : ∀ i < entrySize type, b (pos + i) = c (pos' + i)) :
    getKv type b pos kv = getKv type c pos' kv := by
  have hfield : ∀ o, o + 8 ≤ entrySize type → getLE 8 b (pos + o) = getLE 8 c (pos' + o) := by
    intro o ho
    apply getLE_congr
    intro i hi
    rw [Nat.add_assoc, Nat.add_assoc]
    exact h (o + i) (by omega)
  have hkey := hfield 0
  have hstart := hfield 8
  have hcnt := hfield 16
  rw [entrySize] at hkey hstart hcnt
  rw [getKv, getKv]
  by_cases htype : type = nodeNonLeaf
  · rw [if_pos htype] at hkey hstart
    rw [if_pos htype, if_pos htype, hstart (by omega), ← Nat.add_zero pos, ← Nat.add_zero pos',
      hkey (by omega)]
  · rw [if_neg htype] at hkey hstart hcnt
    rw [if_neg htype, if_neg htype, hstart (by omega), hcnt (by omega), ← Nat.add_zero pos,
      ← Nat.add_zero pos', hkey (by omega)]

theorem getKv_putFields {type : Nat} {a : BtrKv} (ha : a.Fits) (b : Bytes) (pos : Nat)
    (kv : BtrKv) : getKv type (putFields b pos (kvFields type a)) pos kv = storedKv type a kv := by
  have hget := getFields_putFields b pos (kvFields type a)
  obtain ⟨hkey, hstart, hcnt⟩ := ha
  rw [getKv, storedKv, kvFields] at *
  by_cases htype : type = nodeNonLeaf
  · simp only [htype, if_true, List.map_cons, List.map_nil, getFields, List.cons.injEq,
      and_true] at hget ⊢
    obtain ⟨h1, h2⟩ := hget
    rw [h1, h2, Nat.mod_eq_of_lt (by omega), Nat.mod_eq_of_lt (by omega)]
  · simp only [htype, if_false, List.map_cons, List.map_nil, getFields, List.cons.injEq,
      and_true, Nat.add_assoc] at hget ⊢
    obtain ⟨h1, h2, h3⟩ := hget
    rw [h1, h2, h3, Nat.mod_eq_of_lt (by omega), Nat.mod_eq_of_lt (by omega),
      Nat.mod_eq_of_lt (by omega)]

theorem getHead_congr {b c : Bytes} (h : ∀ i < sizeofNode, b i = c i) (n : BtrNode) :
    getHead b n = getHead c n := by
  have hfield : ∀ w o, o + w ≤ sizeofNode → getLE w b o = getLE w c o :=
    fun w o ho => getLE_congr w fun i hi => h (o + i) (by omega)
  rw [sizeofNode] at hfield
  simp only [getHead, hfield 4 0 (by omega), hfield 4 4 (by omega), hfield 4 8 (by omega),
    hfield 4 12 (by omega), hfield 4 16 (by omega), hfield 4 20 (by omega),
    hfield 8 24 (by omega), hfield 8 32 (by omega), hfield 8 40 (by omega),
    hfield 8 48 (by omega), hfield 8 56 (by omega), hfield 8 64 (by omega),
    hfield 8 72 (by omega), hfield 8 80 (by omega)]

theorem getHead_putFields {n : BtrNode} (hn : n.Fits) (b : Bytes) (m : BtrNode) :
    getHead (putFields b 0 (headFields n)) m = { n with kvArr := m.kvArr } := by
  have hget := getFields_putFields b 0 (headFields n)
  have h1 := hn.magic
  have h2 := hn.type
  have h3 := hn.entrys
  have h4 := hn.maxCnt
  have h5 := hn.level
  have h6 := hn.reserved1
  have h7 := hn.generation
  obtain ⟨h8, h9⟩ := hn.reserved2
  have h10 := hn.inumInode
  have h11 := hn.blkThis
  have h12 := hn.blkParent
  have h13 := hn.blkPrev
  have h14 := hn.blkNext
  have hw : (256 : Nat) ^ 4 = 2 ^ 32 := by norm_num
  have hd : (256 : Nat) ^ 8 = 2 ^ 64 := by norm_num
  generalize hb : putFields b 0 (headFields n) = buf at hget
  simp only [headFields, List.map_cons, List.map_nil, getFields, List.cons.injEq, and_true,
    Nat.zero_add, Nat.reduceAdd, hw, hd, Nat.mod_eq_of_lt h1, Nat.mod_eq_of_lt h2,
    Nat.mod_eq_of_lt h3, Nat.mod_eq_of_lt h4, Nat.mod_eq_of_lt h5, Nat.mod_eq_of_lt h6,
    Nat.mod_eq_of_lt h7, Nat.mod_eq_of_lt h8, Nat.mod_eq_of_lt h9, Nat.mod_eq_of_lt h10,
    Nat.mod_eq_of_lt h11, Nat.mod_eq_of_lt h12, Nat.mod_eq_of_lt h13, Nat.mod_eq_of_lt h14]
    at hget
  obtain ⟨e1, e2, e3, e4, e5, e6, e7, e8, e9, e10, e11, e12, e13, e14⟩ := hget
  simp only [getHead, e1, e2, e3, e4, e5, e6, e7, e8, e9, e10, e11, e12, e13, e14]

def EntrysBegin (type uiLen m pos : Nat) : Prop :=
  m = 0 ∨ pos + entrySize type * (m - 1) ≤ uiLen

theorem entrysBegin_succ (type uiLen m pos : Nat) :
    EntrysBegin type uiLen (m + 1) pos ↔
      pos ≤ uiLen ∧ EntrysBegin type uiLen m (pos + entrySize type) := by
  rw [EntrysBegin, EntrysBegin]
  cases m with
  | zero => simp
  | succ m =>
    rw [Nat.add_sub_cancel, Nat.add_sub_cancel, Nat.mul_add]
    omega

theorem serialLoop_isSome (n : BtrNode) (uiLen uiItemStart uiItemCnt m i pos : Nat)
    (out : Serial) : (serialLoop n uiLen uiItemStart uiItemCnt m i pos out).isSome ↔
      EntrysBegin n.type uiLen m pos := by
  induction m generalizing i pos out with
  | zero => simp [serialLoop, EntrysBegin]
  | succ m ih =>
    rw [serialLoop, entrysBegin_succ]
    split
    · simp only [Option.isSome_none, Bool.false_eq_true, false_iff, not_and]
      omega
    · rw [ih]
      exact (and_iff_right (by omega)).symm

theorem serialLoop_buf {n : BtrNode} {uiLen uiItemStart uiItemCnt m i pos : Nat}
    {out out' : Serial}
    (h : serialLoop n uiLen uiItemStart uiItemCnt m i pos out = some out') :
    (∀ p, p < pos ∨ pos + entrySize n.type * m ≤ p → out'.buf p = out.buf p) ∧
      ∀ j < m, (n.kvArr (i + j)).Fits → ∀ kv,
        getKv n.type out'.buf (pos + entrySize n.type * j) kv =
          storedKv n.type (n.kvArr (i + j)) kv := by
  induction m generalizing i pos out with
  | zero =>
    obtain rfl := Option.some.inj h
    exact ⟨fun p _ => rfl, fun j hj => absurd hj (Nat.not_lt_zero j)⟩
  | succ m ih =>
    rw [serialLoop] at h
    split at h
    · cases h
    · obtain ⟨hframe, hget⟩ := ih h
      have hlen := fieldsLen_kvFields n.type (n.kvArr i)
      refine ⟨?_, ?_⟩
      · intro p hp
        rw [Nat.mul_add, Nat.mul_one] at hp
        rw [hframe p (by omega)]
        exact putFields_outside _ _ _ (by omega)
      · intro j hj hfits kv
        cases j with
        | zero =>
          rw [Nat.mul_zero, Nat.add_zero, Nat.add_zero]
          refine (getKv_congr ?_).trans (getKv_putFields hfits out.buf pos kv)
          intro q hq
          exact hframe _ (Or.inl (by omega))
        | succ j =>
          have hrest := hget j (by omega) (by rwa [show i + 1 + j = i + (j + 1) by omega]) kv
          rw [show i + 1 + j = i + (j + 1) by omega] at hrest
          rw [Nat.mul_add, Nat.mul_one, ← Nat.add_assoc, Nat.add_right_comm]
          exact hrest

theorem unserialLoop_ok (type uiLen : Nat) (buf : Bytes) (m i pos : Nat) (arr : Nat → BtrKv) :
    (unserialLoop type uiLen buf m i pos arr).1 = true ↔ EntrysBegin type uiLen m pos := by
  induction m generalizing i pos arr with
  | zero => simp [unserialLoop, EntrysBegin]
  | succ m ih =>
    rw [unserialLoop, entrysBegin_succ]
    split
    · simp only [Bool.false_eq_true, false_iff, not_and]
      omega
    · rw [ih]
      exact (and_iff_right (by omega)).symm

theorem unserialLoop_below (type uiLen : Nat) (buf : Bytes) (m i pos : Nat) (arr : Nat → BtrKv)
    {x : Nat} (hx : x < i) : (unserialLoop type uiLen buf m i pos arr).2.1 x = arr x := by
  induction m generalizing i pos arr with
  | zero => rfl
  | succ m ih =>
    rw [unserialLoop]
    split
    · rfl
    · refine (ih _ _ _ (by omega)).trans ?_
      rw [update_of_ne (by omega)]

theorem unserialLoop_arr {type uiLen : Nat} (buf : Bytes) {m : Nat} (i : Nat) {pos : Nat}
    (arr : Nat → BtrKv) (h : EntrysBegin type uiLen m pos) {j : Nat} (hj : j < m) :
    ∃ kv, (unserialLoop type uiLen buf m i pos arr).2.1 (i + j) =
      getKv type buf (pos + entrySize type * j) kv := by
  induction m generalizing i pos arr j with
  | zero => omega
  | succ m ih =>
    obtain ⟨hpos, hrest⟩ := (entrysBegin_succ type uiLen m pos).mp h
    rw [unserialLoop, if_neg (by omega)]
    cases j with
    | zero =>
      refine ⟨arr i, (unserialLoop_below _ _ _ _ _ _ _ (by omega)).trans ?_⟩
      rw [Nat.add_zero, update_self, Nat.mul_zero, Nat.add_zero]
    | succ j =>
      obtain ⟨kv, hkv⟩ := ih (i + 1) (update arr i (getKv type buf pos (arr i))) hrest
        (Nat.lt_of_succ_lt_succ hj)
      refine ⟨kv, ?_⟩
      rw [Nat.mul_add, Nat.mul_one, Nat.add_comm (entrySize type * j), ← Nat.add_assoc pos,
        show i + (j + 1) = i + 1 + j by omega]
      exact hkv

structure SameNode (n m : BtrNode) : Prop where
  head : { m with kvArr := n.kvArr } = n
  blkKey : ∀ i < n.entrys, (m.kvArr i).blkKey = (n.kvArr i).blkKey
  blkStart : ∀ i < n.entrys, (m.kvArr i).blkStart = (n.kvArr i).blkStart
  blkCnt : n.type ≠ nodeNonLeaf → ∀ i < n.entrys, (m.kvArr i).blkCnt = (n.kvArr i).blkCnt

def RoundTrip (uiLen : Nat) (n : BtrNode) : Prop :=
  ∀ buf uiItemStart uiItemCnt m, ∃ out,
    tpsSerialBtrNode n buf uiLen uiItemStart uiItemCnt = some out ∧
      (tpsUnserialBtrNode m out.buf uiLen).1 = true ∧
        SameNode n (tpsUnserialBtrNode m out.buf uiLen).2.1

theorem tpsSerialBtrNode_buf {n : BtrNode} {buf : Bytes} {uiLen uiItemStart uiItemCnt : Nat}
    {out : Serial} (hn : n.Fits)
    (h : tpsSerialBtrNode n buf uiLen uiItemStart uiItemCnt = some out) :
    n.magic = magicBtrNode ∧ EntrysBegin n.type uiLen n.entrys sizeofNode ∧
      (∀ m, getHead out.buf m = { n with kvArr := m.kvArr }) ∧
      ∀ j < n.entrys, ∀ kv, getKv n.type out.buf (sizeofNode + entrySize n.type * j) kv =
        storedKv n.type (n.kvArr j) kv := by
  rw [tpsSerialBtrNode] at h
  split at h
  · cases h
  · rename_i hmagic
    have hsome := serialLoop_isSome n uiLen uiItemStart uiItemCnt n.entrys 0 sizeofNode
      { buf := putFields buf 0 (headFields n), offStart := 0, offEnd := 0 }
    rw [h] at hsome
    obtain ⟨hframe, hget⟩ := serialLoop_buf h
    refine ⟨not_not.mp hmagic, hsome.mp rfl, ?_, ?_⟩
    · intro m
      rw [← getHead_putFields hn buf m]
      exact getHead_congr (fun i hi => hframe i (Or.inl hi)) m
    · intro j hj kv
      have hkv := hget j hj (by rw [Nat.zero_add]; exact hn.kvArr j hj) kv
      rwa [Nat.zero_add] at hkv

theorem roundTrip_iff_begin {n : BtrNode} (hn : n.Fits) (uiLen : Nat) : RoundTrip uiLen n ↔
    n.magic = magicBtrNode ∧ EntrysBegin n.type uiLen n.entrys sizeofNode := by
  constructor
  · intro h
    obtain ⟨out, hout, -⟩ := h (fun _ => 0) 0 0 n
    obtain ⟨hmagic, hbegin, -⟩ := tpsSerialBtrNode_buf hn hout
    exact ⟨hmagic, hbegin⟩
  · rintro ⟨hmagic, hbegin⟩ buf uiItemStart uiItemCnt m
    obtain ⟨out, hout⟩ : ∃ out, tpsSerialBtrNode n buf uiLen uiItemStart uiItemCnt = some out := by
      rw [← Option.isSome_iff_exists, tpsSerialBtrNode, if_neg (by simpa using hmagic)]
      exact (serialLoop_isSome ..).mpr hbegin
    obtain ⟨-, -, hhead, hget⟩ := tpsSerialBtrNode_buf hn hout
    have hstored : getLE 4 out.buf 0 = n.magic := congrArg BtrNode.magic (hhead n)
    have hok := unserialLoop_ok n.type uiLen out.buf n.entrys 0 sizeofNode m.kvArr
    have harr := fun j (hj : j < n.entrys) => unserialLoop_arr out.buf 0 m.kvArr hbegin hj
    have hentry : ∀ j < n.entrys, ∃ kv,
        (unserialLoop n.type uiLen out.buf n.entrys 0 sizeofNode m.kvArr).2.1 j =
          storedKv n.type (n.kvArr j) kv := by
      intro j hj
      obtain ⟨kv, hkv⟩ := harr j hj
      rw [Nat.zero_add] at hkv
      exact ⟨kv, hkv.trans (hget j hj kv)⟩
    refine ⟨out, hout, ?_⟩
    rw [tpsUnserialBtrNode, if_neg (by rw [hstored]; simpa using hmagic), hhead m]
    refine ⟨hok.mpr hbegin, rfl, ?_, ?_, ?_⟩
    · intro j hj
      obtain ⟨kv, hkv⟩ := hentry j hj
      simp only [hkv, storedKv]
    · intro j hj
      obtain ⟨kv, hkv⟩ := hentry j hj
      simp only [hkv, storedKv]
    · intro htype j hj
      obtain ⟨kv, hkv⟩ := hentry j hj
      simp only [hkv, storedKv, if_neg htype]

theorem entrysBegin_iff {uiLen type cnt : Nat} (hmax : cnt ≤ maxNodeCnt uiLen type) :
    EntrysBegin type uiLen cnt sizeofNode ↔
      type = nodeLeaf ∨ type = nodeNonLeaf ∨ cnt = 0 ∨
        sizeofNode + sizeofKv * (cnt - 1) ≤ uiLen := by
  rw [maxNodeCnt, Nat.le_div_iff_mul_le (by split <;> decide)] at hmax
  rw [EntrysBegin, entrySize]
  by_cases hleaf : type = nodeLeaf
  · rw [if_pos hleaf, sizeofKv] at hmax
    subst hleaf
    rw [if_neg (by decide)]
    simp only [true_or, iff_true]
    rcases Nat.eq_zero_or_pos cnt with rfl | hpos
    · exact Or.inl rfl
    · exact Or.inr (by omega)
  · rw [if_neg hleaf, sizeofIblk] at hmax
    by_cases hinner : type = nodeNonLeaf
    · rw [if_pos hinner]
      simp only [hinner, true_or, or_true, iff_true]
      rcases Nat.eq_zero_or_pos cnt with rfl | hpos
      · exact Or.inl rfl
      · exact Or.inr (by omega)
    · rw [if_neg hinner, sizeofKv]
      simp only [hleaf, hinner, false_or]

/-- Decoding is safe exactly when what the header counts fits into the area; a node that is
stored is decoded again exactly when it is a leaf or an inner node, or its entries begin inside
the area. -/
theorem node_decode_iff {uiBlkSize uiLen : Nat} (hlen : uiLen ≤ uiBlkSize) (m : BtrNode)
    (buf : Bytes) {size : Nat} {n : BtrNode} (hn : n.Fits)
    (hmax : n.entrys ≤ maxNodeCnt size n.type) :
    (DecodeSafe uiBlkSize uiLen m buf ↔ EntrysFit uiLen buf) ∧
      (RoundTrip size n ↔ n.magic = magicBtrNode ∧
        (n.type = nodeLeaf ∨ n.type = nodeNonLeaf ∨ n.entrys = 0 ∨
          sizeofNode + sizeofKv * (n.entrys - 1) ≤ size)) :=
  ⟨decodeSafe_iff hlen m buf, by rw [roundTrip_iff_begin hn, entrysBegin_iff hmax]⟩

def smallLeaf : BtrNode :=
  { magic := magicBtrNode, type := nodeLeaf, entrys := 2, maxCnt := maxNodeCnt 2048 nodeLeaf
    level := 0, reserved1 := 0, generation := 1, reserved2 := (0, 0), inumInode := 12
    blkThis := 12, blkParent := 0, blkPrev := 0, blkNext := 0
    kvArr := fun i => { blkKey := 10 * i, blkStart := 100 + 50 * i, blkCnt := 10 } }

theorem smallLeaf_fits : smallLeaf.Fits := by
  refine ⟨by decide, by decide, by decide, by decide, by decide, by decide, by decide, by decide,
    by decide, by decide, by decide, by decide, by decide, ?_⟩
  intro i hi
  have htwo : i < 2 := hi
  refine ⟨?_, ?_, ?_⟩ <;> simp only [smallLeaf] <;> omega

theorem node_decode_iff_small :
    DecodeSafe 4096 2048 smallLeaf (putFields (fun _ => 0) 0 (headFields smallLeaf)) ∧
      RoundTrip 2048 smallLeaf := by
  have harea : 2048 ≤ 4096 := by decide
  have hmax : smallLeaf.entrys ≤ maxNodeCnt 2048 smallLeaf.type := by decide
  have hiff := node_decode_iff harea smallLeaf
    (putFields (fun _ => 0) 0 (headFields smallLeaf)) smallLeaf_fits hmax
  refine ⟨hiff.1.mpr ?_, hiff.2.mpr ⟨rfl, Or.inl rfl⟩⟩
  unfold EntrysFit
  decide +kernel

def overfullImage : Bytes :=
  putFields (fun _ => 0) 0 [(4, magicBtrNode), (4, nodeNonLeaf), (4, 251)]

/-- Of 251 entries the last one begins inside the block and is stored behind the 250 elements
of the array. -/
theorem decode_stores_beyond :
    (tpsUnserialBtrNode smallLeaf overfullImage 4096).1 = true ∧
      250 ∈ (tpsUnserialBtrNode smallLeaf overfullImage 4096).2.2.stores ∧ allocCnt 4096 = 250 ∧
      (4088, 16) ∈ (tpsUnserialBtrNode smallLeaf overfullImage 4096).2.2.reads ∧
      ¬ DecodeSafe 4096 4096 smallLeaf overfullImage := by
  have hstored : 250 ∈ (tpsUnserialBtrNode smallLeaf overfullImage 4096).2.2.stores := by
    decide +kernel
  refine ⟨by decide +kernel, hstored, by decide, by decide +kernel, ?_⟩
  intro hsafe
  exact absurd (hsafe.stores 250 hstored) (by decide)

end SylixOS.TpsBtree
