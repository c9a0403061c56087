import SylixOS.TpsBtreeNode
import SylixOS.TpsTransOverlay

/-! Storing a B+ tree node (`__tpsFsBtrPutNode`): the byte ranges that are
written, the bytes of the node area afterwards, and when the ranges stay
inside that area. -/

namespace SylixOS.TpsBtree
open SylixOS.ByteBuffer SylixOS.SectorDevice SylixOS.TpsTrans

variable {G : Geom}

def inodeDataStart : Nat := 2048

def nodeArea (G : Geom) (inum blkPtr : Nat) : Nat × Nat :=
  if blkPtr = inum then (inodeDataStart, 2 ^ G.blkShift - inodeDataStart) else (0, 2 ^ G.blkShift)

def sectorFloor (G : Geom) (uiOffStart : Nat) : Nat :=
  if uiOffStart % G.sectorSize ≠ 0 then (uiOffStart >>> G.sectorShift) <<< G.sectorShift
  else uiOffStart

def sectorCeil (G : Geom) (uiLen uiOffEnd : Nat) : Nat :=
  if uiOffEnd % G.sectorSize ≠ 0 then
    u32 ((uiOffEnd >>> G.sectorShift) <<< G.sectorShift + min G.sectorSize uiLen)
  else uiOffEnd

def bodyStart (G : Geom) (bWriteHead : Bool) (offStart : Nat) : Nat :=
  if bWriteHead ∧ sectorFloor G offStart ≤ G.sectorSize then 0 else sectorFloor G offStart

def putWrites (G : Geom) (inum blkPtr : Nat) (bWriteHead : Bool) (ser : Serial) :
    List TransWrite :=
  let uiOff := (nodeArea G inum blkPtr).1
  let uiLen := (nodeArea G inum blkPtr).2
  let uiOffStart := sectorFloor G ser.offStart
  let uiOffEnd := sectorCeil G uiLen ser.offEnd
  let head : List TransWrite :=
    if bWriteHead ∧ ¬ uiOffStart ≤ G.sectorSize then
      [{ blk := blkPtr, off := uiOff, buff := ser.buf, len := min G.sectorSize uiLen }]
    else []
  let uiOffStart := bodyStart G bWriteHead ser.offStart
  let uiLen := u32OfInt ((uiOffEnd : Int) - uiOffStart)
  head ++
    if 0 < uiLen then
      [{ blk := blkPtr, off := uiOff + uiOffStart, buff := advance ser.buf uiOffStart
         len := uiLen }]
    else []

inductive BtrResult where
  | errNone
  | errBtreeNodeMagic
  | errBufRead
  | errBtreeFreeNd
  | errBpWrite
  | errBpInit
  deriving DecidableEq, Repr

/-- `__tpsFsBtrPutNode` of the inode `inum` with the buffer `buf` of the inode; a failing write
is reported as `TPS_ERR_BUF_READ`. -/
def tpsFsBtrPutNode (G : Geom) (inum : Nat) (buf : Bytes) (n : BtrNode) (blkPtr : Nat)
    (bWriteHead : Bool) (uiItemStart uiItemCnt : Nat) (st : Vol G.sectorShift) :
    BtrResult × Vol G.sectorShift :=
  match tpsSerialBtrNode n buf (nodeArea G inum blkPtr).2 uiItemStart uiItemCnt with
  | none => (.errBtreeNodeMagic, st)
  | some ser =>
    match transWrites G (putWrites G inum blkPtr bWriteHead ser) st with
    | (.errNone, st) => (.errNone, st)
    | (_, st) => (.errBufRead, st)

def PieceOf (blk off : Nat) (src : Bytes) (w : TransWrite) : Prop :=
  w.blk = blk ∧ ∃ o, w.off = off + o ∧ w.buff = advance src o

def Covered (off i : Nat) (ws : List TransWrite) : Prop :=
  ∃ w ∈ ws, w.off ≤ off + i ∧ off + i < w.off + w.len

theorem overlay_cons (w : TransWrite) (ws : List TransWrite) (d : Bytes) :
    overlay G (w :: ws) d = overlay G ws (patch d (G.addr w.blk w.off) w.len w.buff) := rfl

theorem PieceOf.patch_eq {blk off : Nat} {src : Bytes} {w : TransWrite}
    (h : PieceOf blk off src w) (d : Bytes) (i : Nat) :
    patch d (G.addr w.blk w.off) w.len w.buff (G.addr blk off + i) =
      if w.off ≤ off + i ∧ off + i < w.off + w.len then src i else d (G.addr blk off + i) := by
  obtain ⟨hblk, o, hoff, hbuff⟩ := h
  rw [hblk, hbuff, hoff, Geom.addr, Geom.addr]
  split
  · rename_i hin
    rw [patch_inside _ _ (by omega) (by omega), advance]
    congr 1
    omega
  · rename_i hout
    exact patch_outside _ _ (by omega)

theorem overlay_pieces {blk off : Nat} {src : Bytes} {ws : List TransWrite}
    (h : ∀ w ∈ ws, PieceOf blk off src w) (d : Bytes) (i : Nat) :
    (Covered off i ws → overlay G ws d (G.addr blk off + i) = src i) ∧
      (¬ Covered off i ws → overlay G ws d (G.addr blk off + i) = d (G.addr blk off + i)) := by
  induction ws generalizing d with
  | nil => exact ⟨fun ⟨w, hw, _⟩ => absurd hw List.not_mem_nil, fun _ => rfl⟩
  | cons w ws ih =>
    obtain ⟨hin, hout⟩ := ih (fun w' hw' => h w' (List.mem_cons_of_mem _ hw'))
      (patch d (G.addr w.blk w.off) w.len w.buff)
    have hpatch := (h w List.mem_cons_self).patch_eq (G := G) d i
    rw [overlay_cons]
    by_cases hlater : Covered off i ws
    · refine ⟨fun _ => hin hlater, fun hnot => ?_⟩
      obtain ⟨w', hw', hbyte⟩ := hlater
      exact absurd ⟨w', List.mem_cons_of_mem _ hw', hbyte⟩ hnot
    · rw [hout hlater, hpatch]
      constructor
      · rintro ⟨w', hw', hbyte⟩
        rcases List.mem_cons.mp hw' with rfl | hw'
        · rw [if_pos hbyte]
        · exact absurd ⟨w', hw', hbyte⟩ hlater
      · intro hnot
        rw [if_neg fun hbyte => hnot ⟨w, List.mem_cons_self, hbyte⟩]

theorem overlay_apart {ws : List TransWrite} {p : Nat}
    (h : ∀ w ∈ ws, p < G.addr w.blk w.off ∨ G.addr w.blk w.off + w.len ≤ p) (d : Bytes) :
    overlay G ws d p = d p := by
  induction ws generalizing d with
  | nil => rfl
  | cons w ws ih =>
    rw [overlay_cons, ih fun w' hw' => h w' (List.mem_cons_of_mem _ hw')]
    exact patch_outside _ _ (h w List.mem_cons_self)

theorem serialLoop_offsets {n : BtrNode} {uiLen uiItemStart uiItemCnt m i pos : Nat}
    {out out' : Serial}
    (h : serialLoop n uiLen uiItemStart uiItemCnt m i pos out = some out') :
    (out'.offStart = if i ≤ uiItemStart ∧ uiItemStart ≤ i + m then
        pos + entrySize n.type * (uiItemStart - i) else out.offStart) ∧
      out'.offEnd = if i ≤ u32 (uiItemStart + uiItemCnt) ∧ u32 (uiItemStart + uiItemCnt) ≤ i + m
        then pos + entrySize n.type * (u32 (uiItemStart + uiItemCnt) - i) else out.offEnd := by
  induction m generalizing i pos out with
  | zero =>
    obtain rfl := Option.some.inj h
    simp only [markItems, Nat.add_zero]
    constructor
    · by_cases heq : uiItemStart = i
      · rw [if_pos heq, if_pos (by omega), heq, Nat.sub_self, Nat.mul_zero, Nat.add_zero]
      · rw [if_neg heq, if_neg (by omega)]
    · by_cases heq : u32 (uiItemStart + uiItemCnt) = i
      · rw [if_pos heq, if_pos (by omega), heq, Nat.sub_self, Nat.mul_zero, Nat.add_zero]
      · rw [if_neg heq, if_neg (by omega)]
  | succ m ih =>
    rw [serialLoop] at h
    split at h
    · cases h
    · obtain ⟨hs, he⟩ := ih h
      have hstep : ∀ x old : Nat, (if i + 1 ≤ x ∧ x ≤ i + 1 + m then
          pos + entrySize n.type + entrySize n.type * (x - (i + 1)) else
            if x = i then pos else old) =
          if i ≤ x ∧ x ≤ i + (m + 1) then pos + entrySize n.type * (x - i) else old := by
        intro x old
        by_cases heq : x = i
        · rw [if_neg (by omega), if_pos heq, if_pos (by omega), heq, Nat.sub_self, Nat.mul_zero,
            Nat.add_zero]
        · rw [if_neg heq]
          by_cases hin : i + 1 ≤ x ∧ x ≤ i + 1 + m
          · rw [if_pos hin, if_pos (by omega), show x - i = x - (i + 1) + 1 by omega, Nat.mul_add,
              Nat.mul_one]
            omega
          · rw [if_neg hin, if_neg (by omega)]
      refine ⟨hs.trans ?_, he.trans ?_⟩
      · exact hstep _ _
      · exact hstep _ _

theorem tpsSerialBtrNode_offsets {n : BtrNode} {buf : Bytes}
    {uiLen uiItemStart uiItemCnt : Nat} {ser : Serial} (hent : n.entrys < 2 ^ 32)
    (hrange : uiItemStart + uiItemCnt ≤ n.entrys)
    (h : tpsSerialBtrNode n buf uiLen uiItemStart uiItemCnt = some ser) :
    ser.offStart = sizeofNode + entrySize n.type * uiItemStart ∧
      ser.offEnd = sizeofNode + entrySize n.type * (uiItemStart + uiItemCnt) := by
  rw [tpsSerialBtrNode] at h
  split at h
  · cases h
  · obtain ⟨hs, he⟩ := serialLoop_offsets h
    rw [u32_of_lt (by omega)] at he
    rw [if_pos (by omega), Nat.sub_zero] at hs he
    exact ⟨hs, he⟩

/-- The sizes that `tpsFsMount` accepts, with the log on the device and its sectors counted in
31 bits. -/
structure Mounted (G : Geom) : Prop where
  laid : G.Laid
  sectorShift_ge : 9 ≤ G.sectorShift
  blkShift_ge : 12 ≤ G.blkShift
  blkShift_lt : G.blkShift < 32
  transDataCnt_le : G.transDataCnt ≤ 2 ^ 31

theorem sectorSize_ge (hG : Mounted G) : 512 ≤ G.sectorSize :=
  Nat.pow_le_pow_right (n := 2) (by omega) hG.sectorShift_ge

theorem blkSize_ge (hG : Mounted G) : 4096 ≤ 2 ^ G.blkShift :=
  Nat.pow_le_pow_right (n := 2) (by omega) hG.blkShift_ge

theorem blkSize_le (hG : Mounted G) : 2 ^ G.blkShift ≤ 2 ^ 31 :=
  Nat.pow_le_pow_right (n := 2) (by omega) (Nat.le_of_lt_succ hG.blkShift_lt)

theorem sectorFloor_eq (o : Nat) : sectorFloor G o = o / G.sectorSize * G.sectorSize := by
  rw [sectorFloor, Nat.shiftRight_eq_div_pow, Nat.shiftLeft_eq]
  split
  · rfl
  · rename_i hzero
    exact (Nat.div_mul_cancel (Nat.dvd_of_mod_eq_zero (not_not.mp hzero))).symm

/-- Where the area of a root is cut off inside a sector, an item range that ends in the cut
sector is rounded up to the end of the sector. -/
def OverrunsRoot (G : Geom) (inum blkPtr offEnd : Nat) : Prop :=
  blkPtr = inum ∧ 4096 ≤ G.sectorSize ∧ 2 * G.sectorSize ≤ 2 ^ G.blkShift ∧
    2 ^ G.blkShift < offEnd + G.sectorSize

theorem sectorCeil_eq {uiLen offEnd : Nat} (hle : offEnd ≤ uiLen) (hlen : uiLen ≤ 2 ^ 31) :
    sectorCeil G uiLen offEnd =
      if offEnd % G.sectorSize ≠ 0 then
        offEnd / G.sectorSize * G.sectorSize + min G.sectorSize uiLen
      else offEnd := by
  rw [sectorCeil, Nat.shiftRight_eq_div_pow, Nat.shiftLeft_eq]
  split
  · rename_i hcut
    have hsum := Nat.div_add_mod' offEnd G.sectorSize
    refine u32_of_lt ?_
    rw [Geom.sectorSize] at hcut hsum ⊢
    omega
  · rfl

theorem le_sectorCeil {uiLen offEnd : Nat} (hle : offEnd ≤ uiLen) (hlen : uiLen ≤ 2 ^ 31) :
    offEnd ≤ sectorCeil G uiLen offEnd := by
  have hsum := Nat.div_add_mod' offEnd G.sectorSize
  have hmod := Nat.mod_lt offEnd G.sectorSize_pos
  rw [sectorCeil_eq hle hlen]
  split <;> omega

theorem sectorCeil_le_of_dvd {uiLen offEnd : Nat} (hdvd : G.sectorSize ∣ uiLen)
    (hle : offEnd ≤ uiLen) (hlen : uiLen ≤ 2 ^ 31) : sectorCeil G uiLen offEnd ≤ uiLen := by
  obtain ⟨c, rfl⟩ := hdvd
  have hsum := Nat.div_add_mod' offEnd G.sectorSize
  rw [sectorCeil_eq hle hlen]
  split
  · have hlt : offEnd / G.sectorSize < c := by
      rw [Nat.div_lt_iff_lt_mul G.sectorSize_pos, Nat.mul_comm]
      rcases Nat.eq_or_lt_of_le hle with rfl | hlt
      · rw [Nat.mul_mod_right] at *
        contradiction
      · exact hlt
    have hmul : (offEnd / G.sectorSize + 1) * G.sectorSize ≤ c * G.sectorSize :=
      Nat.mul_le_mul_right _ hlt
    rw [Nat.add_mul, Nat.one_mul, Nat.mul_comm c] at hmul
    omega
  · exact hle

theorem sectorCeil_le_cut {c offEnd : Nat} (hS : 4096 ≤ G.sectorSize) (hc : 0 < c)
    (hle : offEnd ≤ G.sectorSize * c - inodeDataStart) (hlen : G.sectorSize * c ≤ 2 ^ 31) :
    sectorCeil G (G.sectorSize * c - inodeDataStart) offEnd ≤ G.sectorSize * c - inodeDataStart ↔
      ¬ (2 * G.sectorSize ≤ G.sectorSize * c ∧ G.sectorSize * c < offEnd + G.sectorSize) := by
  have hsum := Nat.div_add_mod' offEnd G.sectorSize
  have hmod := Nat.mod_lt offEnd G.sectorSize_pos
  rw [sectorCeil_eq hle (by omega)]
  rw [inodeDataStart] at hle ⊢
  obtain ⟨c, rfl⟩ := Nat.exists_eq_add_of_lt hc
  rw [Nat.zero_add, Nat.mul_add, Nat.mul_one] at *
  rcases Nat.eq_zero_or_pos c with rfl | hpos
  · rw [Nat.mul_zero, Nat.zero_add] at *
    rw [Nat.div_eq_of_lt (by omega), Nat.zero_mul, Nat.zero_add]
    constructor
    · intro _
      omega
    · intro _
      split <;> omega
  · have hone : G.sectorSize * 1 ≤ G.sectorSize * c := Nat.mul_le_mul_left _ hpos
    have hmin : min G.sectorSize (G.sectorSize * c + G.sectorSize - 2048) = G.sectorSize := by
      omega
    rw [hmin]
    -- the end lies in the cut sector or before it
    rcases Nat.lt_or_ge (offEnd / G.sectorSize) c with hlt | hge
    · have hmul : G.sectorSize * (offEnd / G.sectorSize + 1) ≤ G.sectorSize * c :=
        Nat.mul_le_mul_left _ hlt
      rw [Nat.mul_add, Nat.mul_one, Nat.mul_comm] at hmul
      constructor
      · intro _
        omega
      · intro _
        split <;> omega
    · have hmul : G.sectorSize * c ≤ G.sectorSize * (offEnd / G.sectorSize) :=
        Nat.mul_le_mul_left _ hge
      rw [Nat.mul_comm _ (offEnd / G.sectorSize)] at hmul
      split
      · omega
      · have hup : c < offEnd / G.sectorSize ∨ offEnd / G.sectorSize = c := by omega
        rcases hup with hup | rfl
        · have hmul' : G.sectorSize * (c + 1) ≤ G.sectorSize * (offEnd / G.sectorSize) :=
            Nat.mul_le_mul_left _ hup
          rw [Nat.mul_add, Nat.mul_one, Nat.mul_comm _ (offEnd / G.sectorSize)] at hmul'
          omega
        · rw [Nat.mul_comm] at hle ⊢
          omega

theorem sectorCeil_le_iff (hG : Mounted G) {inum blkPtr offEnd : Nat}
    (hle : offEnd ≤ (nodeArea G inum blkPtr).2) :
    sectorCeil G (nodeArea G inum blkPtr).2 offEnd ≤ (nodeArea G inum blkPtr).2 ↔
      ¬ OverrunsRoot G inum blkPtr offEnd := by
  have hblk := blkSize_ge hG
  have hmax := blkSize_le hG
  have hsec : G.sectorSize * G.secPerBlk = 2 ^ G.blkShift := by
    rw [Nat.mul_comm, Geom.secPerBlk_mul hG.laid]
  rw [nodeArea] at hle ⊢
  rw [OverrunsRoot]
  by_cases hroot : blkPtr = inum
  · simp only [hroot, if_true, true_and] at hle ⊢
    rcases Nat.lt_or_ge G.sectorSize 4096 with hfine | hS
    · have hdvd : G.sectorSize ∣ inodeDataStart := by
        refine Nat.pow_dvd_pow (n := 11) 2 ?_
        have hlt : 2 ^ G.sectorShift < 2 ^ 12 := hfine
        have := (Nat.pow_lt_pow_iff_right (a := 2) (by omega)).mp hlt
        omega
      refine iff_of_true (sectorCeil_le_of_dvd (Nat.dvd_sub ?_ hdvd) hle (by omega)) (by omega)
      exact Dvd.intro _ hsec
    · rw [← hsec] at hle ⊢
      rw [sectorCeil_le_cut hS G.secPerBlk_pos hle (by omega)]
      exact not_congr ⟨fun h => ⟨hS, h⟩, fun h => h.2⟩
  · simp only [hroot, if_false, false_and, not_false_eq_true, iff_true] at hle ⊢
    exact sectorCeil_le_of_dvd (Dvd.intro _ hsec) hle hmax

theorem u32OfInt_sub {a b : Nat} (hle : b ≤ a) (hlt : a < 2 ^ 32) :
    u32OfInt ((a : Int) - b) = a - b := by
  rw [u32OfInt]
  omega

theorem bodyStart_le (bWriteHead : Bool) (offStart : Nat) :
    bodyStart G bWriteHead offStart ≤ offStart := by
  rw [bodyStart, sectorFloor_eq]
  have hle := Nat.div_mul_le_self offStart G.sectorSize
  split <;> omega

section Ranges

variable {inum blkPtr : Nat} {ser : Serial}

structure InArea (G : Geom) (inum blkPtr : Nat) (ser : Serial) : Prop where
  head_le : sizeofNode ≤ ser.offStart
  start_le : ser.offStart ≤ ser.offEnd
  end_le : ser.offEnd ≤ (nodeArea G inum blkPtr).2

theorem nodeArea_len_le (hG : Mounted G) (inum blkPtr : Nat) :
    2048 ≤ (nodeArea G inum blkPtr).2 ∧ (nodeArea G inum blkPtr).2 ≤ 2 ^ 31 ∧
      (nodeArea G inum blkPtr).1 + (nodeArea G inum blkPtr).2 = 2 ^ G.blkShift := by
  have hblk := blkSize_ge hG
  have hmax := blkSize_le hG
  rw [nodeArea, inodeDataStart]
  split <;> dsimp only <;> omega

theorem sectorCeil_lt (hG : Mounted G) (h : InArea G inum blkPtr ser) :
    sectorCeil G (nodeArea G inum blkPtr).2 ser.offEnd < 2 ^ 32 := by
  rw [sectorCeil]
  split
  · exact Nat.mod_lt _ (Nat.two_pow_pos 32)
  · have hle := h.end_le
    have hmax := nodeArea_len_le hG inum blkPtr
    omega

theorem mem_putWrites (hG : Mounted G) (h : InArea G inum blkPtr ser) (bWriteHead : Bool)
    (w : TransWrite) : w ∈ putWrites G inum blkPtr bWriteHead ser ↔
      (bWriteHead = true ∧ G.sectorSize < sectorFloor G ser.offStart ∧
        w = { blk := blkPtr, off := (nodeArea G inum blkPtr).1, buff := ser.buf
              len := min G.sectorSize (nodeArea G inum blkPtr).2 }) ∨
      (bodyStart G bWriteHead ser.offStart <
          sectorCeil G (nodeArea G inum blkPtr).2 ser.offEnd ∧
        w = { blk := blkPtr
              off := (nodeArea G inum blkPtr).1 + bodyStart G bWriteHead ser.offStart
              buff := advance ser.buf (bodyStart G bWriteHead ser.offStart)
              len := sectorCeil G (nodeArea G inum blkPtr).2 ser.offEnd -
                bodyStart G bWriteHead ser.offStart }) := by
  have hlow := bodyStart_le (G := G) bWriteHead ser.offStart
  have hup := le_sectorCeil (G := G) h.end_le (nodeArea_len_le hG inum blkPtr).2.1
  have hlt := sectorCeil_lt hG h
  have hstart := h.start_le
  have hlen := u32OfInt_sub (a := sectorCeil G (nodeArea G inum blkPtr).2 ser.offEnd)
    (b := bodyStart G bWriteHead ser.offStart) (by omega) hlt
  simp only [putWrites, hlen, List.mem_append]
  refine or_congr ?_ ?_
  · split
    · rename_i hhead
      rw [List.mem_singleton]
      exact ⟨fun heq => ⟨hhead.1, not_le.mp hhead.2, heq⟩, fun hw => hw.2.2⟩
    · rename_i hhead
      refine iff_of_false List.not_mem_nil ?_
      rintro ⟨hb, hgt, -⟩
      exact hhead ⟨hb, not_le.mpr hgt⟩
  · split
    · rename_i hpos
      rw [List.mem_singleton]
      exact ⟨fun heq => ⟨by omega, heq⟩, fun hw => hw.2⟩
    · rename_i hzero
      refine iff_of_false List.not_mem_nil ?_
      rintro ⟨hb, -⟩
      omega

theorem putWrites_pieces (hG : Mounted G) (h : InArea G inum blkPtr ser) (bWriteHead : Bool)
    {w : TransWrite} (hw : w ∈ putWrites G inum blkPtr bWriteHead ser) :
    PieceOf blkPtr (nodeArea G inum blkPtr).1 ser.buf w := by
  rcases (mem_putWrites hG h bWriteHead w).mp hw with ⟨-, -, rfl⟩ | ⟨-, rfl⟩
  · refine ⟨rfl, 0, rfl, ?_⟩
    funext i
    rw [advance, Nat.zero_add]
  · exact ⟨rfl, _, rfl, rfl⟩

theorem putWrites_confined_iff (hG : Mounted G) (h : InArea G inum blkPtr ser)
    (bWriteHead : Bool) : (∀ w ∈ putWrites G inum blkPtr bWriteHead ser, w.blk = blkPtr ∧
        (nodeArea G inum blkPtr).1 ≤ w.off ∧
        w.off + w.len ≤ (nodeArea G inum blkPtr).1 + (nodeArea G inum blkPtr).2) ↔
      ¬ OverrunsRoot G inum blkPtr ser.offEnd := by
  have hlow := bodyStart_le (G := G) bWriteHead ser.offStart
  have hstart := h.start_le
  have hend := h.end_le
  rw [← sectorCeil_le_iff hG hend]
  constructor
  · intro hall
    by_contra hover
    have hbody := hall _ ((mem_putWrites hG h bWriteHead _).mpr (Or.inr ⟨by omega, rfl⟩))
    dsimp only at hbody
    omega
  · intro hle w hw
    rcases (mem_putWrites hG h bWriteHead w).mp hw with ⟨-, -, rfl⟩ | ⟨hlt, rfl⟩
    · refine ⟨rfl, le_refl _, ?_⟩
      dsimp only
      omega
    · refine ⟨rfl, Nat.le_add_right _ _, ?_⟩
      dsimp only
      omega

theorem covered_head (hG : Mounted G) (h : InArea G inum blkPtr ser) {i : Nat}
    (hi : i < sizeofNode) :
    Covered (nodeArea G inum blkPtr).1 i (putWrites G inum blkPtr true ser) := by
  have hsec := sectorSize_ge hG
  have hlen := nodeArea_len_le hG inum blkPtr
  have hup := le_sectorCeil (G := G) h.end_le hlen.2.1
  have hle := h.head_le
  have hstart := h.start_le
  rw [sizeofNode] at hi hle
  rcases Nat.lt_or_ge G.sectorSize (sectorFloor G ser.offStart) with hgt | hnear
  · refine ⟨_, (mem_putWrites hG h true _).mpr (Or.inl ⟨rfl, hgt, rfl⟩), ?_⟩
    dsimp only
    omega
  · have hzero : bodyStart G true ser.offStart = 0 := by
      rw [bodyStart, if_pos ⟨rfl, hnear⟩]
    refine ⟨_, (mem_putWrites hG h true _).mpr (Or.inr ⟨by omega, rfl⟩), ?_⟩
    dsimp only
    omega

theorem covered_items (hG : Mounted G) (h : InArea G inum blkPtr ser) (bWriteHead : Bool)
    {i : Nat} (hlo : ser.offStart ≤ i) (hhi : i < ser.offEnd) :
    Covered (nodeArea G inum blkPtr).1 i (putWrites G inum blkPtr bWriteHead ser) := by
  have hlow := bodyStart_le (G := G) bWriteHead ser.offStart
  have hup := le_sectorCeil (G := G) h.end_le (nodeArea_len_le hG inum blkPtr).2.1
  refine ⟨_, (mem_putWrites hG h bWriteHead _).mpr (Or.inr ⟨by omega, rfl⟩), ?_⟩
  dsimp only
  omega

end Ranges

def nodeBytes (G : Geom) (inum blkPtr : Nat) (st : Vol G.sectorShift) : Bytes := fun i =>
  flatten (view G st) (G.addr blkPtr (nodeArea G inum blkPtr).1 + i)

structure Placed (G : Geom) (inum blkPtr : Nat) (n : BtrNode) (uiItemStart uiItemCnt : Nat) :
    Prop where
  magic : n.magic = magicBtrNode
  type : n.type = nodeLeaf ∨ n.type = nodeNonLeaf
  fits : n.Fits
  entrys_le : n.entrys ≤ maxNodeCnt (nodeArea G inum blkPtr).2 n.type
  range_le : uiItemStart + uiItemCnt ≤ n.entrys

structure Stored (G : Geom) (inum blkPtr : Nat) (n : BtrNode) (ser : Bytes) (bWriteHead : Bool)
    (uiItemStart uiItemCnt : Nat) (st st' : Vol G.sectorShift) : Prop where
  head : bWriteHead = true → ∀ m, getHead (nodeBytes G inum blkPtr st') m =
    { n with kvArr := m.kvArr }
  items : ∀ j, uiItemStart ≤ j → j < uiItemStart + uiItemCnt → ∀ kv,
    getKv n.type (nodeBytes G inum blkPtr st') (sizeofNode + entrySize n.type * j) kv =
      storedKv n.type (n.kvArr j) kv
  bytes : ∀ i < (nodeArea G inum blkPtr).2,
    nodeBytes G inum blkPtr st' i = nodeBytes G inum blkPtr st i ∨
      nodeBytes G inum blkPtr st' i = ser i
  outside : ∀ p, p < G.addr blkPtr (nodeArea G inum blkPtr).1 ∨
    G.addr blkPtr (nodeArea G inum blkPtr).1 + (nodeArea G inum blkPtr).2 ≤ p →
      flatten (view G st') p = flatten (view G st) p

structure PutOk (G : Geom) (inum : Nat) (buf : Bytes) (n : BtrNode) (blkPtr : Nat)
    (bWriteHead : Bool) (uiItemStart uiItemCnt : Nat) (st : Vol G.sectorShift)
    (ser : Serial) : Prop where
  serial : tpsSerialBtrNode n buf (nodeArea G inum blkPtr).2 uiItemStart uiItemCnt = some ser
  confined : ∀ w ∈ putWrites G inum blkPtr bWriteHead ser, w.blk = blkPtr ∧
    (nodeArea G inum blkPtr).1 ≤ w.off ∧
    w.off + w.len ≤ (nodeArea G inum blkPtr).1 + (nodeArea G inum blkPtr).2
  stored : ∀ st', tpsFsBtrPutNode G inum buf n blkPtr bWriteHead uiItemStart uiItemCnt st =
      (.errNone, st') →
    Stored G inum blkPtr n ser.buf bWriteHead uiItemStart uiItemCnt st st'

section Put

variable {inum blkPtr uiItemStart uiItemCnt : Nat} {n : BtrNode} {buf : Bytes} {ser : Serial}

theorem Placed.area_le (h : Placed G inum blkPtr n uiItemStart uiItemCnt) (hG : Mounted G) :
    sizeofNode + entrySize n.type * n.entrys ≤ (nodeArea G inum blkPtr).2 := by
  have hlen := nodeArea_len_le hG inum blkPtr
  have hmax := h.entrys_le
  rw [maxNodeCnt, Nat.le_div_iff_mul_le (by split <;> decide), sizeofKv, sizeofIblk] at hmax
  rw [sizeofNode] at hmax ⊢
  rw [entrySize]
  rcases h.type with htype | htype
  · rw [if_pos htype] at hmax
    rw [if_neg (by rw [htype]; decide)]
    omega
  · rw [if_neg (by rw [htype]; decide)] at hmax
    rw [if_pos htype]
    omega

theorem Placed.serial (h : Placed G inum blkPtr n uiItemStart uiItemCnt) (hG : Mounted G)
    (buf : Bytes) : ∃ ser, tpsSerialBtrNode n buf (nodeArea G inum blkPtr).2 uiItemStart
      uiItemCnt = some ser := by
  have hall := h.area_le hG
  rw [← Option.isSome_iff_exists, tpsSerialBtrNode, if_neg (not_not.mpr h.magic),
    serialLoop_isSome, EntrysBegin]
  have hle : entrySize n.type * (n.entrys - 1) ≤ entrySize n.type * n.entrys :=
    Nat.mul_le_mul_left _ (Nat.sub_le _ _)
  omega

theorem Placed.offsets (h : Placed G inum blkPtr n uiItemStart uiItemCnt)
    (hser : tpsSerialBtrNode n buf (nodeArea G inum blkPtr).2 uiItemStart uiItemCnt = some ser) :
    ser.offStart = sizeofNode + entrySize n.type * uiItemStart ∧
      ser.offEnd = sizeofNode + entrySize n.type * (uiItemStart + uiItemCnt) :=
  tpsSerialBtrNode_offsets h.fits.entrys h.range_le hser

theorem Placed.inArea (h : Placed G inum blkPtr n uiItemStart uiItemCnt) (hG : Mounted G)
    (hser : tpsSerialBtrNode n buf (nodeArea G inum blkPtr).2 uiItemStart uiItemCnt = some ser) :
    InArea G inum blkPtr ser := by
  obtain ⟨hs, he⟩ := h.offsets hser
  have hall := h.area_le hG
  have hstart : entrySize n.type * uiItemStart ≤ entrySize n.type * (uiItemStart + uiItemCnt) :=
    Nat.mul_le_mul_left _ (Nat.le_add_right _ _)
  have hend : entrySize n.type * (uiItemStart + uiItemCnt) ≤ entrySize n.type * n.entrys :=
    Nat.mul_le_mul_left _ h.range_le
  exact ⟨by omega, by omega, by omega⟩

theorem tpsFsBtrPutNode_ok
    (hser : tpsSerialBtrNode n buf (nodeArea G inum blkPtr).2 uiItemStart uiItemCnt = some ser)
    {bWriteHead : Bool} {st st' : Vol G.sectorShift} :
    tpsFsBtrPutNode G inum buf n blkPtr bWriteHead uiItemStart uiItemCnt st = (.errNone, st') ↔
      transWrites G (putWrites G inum blkPtr bWriteHead ser) st = (.errNone, st') := by
  rw [tpsFsBtrPutNode, hser]
  dsimp only
  cases transWrites G (putWrites G inum blkPtr bWriteHead ser) st with
  | mk e st1 => cases e <;> simp

theorem stored_of_overlay (hG : Mounted G) (h : Placed G inum blkPtr n uiItemStart uiItemCnt)
    (hser : tpsSerialBtrNode n buf (nodeArea G inum blkPtr).2 uiItemStart uiItemCnt = some ser)
    {bWriteHead : Bool} (hconf : ∀ w ∈ putWrites G inum blkPtr bWriteHead ser, w.blk = blkPtr ∧
      (nodeArea G inum blkPtr).1 ≤ w.off ∧
      w.off + w.len ≤ (nodeArea G inum blkPtr).1 + (nodeArea G inum blkPtr).2)
    {st st' : Vol G.sectorShift} (hbytes : flatten (view G st') =
      overlay G (putWrites G inum blkPtr bWriteHead ser) (flatten (view G st))) :
    Stored G inum blkPtr n ser.buf bWriteHead uiItemStart uiItemCnt st st' := by
  have harea := h.inArea hG hser
  obtain ⟨hs, he⟩ := h.offsets hser
  obtain ⟨-, -, hhead, hkv⟩ := tpsSerialBtrNode_buf h.fits hser
  have hpiece := fun i => overlay_pieces (G := G)
    (fun w hw => putWrites_pieces hG harea bWriteHead (w := w) hw)
    (flatten (view G st)) i
  refine ⟨?_, ?_, ?_, ?_⟩
  · rintro rfl m
    rw [← hhead m]
    refine getHead_congr ?_ m
    intro i hi
    rw [nodeBytes, hbytes]
    exact (hpiece i).1 (covered_head hG harea hi)
  · intro j hlo hhi kv
    rw [← hkv j (Nat.lt_of_lt_of_le hhi h.range_le) kv]
    refine getKv_congr ?_
    intro i hi
    have hfrom : entrySize n.type * uiItemStart ≤ entrySize n.type * j :=
      Nat.mul_le_mul_left _ hlo
    have hto : entrySize n.type * (j + 1) ≤ entrySize n.type * (uiItemStart + uiItemCnt) :=
      Nat.mul_le_mul_left _ hhi
    rw [Nat.mul_add, Nat.mul_one] at hto
    rw [nodeBytes, hbytes]
    exact (hpiece _).1 (covered_items hG harea bWriteHead (by omega) (by omega))
  · intro i _
    rw [nodeBytes, nodeBytes, hbytes]
    by_cases hcov : Covered (nodeArea G inum blkPtr).1 i (putWrites G inum blkPtr bWriteHead ser)
    · exact Or.inr ((hpiece i).1 hcov)
    · exact Or.inl ((hpiece i).2 hcov)
  · intro p hp
    rw [hbytes]
    refine overlay_apart ?_ _
    intro w hw
    obtain ⟨hblk, hlo, hhi⟩ := hconf w hw
    rw [hblk]
    rw [Geom.addr] at hp ⊢
    omega

theorem runsLen_access_le (acc : Access) : runsLen (accessRuns acc) ≤ acc.secCnt + 2 := by
  simp only [accessRuns, runsLen_append]
  have hone : ∀ (p : Prop) [Decidable p] (s c : Nat),
      runsLen (if p then [(s, c)] else []) ≤ c := by
    intro p _ s c
    split
    · rw [runsLen, List.map_singleton, List.sum_singleton]
    · exact Nat.zero_le _
  have h1 := hone (acc.secOff ≠ 0) acc.secNum 1
  have h2 := hone (0 < acc.secCnt) acc.midSec acc.secCnt
  have h3 := hone (0 < acc.tailLen) (acc.midSec + acc.secCnt) 1
  omega

theorem loggedSecs_le (hG : Mounted G) {ws : List TransWrite}
    (h : ∀ w ∈ ws, w.Inside G ∧ w.len ≤ 2 ^ 31) :
    loggedSecs G ws ≤ ws.length * (2 ^ 22 + 2) := by
  induction ws with
  | nil => exact Nat.zero_le _
  | cons w ws ih =>
    obtain ⟨hin, hlen⟩ := h w List.mem_cons_self
    have hrest := ih fun w' hw' => h w' (List.mem_cons_of_mem _ hw')
    have hacc := access_spec hG.laid (Nat.lt_of_le_of_lt hin (homeLen_lt hG.laid))
    have hsum := hacc.len_eq
    have hrun := runsLen_access_le (access G w.blk w.off w.len)
    have hmul : (access G w.blk w.off w.len).secCnt * 512 ≤
        (access G w.blk w.off w.len).secCnt * G.sectorSize :=
      Nat.mul_le_mul_left _ (sectorSize_ge hG)
    rw [loggedSecs_cons, List.length_cons, Nat.add_mul, TransWrite.runs]
    omega

theorem length_putWrites (bWriteHead : Bool) :
    (putWrites G inum blkPtr bWriteHead ser).length ≤ 2 := by
  simp only [putWrites, List.length_append]
  split <;> split <;> simp

/-- A node lies inside its area after `__tpsFsBtrPutNode`, and is stored there, exactly when its
item range does not end in the cut sector of a root. -/
theorem node_put_iff (hG : Mounted G) (h : Placed G inum blkPtr n uiItemStart uiItemCnt)
    (hblk : (blkPtr + 1) * 2 ^ G.blkShift ≤ G.homeLen) {base : Nat → Sector G.sectorShift}
    {st : Vol G.sectorShift} (hopen : Open G base st) (buf : Bytes) (bWriteHead : Bool) :
    (∃ ser, PutOk G inum buf n blkPtr bWriteHead uiItemStart uiItemCnt st ser) ↔
      ¬ OverrunsRoot G inum blkPtr
        (sizeofNode + entrySize n.type * (uiItemStart + uiItemCnt)) := by
  obtain ⟨ser, hser⟩ := h.serial hG buf
  have harea := h.inArea hG hser
  have hconf := putWrites_confined_iff hG harea bWriteHead
  rw [(h.offsets hser).2] at hconf
  rw [← hconf]
  constructor
  · rintro ⟨ser', hok⟩
    obtain rfl := Option.some.inj (hser.symm.trans hok.serial)
    exact hok.confined
  · intro hall
    refine ⟨ser, hser, hall, ?_⟩
    intro st' hst'
    obtain ⟨-, hmax, hsum⟩ := nodeArea_len_le hG inum blkPtr
    have hin : ∀ w ∈ putWrites G inum blkPtr bWriteHead ser, w.Inside G ∧ w.len ≤ 2 ^ 31 := by
      intro w hw
      obtain ⟨hb, hlo, hhi⟩ := hall w hw
      rw [TransWrite.Inside, Geom.addr, hb]
      rw [Nat.add_mul, Nat.one_mul] at hblk
      omega
    have hlogged := loggedSecs_le hG hin
    have hcnt : (putWrites G inum blkPtr bWriteHead ser).length ≤ 2 := length_putWrites bWriteHead
    have htwo : (putWrites G inum blkPtr bWriteHead ser).length * (2 ^ 22 + 2) ≤
        2 * (2 ^ 22 + 2) := Nat.mul_le_mul_right _ hcnt
    have hlo := hopen.dataLo
    have hhi := hopen.dataHi
    have hdata := hG.transDataCnt_le
    rw [Geom.logEnd] at hhi
    have hwrote := (transWrites_spec hG.laid hopen (fun w hw => (hin w hw).1) (by omega)).2 st'
      ((tpsFsBtrPutNode_ok hser).mp hst')
    exact stored_of_overlay hG h hser hall hwrote.bytes

end Put

theorem smallGeom_mounted : Mounted smallGeom :=
  ⟨smallGeom_valid.laid, by decide, by decide, by decide, by decide⟩

/-- The first item of a leaf in the head block of inode 12, stored with the header. -/
theorem node_put_iff_small :
    ∃ ser, PutOk smallGeom 12 (fun _ => 0) smallLeaf 12 true 0 1 smallOpen ser := by
  have hplaced : Placed smallGeom 12 12 smallLeaf 0 1 :=
    ⟨rfl, Or.inl rfl, smallLeaf_fits, by decide, by decide⟩
  have hopen : Open smallGeom smallVol.dev.med.cur smallOpen :=
    smallVol_logOk.opens smallVol_opens
  refine (node_put_iff smallGeom_mounted hplaced (by decide) hopen (fun _ => 0) true).mpr ?_
  intro hover
  exact absurd hover.2.1 (by decide)

def wideGeom : Geom :=
  { sectorShift := 12, blkShift := 13, logStartBlk := 5000, logBlkCnt := 2000
    generation := 1, secCnt := 14000 }

def fullRoot : BtrNode :=
  { smallLeaf with entrys := 252, maxCnt := maxNodeCnt 6144 nodeLeaf }

/-- Its whole item range is rounded up to 8192 bytes behind `TPS_INODE_DATASTART`, which ends
2048 bytes inside the block that follows. -/
theorem put_overruns_root :
    fullRoot.entrys ≤ maxNodeCnt (nodeArea wideGeom 12 12).2 fullRoot.type ∧
      (tpsSerialBtrNode fullRoot (fun _ => 0) (nodeArea wideGeom 12 12).2 0 252).map
        (fun ser => (putWrites wideGeom 12 12 true ser).map fun w => (w.off, w.len)) =
          some [(2048, 8192)] ∧
      2 ^ wideGeom.blkShift = 8192 ∧
      ∀ st ser, ¬ PutOk wideGeom 12 (fun _ => 0) fullRoot 12 true 0 252 st ser := by
  have hwrites : (tpsSerialBtrNode fullRoot (fun _ => 0) (nodeArea wideGeom 12 12).2 0 252).map
      (fun ser => (putWrites wideGeom 12 12 true ser).map fun w => (w.off, w.len)) =
        some [(2048, 8192)] := by decide +kernel
  refine ⟨by decide, hwrites, by decide, ?_⟩
  intro st ser hok
  rw [hok.serial, Option.map_some, Option.some_inj] at hwrites
  have hmem : (2048, 8192) ∈ (putWrites wideGeom 12 12 true ser).map fun w => (w.off, w.len) := by
    rw [hwrites]
    exact List.mem_singleton_self _
  obtain ⟨w, hw, heq⟩ := List.mem_map.mp hmem
  obtain ⟨hoff, hlen⟩ := Prod.mk.inj heq
  have hend := (hok.confined w hw).2.2
  rw [hoff, hlen] at hend
  exact absurd hend (by decide)

end SylixOS.TpsBtree
