import Mathlib.Data.Nat.Bitwise
import SylixOS.SectorDevice

/-! The GUID partition table of `gptPartition.c` on a little-endian host. A table is saved
as five writes: the protective MBR, the header and its backup, the entries and their
backup. The loader takes the backup pair when the first pair fails its checksums. -/

namespace SylixOS.GptPartition
open SylixOS.ByteBuffer SylixOS.SectorDevice Function

def gptVersion : Nat := 0x00010000
def gptMaxEntries : Nat := 128
def gptMaxNamelen : Nat := 36
def gptMaxSecsize : Nat := 4096
def gptDataLba : Nat := 34
def gptHeadLba : Nat := 1
def gptHeadLbaCnt : Nat := 1
def gptEntLba : Nat := 2
def gptEntLbaCnt : Nat := 32
def gptPartTypeOff : Nat := 128

def headerSize : Nat := 92
def entrySize : Nat := 128

def hdrVersion : Nat := 8
def hdrCrc32 : Nat := 16
def hdrHeaderLba : Nat := 24
def hdrBackupLba : Nat := 32
def hdrLastLba : Nat := 48
def hdrEntriesLba : Nat := 72
def hdrEntriesCount : Nat := 80
def hdrEntriesCrc32 : Nat := 88

def crcReflect (iData iLen : Nat) : Nat :=
  (List.range iLen).foldl
    (fun iRef i => if iData.testBit i then iRef ||| 1 <<< (iLen - 1 - i) else iRef) 0

def crcBit (uiRegs : Nat) (iMsb : Bool) : Nat :=
  if uiRegs.testBit 31 != iMsb then (uiRegs <<< 1 % 2 ^ 32) ^^^ 0x04c11db7 else uiRegs <<< 1 % 2 ^ 32

def crcByte (uiRegs : Nat) (ucByte : UInt8) : Nat :=
  let iDataByte := crcReflect ucByte.toNat 8
  (List.range 8).foldl (fun regs j => crcBit regs ((iDataByte <<< j).testBit 7)) uiRegs

def crcRegs (pucBuffer : Bytes) (iLen : Nat) : Nat :=
  (List.range iLen).foldl (fun regs i => crcByte regs (pucBuffer i)) 0xffffffff

def gptCrc32 (pucBuffer : Bytes) (iLen : Nat) : Nat :=
  crcReflect (crcRegs pucBuffer iLen) 32 ^^^ 0xffffffff

structure GptTable where
  secSize : Nat
  mbr : Bytes
  block : Bytes
  entry : Bytes

variable (t : GptTable)

def GptTable.version : Nat := getLE 4 t.block hdrVersion
def GptTable.headerLba : Nat := getLE 8 t.block hdrHeaderLba
def GptTable.backupLba : Nat := getLE 8 t.block hdrBackupLba
def GptTable.lastLba : Nat := getLE 8 t.block hdrLastLba
def GptTable.entriesLba : Nat := getLE 8 t.block hdrEntriesLba
def GptTable.entriesCount : Nat := getLE 4 t.block hdrEntriesCount

def entFirstLba (entry : Bytes) (i : Nat) : Nat := getLE 8 entry (i * entrySize + 32)
def entLastLba (entry : Bytes) (i : Nat) : Nat := getLE 8 entry (i * entrySize + 40)

def gptInitMbr (ucMbr : Bytes) (lbaCnt : Nat) : Bytes :=
  putFields (putFields ucMbr 0x1be
    [(4, 0x00010000), (4, 0xfffffeee), (4, 0x00000001), (4, lbaCnt)]) 0x1fe [(2, 0xaa55)]

def zeros : Bytes := fun _ => 0

/-- `API_GptCreateAndInitWithLba`, with the volume identifier `uuid` that `uuidgen` returns. With
`secCnt` zero the table is only allocated. -/
def gptCreateAndInitWithLba (secSize secCnt firstLba uuid : Nat) : Option GptTable :=
  if gptMaxSecsize < secSize then none
  else if secCnt = 0 then some ⟨secSize, zeros, zeros, zeros⟩
  else some
    { secSize := secSize
      mbr := gptInitMbr zeros secCnt
      -- "EFI PART"
      block := putFields zeros 0
        [(8, 0x5452415020494645), (4, gptVersion), (4, headerSize), (4, 0), (4, 0),
          (8, gptHeadLba), (8, secCnt - gptHeadLbaCnt),
          (8, if firstLba ≠ 0 then firstLba else gptDataLba),
          (8, secCnt + 2 ^ 64 - gptHeadLbaCnt - gptEntLbaCnt), (16, uuid),
          (8, 2), (4, 0), (4, entrySize), (4, 0)]
      entry := zeros }

def gptPartTypeEfi : Nat := 0x3bc93ec9a0004bba11d2f81fc12a7328
def gptPartTypeData : Nat := 0xc79926b7b668c0874433b9e5ebd0a0a2
def diskPartTypeEfi : UInt8 := 0x9d

def entryName (name : List Nat) (iIndex : Nat) : List Nat :=
  if name = [] then [0x53, 0x79, 0x6c, 0x69, 0x78, 0x4f, 0x53, 0x50, 0x61, 0x72, 0x74, iIndex]
  else name.take gptMaxNamelen

/-- `API_GptAddEntryWithName`, with the identifier `uuid` that `uuidgen` returns: whether it
succeeds, and the table. An entry whose type does not fit in the sector is written all the same,
but not counted. -/
def gptAddEntryWithName (lbaNum lbaCnt : Nat) (ucPartType : UInt8) (name : List Nat)
    (uuid : Nat) : Bool × GptTable :=
  if t.version = 0 then (false, t)
  else
    let iIndex := t.entriesCount
    let t := { t with
      entry := putFields t.entry (iIndex * entrySize)
        ([(16, if ucPartType = diskPartTypeEfi then gptPartTypeEfi else gptPartTypeData),
          (16, uuid), (8, lbaNum), (8, lbaNum + lbaCnt + 2 ^ 64 - 1), (8, 0)] ++
          (entryName name iIndex).map fun c => (2, c)) }
    if t.secSize ≤ gptPartTypeOff + iIndex then (false, t)
    else
      let block := update t.block (gptPartTypeOff + iIndex) ucPartType
      (true, { t with block := putLE 4 (iIndex + 1) block hdrEntriesCount })

def gptGetEntry (iIndex : Nat) : Option (Nat × Nat × UInt8) :=
  if t.version = 0 ∨ t.entriesCount ≤ iIndex then none
  else some (entFirstLba t.entry iIndex,
    (entLastLba t.entry iIndex + 2 ^ 64 - entFirstLba t.entry iIndex + 1) % 2 ^ 64,
    t.block (gptPartTypeOff + iIndex))

def GptTable.partitions : List (Option (Nat × Nat × UInt8)) :=
  (List.range t.entriesCount).map (gptGetEntry t)

def gptSerial : GptTable :=
  let block := putLE 4 gptMaxEntries t.block hdrEntriesCount
  let block := putLE 4 0 block hdrCrc32
  let block := putLE 4 (gptCrc32 t.entry (gptMaxEntries * entrySize)) block hdrEntriesCrc32
  { t with block := putLE 4 (gptCrc32 block headerSize) block hdrCrc32 }

def legalFrom (entry : Bytes) : (left i : Nat) → Nat
  | 0, i => i
  | left + 1, i => if entFirstLba entry i = 0 then i else legalFrom entry left (i + 1)

def legalCount (entry : Bytes) (n : Nat) : Nat := legalFrom entry n 0

def gptUnserial : GptTable :=
  let block := putLE 4 0 t.block hdrCrc32
  { t with block := putLE 4 (legalCount t.entry t.entriesCount) block hdrEntriesCount }

def crcLength (count : Nat) : Nat :=
  if count * entrySize % 2 ^ 32 < 2 ^ 31 then count * entrySize % 2 ^ 32 else 0

def gptVerify : Bool × GptTable :=
  let uiCrc := getLE 4 t.block hdrCrc32
  let t' := { t with block := putLE 4 0 t.block hdrCrc32 }
  (uiCrc = gptCrc32 t'.block headerSize ∧
    getLE 4 t'.block hdrEntriesCrc32 = gptCrc32 t'.entry (crcLength t'.entriesCount), t')

abbrev Disk := Nat → Sector 9

def pwrite (buf : Bytes) (cnt lba : Nat) : List (Nat × Sector 9) :=
  (List.range cnt).map fun i => (lba + i, sectorOf buf i)

def saveWrites : List (Nat × Sector 9) :=
  let s := gptSerial t
  pwrite s.mbr 1 0 ++ (pwrite s.block 1 t.headerLba ++ (pwrite s.block 1 t.backupLba ++
    (pwrite s.entry 32 t.entriesLba ++ pwrite s.entry 32 t.lastLba)))

def gptPartitionSave : Option (List (Nat × Sector 9) × GptTable) :=
  if t.version = 0 then none else some (saveWrites t, gptUnserial (gptSerial t))

def stores (d : Disk) (ws : List (Nat × Sector 9)) : Disk :=
  ws.foldl (fun d w => update d w.1 w.2) d

def blkRd (nSector : Nat) (d : Disk) (buf : Bytes) (sec cnt : Nat) : Option Bytes :=
  if sec + cnt ≤ nSector then some (patch buf 0 (cnt * 512) (flatten (advance d sec))) else none

def blkWrt (nSector : Nat) (d : Disk) (buf : Bytes) (sec cnt : Nat) : Option Disk :=
  if sec + cnt ≤ nSector then some (patch d sec cnt (sectorOf buf)) else none

def blkRestore (nSector : Nat) (d : Disk) : Option (Disk × GptTable) := do
  let block ← blkRd nSector d t.block (nSector - gptHeadLbaCnt) gptHeadLbaCnt
  let d ← blkWrt nSector d block gptHeadLba gptHeadLbaCnt
  let entry ← blkRd nSector d t.entry (nSector - gptEntLbaCnt - gptHeadLbaCnt) gptEntLbaCnt
  let d ← blkWrt nSector d entry gptEntLba gptEntLbaCnt
  let verify := gptVerify { t with block := block, entry := entry }
  if verify.1 then some (d, gptUnserial verify.2) else none

def gptPartitionBlkLoad (nSector : Nat) (d : Disk) : Option (Disk × GptTable) := do
  let mbr ← blkRd nSector d t.mbr 0 1
  if mbr 0x1c2 ≠ 0xee then none
  else
    let block ← blkRd nSector d t.block gptHeadLba gptHeadLbaCnt
    let entry ← blkRd nSector d t.entry gptEntLba gptEntLbaCnt
    let verify := gptVerify { t with mbr := mbr, block := block, entry := entry }
    if verify.1 then some (d, gptUnserial verify.2) else blkRestore verify.2 nSector d

def loadedList (nSector : Nat) (d : Disk) : Option (List (Option (Nat × Nat × UInt8))) :=
  (gptPartitionBlkLoad t nSector d).map fun r => r.2.partitions

/-- A table for a disk of `nSector` sectors, its partitions ended by the first entry that starts
at sector 0 or by the end of the array. -/
structure Legal (nSector : Nat) (t : GptTable) : Prop where
  mbr : t.mbr 0x1c2 = 0xee
  version : t.version ≠ 0
  headerLba : t.headerLba = gptHeadLba
  backupLba : t.backupLba = nSector - 1
  entriesLba : t.entriesLba = gptEntLba
  lastLba : t.lastLba = nSector - 33
  count : t.entriesCount = legalCount t.entry gptMaxEntries

theorem crcRegs_succ (b : Bytes) (n : Nat) : crcRegs b (n + 1) = crcByte (crcRegs b n) (b n) := by
  simp only [crcRegs, List.range_succ, List.foldl_append, List.foldl_cons, List.foldl_nil]

theorem crcRegs_congr {b c : Bytes} {n : Nat} (h : ∀ i < n, b i = c i) :
    crcRegs b n = crcRegs c n := by
  induction n with
  | zero => simp only [crcRegs, List.range_zero, List.foldl_nil]
  | succ n ih =>
    have hprev := ih (fun i hi => h i (by omega))
    rw [crcRegs_succ, crcRegs_succ, hprev, h n (by omega)]

theorem gptCrc32_congr {b c : Bytes} {n : Nat} (h : ∀ i < n, b i = c i) :
    gptCrc32 b n = gptCrc32 c n := by
  rw [gptCrc32, crcRegs_congr h, gptCrc32]

theorem testBit_reflect_fold (d iLen n : Nat) (hn : n ≤ iLen) (j : Nat) :
    ((List.range n).foldl
      (fun iRef i => if d.testBit i then iRef ||| 1 <<< (iLen - 1 - i) else iRef) 0).testBit j =
      (decide (iLen ≤ j + n ∧ j < iLen) && d.testBit (iLen - 1 - j)) := by
  induction n with
  | zero =>
    simp only [List.range_zero, List.foldl_nil, Nat.zero_testBit, Nat.add_zero]
    rw [decide_eq_false (by omega), Bool.false_and]
  | succ n ih =>
    have hprev := ih (by omega)
    rw [List.range_succ, List.foldl_append, List.foldl_cons, List.foldl_nil]
    by_cases hj : iLen - 1 - n = j
    · -- the bit this turn of the loop sets
      have hbit : iLen - 1 - j = n := by omega
      rw [decide_eq_false (by omega), Bool.false_and] at hprev
      rw [decide_eq_true (by omega), hbit, Bool.true_and]
      split
      · rename_i hd
        rw [Nat.testBit_or, hprev, Nat.one_shiftLeft, Nat.testBit_two_pow, hd]
        simp [hj]
      · rename_i hd
        rw [hprev, Bool.eq_false_iff.mpr hd]
    · have hiff : (iLen ≤ j + (n + 1) ∧ j < iLen) ↔ (iLen ≤ j + n ∧ j < iLen) := by omega
      rw [decide_eq_decide.mpr hiff, ← hprev]
      split
      · rw [Nat.testBit_or, Nat.one_shiftLeft, Nat.testBit_two_pow]
        simp [hj]
      · rfl

theorem testBit_crcReflect (d iLen j : Nat) :
    (crcReflect d iLen).testBit j = (decide (j < iLen) && d.testBit (iLen - 1 - j)) := by
  rw [crcReflect, testBit_reflect_fold d iLen iLen le_rfl j]
  congr 1
  exact decide_eq_decide.mpr (by omega)

theorem crcReflect_lt (d iLen : Nat) : crcReflect d iLen < 2 ^ iLen := by
  apply Nat.lt_pow_two_of_testBit
  intro j hj
  rw [testBit_crcReflect, decide_eq_false (by omega), Bool.false_and]

theorem gptCrc32_lt (b : Bytes) (n : Nat) : gptCrc32 b n < 256 ^ 4 := by
  have h : gptCrc32 b n < 2 ^ 32 := Nat.xor_lt_two_pow (crcReflect_lt _ 32) (by decide)
  exact h

theorem crcBit_lt (regs : Nat) (b : Bool) : crcBit regs b < 2 ^ 32 := by
  rw [crcBit]
  split
  · exact Nat.xor_lt_two_pow (Nat.mod_lt _ (by decide)) (by decide)
  · exact Nat.mod_lt _ (by decide)

theorem testBit_crcBit_zero (regs : Nat) (b : Bool) :
    (crcBit regs b).testBit 0 = (regs.testBit 31 != b) := by
  rw [crcBit]
  split
  · rename_i h
    rw [Nat.testBit_xor, Nat.testBit_mod_two_pow, Nat.testBit_shiftLeft, h]
    rfl
  · rename_i h
    rw [Nat.testBit_mod_two_pow, Nat.testBit_shiftLeft, Bool.eq_false_iff.mpr h]
    rfl

theorem testBit_crcBit_succ (regs : Nat) (b : Bool) {i : Nat} (hi : i < 31) :
    (crcBit regs b).testBit (i + 1) =
      (regs.testBit i ^^ ((regs.testBit 31 != b) && (0x04c11db7 : Nat).testBit (i + 1))) := by
  have hshift : (regs <<< 1 % 2 ^ 32).testBit (i + 1) = regs.testBit i := by
    rw [Nat.testBit_mod_two_pow, Nat.testBit_shiftLeft, decide_eq_true (by omega),
      decide_eq_true (by omega), Nat.add_sub_cancel, Bool.true_and, Bool.true_and]
  rw [crcBit]
  split
  · rename_i h
    rw [Nat.testBit_xor, hshift, h, Bool.true_and]
  · rename_i h
    rw [hshift, Bool.eq_false_iff.mpr h, Bool.false_and, Bool.xor_false]

theorem crcBit_inj {r r' : Nat} {b : Bool} (hr : r < 2 ^ 32) (hr' : r' < 2 ^ 32)
    (h : crcBit r b = crcBit r' b) : r = r' := by
  have htop : (r.testBit 31 != b) = (r'.testBit 31 != b) := by
    rw [← testBit_crcBit_zero, ← testBit_crcBit_zero, h]
  apply Nat.eq_of_testBit_eq
  intro i
  rcases Nat.lt_trichotomy i 31 with hi | hi | hi
  · have hbit := testBit_crcBit_succ r b hi
    rw [h, testBit_crcBit_succ r' b hi, htop] at hbit
    exact (Bool.xor_left_inj.mp hbit).symm
  · subst hi
    exact Bool.bne_left_inj.mp htop
  · have hpow : 2 ^ 32 ≤ 2 ^ i := Nat.pow_le_pow_right (by decide) hi
    rw [Nat.testBit_lt_two_pow (hr.trans_le hpow), Nat.testBit_lt_two_pow (hr'.trans_le hpow)]

theorem foldl_crcBit_lt {β : Type} (bit : β → Bool) (l : List β) {r : Nat} (hr : r < 2 ^ 32) :
    l.foldl (fun regs j => crcBit regs (bit j)) r < 2 ^ 32 := by
  induction l generalizing r with
  | nil => exact hr
  | cons x l ih => exact ih (crcBit_lt r (bit x))

theorem foldl_crcBit_inj {β : Type} (bit : β → Bool) (l : List β) {r r' : Nat}
    (hr : r < 2 ^ 32) (hr' : r' < 2 ^ 32)
    (h : l.foldl (fun regs j => crcBit regs (bit j)) r =
      l.foldl (fun regs j => crcBit regs (bit j)) r') : r = r' := by
  induction l generalizing r r' with
  | nil => exact h
  | cons x l ih => exact crcBit_inj hr hr' (ih (crcBit_lt r _) (crcBit_lt r' _) h)

theorem crcRegs_lt (b : Bytes) (n : Nat) : crcRegs b n < 2 ^ 32 := by
  induction n with
  | zero =>
    have hinit : (0xffffffff : Nat) < 2 ^ 32 := by decide
    exact hinit
  | succ n ih =>
    rw [crcRegs_succ]
    exact foldl_crcBit_lt _ _ ih

theorem crcRegs_ne {b c : Bytes} {m n : Nat} (h : crcRegs b m ≠ crcRegs c m) (hmn : m ≤ n)
    (htail : ∀ i, m ≤ i → b i = c i) : crcRegs b n ≠ crcRegs c n := by
  induction n, hmn using Nat.le_induction with
  | base => exact h
  | succ n hn ih =>
    intro heq
    rw [crcRegs_succ, crcRegs_succ, htail n hn] at heq
    exact ih (foldl_crcBit_inj _ _ (crcRegs_lt b n) (crcRegs_lt c n) heq)

theorem crcReflect_inj {d d' : Nat} (hd : d < 2 ^ 32) (hd' : d' < 2 ^ 32)
    (h : crcReflect d 32 = crcReflect d' 32) : d = d' := by
  apply Nat.eq_of_testBit_eq
  intro i
  by_cases hi : i < 32
  · have hbit := testBit_crcReflect d 32 (31 - i)
    rw [h, testBit_crcReflect, decide_eq_true (by omega), Bool.true_and, Bool.true_and,
      show 32 - 1 - (31 - i) = i by omega] at hbit
    exact hbit.symm
  · have hpow : 2 ^ 32 ≤ 2 ^ i := Nat.pow_le_pow_right (by decide) (by omega)
    rw [Nat.testBit_lt_two_pow (hd.trans_le hpow), Nat.testBit_lt_two_pow (hd'.trans_le hpow)]

theorem gptCrc32_ne {b c : Bytes} {m n : Nat} (h : crcRegs b m ≠ crcRegs c m) (hmn : m ≤ n)
    (htail : ∀ i, m ≤ i → b i = c i) : gptCrc32 b n ≠ gptCrc32 c n := by
  intro heq
  have href : crcReflect (crcRegs b n) 32 = crcReflect (crcRegs c n) 32 := by
    have hxor := congrArg (· ^^^ 0xffffffff) heq
    simpa only [gptCrc32, Nat.xor_xor_cancel_right] using hxor
  exact crcRegs_ne h hmn htail (crcReflect_inj (crcRegs_lt b n) (crcRegs_lt c n) href)

def serialBody : Bytes :=
  putLE 4 (gptCrc32 t.entry (gptMaxEntries * entrySize))
    (putLE 4 0 (putLE 4 gptMaxEntries t.block hdrEntriesCount) hdrCrc32) hdrEntriesCrc32

theorem gptSerial_block :
    (gptSerial t).block = putLE 4 (gptCrc32 (serialBody t) headerSize) (serialBody t) hdrCrc32 := rfl

theorem putLE_outside (w v : Nat) (b : Bytes) {pos i : Nat} (h : i < pos ∨ pos + w ≤ i) :
    putLE w v b pos i = b i := patch_outside b _ h

theorem getLE_putLE_outside (w v w' : Nat) (b : Bytes) {pos pos' : Nat}
    (h : pos' + w' ≤ pos ∨ pos + w ≤ pos') : getLE w' (putLE w v b pos) pos' = getLE w' b pos' := by
  apply getLE_congr
  intro i hi
  exact putLE_outside w v b (by omega)

theorem gptSerial_block_of_le {p : Nat} (h : headerSize ≤ p) : (gptSerial t).block p = t.block p := by
  simp only [headerSize] at h
  rw [gptSerial_block, serialBody]
  simp only [hdrCrc32, hdrEntriesCrc32, hdrEntriesCount]
  rw [putLE_outside _ _ _ (by omega), putLE_outside _ _ _ (by omega),
    putLE_outside _ _ _ (by omega), putLE_outside _ _ _ (by omega)]

section Verify

variable {t} {u : GptTable} (hu : ∀ p < 512, u.block p = (gptSerial t).block p)

include hu

theorem zeroed_eq {p : Nat} (hp : p < 512) : putLE 4 0 u.block hdrCrc32 p = serialBody t p := by
  simp only [hdrCrc32]
  by_cases hin : 16 ≤ p ∧ p < 16 + 4
  · rw [putLE, patch_inside _ _ hin.1 hin.2, serialBody]
    simp only [hdrCrc32, hdrEntriesCrc32]
    rw [putLE_outside _ _ _ (by omega), putLE, patch_inside _ _ hin.1 hin.2]
  · rw [putLE_outside _ _ _ (by omega), hu p hp, gptSerial_block]
    simp only [hdrCrc32]
    rw [putLE_outside _ _ _ (by omega)]

theorem zeroed_getLE {w pos : Nat} (hpos : pos + w ≤ 512) :
    getLE w (putLE 4 0 u.block hdrCrc32) pos = getLE w (serialBody t) pos := by
  apply getLE_congr
  intro i hi
  exact zeroed_eq hu (by omega)

theorem zeroed_entriesCount :
    getLE 4 (putLE 4 0 u.block hdrCrc32) hdrEntriesCount = gptMaxEntries := by
  rw [zeroed_getLE hu (by decide), serialBody, getLE_putLE_outside _ _ _ _ (by decide),
    getLE_putLE_outside _ _ _ _ (by decide), getLE_putLE]
  rfl

theorem gptVerify_fst : (gptVerify u).1 = decide
    (gptCrc32 u.entry (gptMaxEntries * entrySize) = gptCrc32 t.entry (gptMaxEntries * entrySize)) := by
  have hcrc : getLE 4 u.block hdrCrc32 = gptCrc32 (putLE 4 0 u.block hdrCrc32) headerSize := by
    have hread : getLE 4 u.block hdrCrc32 = getLE 4 (gptSerial t).block hdrCrc32 := by
      apply getLE_congr
      intro i hi
      exact hu _ (by simp only [hdrCrc32]; omega)
    rw [hread, gptSerial_block, getLE_putLE, Nat.mod_eq_of_lt (gptCrc32_lt _ _)]
    apply gptCrc32_congr
    intro p hp
    exact (zeroed_eq hu (by simp only [headerSize] at hp; omega)).symm
  have hentries : getLE 4 (putLE 4 0 u.block hdrCrc32) hdrEntriesCrc32 =
      gptCrc32 t.entry (gptMaxEntries * entrySize) := by
    rw [zeroed_getLE hu (by decide), serialBody, getLE_putLE, Nat.mod_eq_of_lt (gptCrc32_lt _ _)]
  have hlen : crcLength gptMaxEntries = gptMaxEntries * entrySize := by decide
  simp only [gptVerify, GptTable.entriesCount, zeroed_entriesCount hu, hcrc, hentries, hlen,
    true_and]
  rw [decide_eq_decide]
  exact eq_comm

end Verify

def entryList (block entry : Bytes) : List (Option (Nat × Nat × UInt8)) :=
  (List.range (legalCount entry gptMaxEntries)).map fun i =>
    some (entFirstLba entry i, (entLastLba entry i + 2 ^ 64 - entFirstLba entry i + 1) % 2 ^ 64,
      block (gptPartTypeOff + i))

theorem legalFrom_le (entry : Bytes) (left i : Nat) : legalFrom entry left i ≤ i + left := by
  induction left generalizing i with
  | zero => exact le_rfl
  | succ left ih =>
    rw [legalFrom]
    split
    · omega
    · have := ih (i + 1)
      omega

theorem legalCount_le (entry : Bytes) (n : Nat) : legalCount entry n ≤ n := by
  have h := legalFrom_le entry n 0
  rwa [Nat.zero_add] at h

theorem legalFrom_congr {e e' : Bytes} {left i : Nat}
    (h : ∀ j < i + left, entFirstLba e j = entFirstLba e' j) :
    legalFrom e left i = legalFrom e' left i := by
  induction left generalizing i with
  | zero => rfl
  | succ left ih =>
    rw [legalFrom, legalFrom, h i (by omega), ih (fun j hj => h j (by omega))]

theorem partitions_eq {t u : GptTable} (hv : u.version ≠ 0)
    (hcount : u.entriesCount = legalCount u.entry gptMaxEntries)
    (htypes : ∀ i < gptMaxEntries, u.block (gptPartTypeOff + i) = t.block (gptPartTypeOff + i)) :
    u.partitions = entryList t.block u.entry := by
  rw [GptTable.partitions, entryList, ← hcount]
  apply List.map_congr_left
  intro i hi
  rw [List.mem_range] at hi
  have hle : u.entriesCount ≤ gptMaxEntries := hcount ▸ legalCount_le _ _
  rw [gptGetEntry, if_neg (by simp only [not_or, not_le]; exact ⟨hv, hi⟩), htypes i (by omega)]

theorem Legal.partitions_eq {n : Nat} {t : GptTable} (h : Legal n t) :
    t.partitions = entryList t.block t.entry :=
  GptPartition.partitions_eq h.version h.count fun _ _ => rfl

theorem entField_congr {e e' : Bytes} (h : ∀ p < 16384, e p = e' p) {i off : Nat} (hi : i < 128)
    (hoff : off + 8 ≤ 128) : getLE 8 e (i * 128 + off) = getLE 8 e' (i * 128 + off) := by
  apply getLE_congr
  intro j hj
  exact h _ (by omega)

theorem entryList_congr {block e e' : Bytes} (h : ∀ p < 16384, e p = e' p) :
    entryList block e = entryList block e' := by
  have hfirst : ∀ i < 128, entFirstLba e i = entFirstLba e' i := fun i hi =>
    entField_congr h hi (by decide)
  have hlast : ∀ i < 128, entLastLba e i = entLastLba e' i := fun i hi =>
    entField_congr h hi (by decide)
  have hcount : legalCount e gptMaxEntries = legalCount e' gptMaxEntries := by
    apply legalFrom_congr
    intro j hj
    exact hfirst j (by simpa only [gptMaxEntries, Nat.zero_add] using hj)
  rw [entryList, entryList, ← hcount]
  apply List.map_congr_left
  intro i hi
  have hlt : i < 128 := (List.mem_range.mp hi).trans_le (legalCount_le e 128)
  rw [hfirst i hlt, hlast i hlt]

theorem gptUnserial_partitions {t u : GptTable} (hv : t.version ≠ 0)
    (hu : ∀ p < 512, u.block p = (gptSerial t).block p) :
    (gptUnserial (gptVerify u).2).partitions = entryList t.block u.entry := by
  have hzero : ∀ w v, getLE w (putLE 4 0 (putLE 4 0 u.block hdrCrc32) hdrCrc32) v =
      getLE w (putLE 4 0 u.block hdrCrc32) v := by
    intro w v
    apply getLE_congr
    intro i _
    simp only [putLE, patch]
    split <;> rfl
  have hcount : (gptVerify u).2.entriesCount = gptMaxEntries := zeroed_entriesCount hu
  refine partitions_eq (u := gptUnserial (gptVerify u).2) ?_ ?_ ?_
  · have hver : (gptUnserial (gptVerify u).2).version = t.version := by
      simp only [GptTable.version, gptUnserial, gptVerify]
      rw [getLE_putLE_outside _ _ _ _ (by decide), hzero, zeroed_getLE hu (by decide), serialBody,
        getLE_putLE_outside _ _ _ _ (by decide), getLE_putLE_outside _ _ _ _ (by decide),
        getLE_putLE_outside _ _ _ _ (by decide)]
    rw [hver]
    exact hv
  · have hle : legalCount u.entry 128 ≤ 128 := legalCount_le u.entry 128
    have hread : (gptUnserial (gptVerify u).2).entriesCount =
        legalCount u.entry (gptVerify u).2.entriesCount % 256 ^ 4 := getLE_putLE _ _ _ _
    rw [hread, hcount]
    apply Nat.mod_eq_of_lt
    exact lt_of_le_of_lt hle (by decide)
  · intro i hi
    simp only [gptMaxEntries] at hi
    simp only [gptUnserial, gptVerify, gptPartTypeOff, hdrEntriesCount, hdrCrc32]
    rw [putLE_outside _ _ _ (by omega), putLE_outside _ _ _ (by omega),
      putLE_outside _ _ _ (by omega), hu _ (by omega), gptSerial_block_of_le t
        (by simp only [headerSize]; omega)]

theorem stores_append (d : Disk) (ws ws' : List (Nat × Sector 9)) :
    stores d (ws ++ ws') = stores (stores d ws) ws' := List.foldl_append ..

theorem stores_pwrite (d : Disk) (buf : Bytes) (cnt lba : Nat) :
    stores d (pwrite buf cnt lba) = patch d lba cnt (sectorOf buf) := by
  induction cnt with
  | zero => rw [patch_zero]; rfl
  | succ cnt ih =>
    have hlast : pwrite buf (cnt + 1) lba = pwrite buf cnt lba ++ [(lba + cnt, sectorOf buf cnt)] := by
      simp only [pwrite, List.range_succ, List.map_append, List.map_cons, List.map_nil]
    rw [hlast, stores_append, ih]
    funext s
    simp only [stores, List.foldl_cons, List.foldl_nil, update_apply, patch]
    by_cases hs : s = lba + cnt
    · subst hs
      rw [if_pos rfl, if_pos (by omega), Nat.add_sub_cancel_left]
    · have hiff : (lba ≤ s ∧ s < lba + (cnt + 1)) ↔ (lba ≤ s ∧ s < lba + cnt) := by omega
      simp only [if_neg hs, hiff]

theorem take_pwrite (buf : Bytes) (cnt lba n : Nat) :
    (pwrite buf cnt lba).take n = pwrite buf (min n cnt) lba := by
  rw [pwrite, ← List.map_take, List.take_range]
  rfl

theorem length_pwrite (buf : Bytes) (cnt lba : Nat) : (pwrite buf cnt lba).length = cnt := by
  simp [pwrite]

theorem stores_take (d : Disk) (n : Nat) :
    stores d ((saveWrites t).take n) =
      patch (patch (patch (patch (patch d 0 (min n 1) (sectorOf t.mbr))
        t.headerLba (min (n - 1) 1) (sectorOf (gptSerial t).block))
        t.backupLba (min (n - 2) 1) (sectorOf (gptSerial t).block))
        t.entriesLba (min (n - 3) 32) (sectorOf t.entry))
        t.lastLba (min (n - 35) 32) (sectorOf t.entry) := by
  simp only [saveWrites, List.take_append, length_pwrite, take_pwrite, stores_append,
    stores_pwrite, Nat.sub_sub, Nat.reduceAdd]
  rfl

theorem blkRd_byte {d : Disk} {src buf : Bytes} {sec cnt p : Nat}
    (h : ∀ i < cnt, d (sec + i) = sectorOf src i) (hp : p < cnt * 512) :
    patch buf 0 (cnt * 512) (flatten (advance d sec)) p = src p := by
  have hdiv : p / 2 ^ 9 < cnt := (Nat.div_lt_iff_lt_mul (by decide)).mpr hp
  rw [patch_inside _ _ (Nat.zero_le p) (by omega), Nat.sub_zero]
  simp only [flatten, advance, sectorByte, h _ hdiv, sectorOf, Nat.div_add_mod']

theorem blkRd_of_le {n : Nat} (d : Disk) (buf : Bytes) {sec cnt : Nat} (h : sec + cnt ≤ n) :
    blkRd n d buf sec cnt = some (patch buf 0 (cnt * 512) (flatten (advance d sec))) := if_pos h

theorem blkWrt_of_le {n : Nat} (d : Disk) (buf : Bytes) {sec cnt : Nat} (h : sec + cnt ≤ n) :
    blkWrt n d buf sec cnt = some (patch d sec cnt (sectorOf buf)) := if_pos h

theorem verified_list {t u : GptTable} {e : Bytes} {d : Disk} (alt : Option (Disk × GptTable))
    (hv : t.version ≠ 0) (hblock : ∀ p < 512, u.block p = (gptSerial t).block p)
    (hentry : ∀ p < 16384, u.entry p = e p) :
    (if (gptVerify u).1 then some (d, gptUnserial (gptVerify u).2) else alt).map
        (fun r => r.2.partitions) =
      if gptCrc32 e 16384 = gptCrc32 t.entry 16384 then some (entryList t.block e)
      else alt.map fun r => r.2.partitions := by
  have hfst := gptVerify_fst hblock
  simp only [gptMaxEntries, entrySize, Nat.reduceMul, gptCrc32_congr hentry] at hfst
  by_cases hcrc : gptCrc32 e 16384 = gptCrc32 t.entry 16384
  · rw [if_pos hcrc, if_pos (by rw [hfst, decide_eq_true hcrc]), Option.map_some,
      gptUnserial_partitions hv hblock, entryList_congr hentry]
  · rw [if_neg hcrc, if_neg (by rw [hfst, decide_eq_false hcrc]; exact Bool.false_ne_true)]

theorem blkRestore_list {n : Nat} (hn : 67 ≤ n) {d : Disk} {ty : GptTable} {e : Bytes}
    (hv : ty.version ≠ 0) (hhead : d (n - 1) = sectorOf (gptSerial ty).block 0)
    (hent : ∀ i < 32, d (n - 33 + i) = sectorOf e i) (pgpt : GptTable) :
    (blkRestore pgpt n d).map (fun r => r.2.partitions) =
      if gptCrc32 e 16384 = gptCrc32 ty.entry 16384 then some (entryList ty.block e) else none := by
  have hblock : ∀ p < 512, patch pgpt.block 0 (1 * 512) (flatten (advance d (n - 1))) p =
      (gptSerial ty).block p := by
    intro p hp
    apply blkRd_byte _ (by omega)
    intro i hi
    obtain rfl : i = 0 := by omega
    exact hhead
  -- the header written back lies before the backup entries
  have hentry : ∀ b : Bytes, ∀ p < 16384, patch pgpt.entry 0 (32 * 512)
      (flatten (advance (patch d 1 1 (sectorOf b)) (n - 32 - 1))) p = e p := by
    intro b p hp
    apply blkRd_byte _ (by omega)
    intro i hi
    rw [patch_outside _ _ (by omega), show n - 32 - 1 + i = n - 33 + i by omega, hent i hi]
  simp only [blkRestore, gptHeadLbaCnt, gptHeadLba, gptEntLbaCnt, gptEntLba, Option.bind_eq_bind]
  rw [blkRd_of_le _ _ (by omega), Option.bind_some, blkWrt_of_le _ _ (by omega), Option.bind_some,
    blkRd_of_le _ _ (by omega), Option.bind_some, blkWrt_of_le _ _ (by omega), Option.bind_some]
  exact verified_list none hv hblock (hentry _)

theorem loadedList_eq {n : Nat} (hn : 67 ≤ n) {d : Disk} {tx ty mb : GptTable} {e e' : Bytes}
    (hmbr : mb.mbr 0x1c2 = 0xee) (hvx : tx.version ≠ 0) (hvy : ty.version ≠ 0)
    (hzero : d 0 = sectorOf mb.mbr 0)
    (hhead : d 1 = sectorOf (gptSerial tx).block 0) (hent : ∀ i < 32, d (2 + i) = sectorOf e i)
    (hbackup : d (n - 1) = sectorOf (gptSerial ty).block 0)
    (hlast : ∀ i < 32, d (n - 33 + i) = sectorOf e' i) (pgpt : GptTable) :
    loadedList pgpt n d =
      if gptCrc32 e 16384 = gptCrc32 tx.entry 16384 then some (entryList tx.block e)
      else if gptCrc32 e' 16384 = gptCrc32 ty.entry 16384 then some (entryList ty.block e')
      else none := by
  have hee : patch pgpt.mbr 0 (1 * 512) (flatten (advance d 0)) 0x1c2 = 0xee := by
    rw [← hmbr]
    apply blkRd_byte _ (by decide)
    intro i hi
    obtain rfl : i = 0 := by omega
    exact hzero
  have hblock : ∀ p < 512, patch pgpt.block 0 (1 * 512) (flatten (advance d 1)) p =
      (gptSerial tx).block p := by
    intro p hp
    apply blkRd_byte _ (by omega)
    intro i hi
    obtain rfl : i = 0 := by omega
    exact hhead
  have hentry : ∀ p < 16384, patch pgpt.entry 0 (32 * 512) (flatten (advance d 2)) p = e p := by
    intro p hp
    exact blkRd_byte hent (by omega)
  simp only [loadedList, gptPartitionBlkLoad, gptHeadLbaCnt, gptHeadLba, gptEntLbaCnt, gptEntLba,
    Option.bind_eq_bind]
  rw [blkRd_of_le _ _ (by omega), Option.bind_some, if_neg (by rw [hee]; exact fun h => h rfl),
    blkRd_of_le _ _ (by omega), Option.bind_some, blkRd_of_le _ _ (by omega), Option.bind_some]
  rw [← blkRestore_list hn hvy hbackup hlast]
  exact verified_list _ hvx hblock hentry

structure Part where
  lbaNum : Nat
  lbaCnt : Nat
  partType : UInt8
  name : List Nat
  uuid : Nat

def addEntries (t : GptTable) (parts : List Part) : GptTable :=
  parts.foldl (fun t p => (gptAddEntryWithName t p.lbaNum p.lbaCnt p.partType p.name p.uuid).2) t

structure Building (nSector : Nat) (t : GptTable) : Prop where
  secSize : t.secSize = 512
  mbr : t.mbr 0x1c2 = 0xee
  version : t.version = gptVersion
  headerLba : t.headerLba = gptHeadLba
  backupLba : t.backupLba = nSector - 1
  entriesLba : t.entriesLba = gptEntLba
  lastLba : t.lastLba = nSector - 33
  used : ∀ i < t.entriesCount, entFirstLba t.entry i ≠ 0
  free : ∀ i, t.entriesCount ≤ i → i < 128 → entFirstLba t.entry i = 0

theorem legalFrom_eq {entry : Bytes} {left i c : Nat} (hic : i ≤ c) (hc : c ≤ i + left)
    (hused : ∀ j < c, entFirstLba entry j ≠ 0) (hfree : c < i + left → entFirstLba entry c = 0) :
    legalFrom entry left i = c := by
  induction left generalizing i with
  | zero =>
    rw [legalFrom]
    omega
  | succ left ih =>
    rw [legalFrom]
    by_cases hi : i = c
    · subst hi
      rw [if_pos (hfree (by omega))]
    · rw [if_neg (hused i (by omega))]
      exact ih (by omega) (by omega) (fun hlt => hfree (by omega))

theorem Building.legal {n : Nat} {t : GptTable} (h : Building n t) (hc : t.entriesCount ≤ 128) :
    Legal n t where
  mbr := h.mbr
  version := by
    rw [h.version]
    decide
  headerLba := h.headerLba
  backupLba := h.backupLba
  entriesLba := h.entriesLba
  lastLba := h.lastLba
  count := by
    symm
    apply legalFrom_eq (Nat.zero_le _) (by simpa only [gptMaxEntries, Nat.zero_add] using hc) h.used
    intro hlt
    exact h.free _ le_rfl (by simpa only [gptMaxEntries, Nat.zero_add] using hlt)

theorem entFirstLba_zeros (i : Nat) : entFirstLba zeros i = 0 := by
  simp only [entFirstLba, getLE, zeros, UInt8.toNat_zero, Nat.mul_zero, Nat.add_zero]

theorem gptInitMbr_type (b : Bytes) (lbaCnt : Nat) : gptInitMbr b lbaCnt 0x1c2 = 0xee := by
  rw [gptInitMbr, putFields_outside _ _ _ (by decide), putFields, putFields,
    putFields_outside _ _ _ (Or.inl (by decide)), putLE, patch_inside _ _ (by decide) (by decide)]
  decide

structure Created (secSize secCnt firstLba : Nat) (t : GptTable) : Prop where
  secSize : t.secSize = secSize
  mbr : t.mbr = gptInitMbr zeros secCnt
  entry : t.entry = zeros
  version : t.version = gptVersion
  headerLba : t.headerLba = gptHeadLba
  backupLba : t.backupLba = (secCnt - gptHeadLbaCnt) % 2 ^ 64
  firstLba : getLE 8 t.block 40 = (if firstLba ≠ 0 then firstLba else gptDataLba) % 2 ^ 64
  lastLba : t.lastLba = (secCnt + 2 ^ 64 - gptHeadLbaCnt - gptEntLbaCnt) % 2 ^ 64
  entriesLba : t.entriesLba = gptEntLba
  count : t.entriesCount = 0

theorem created {secSize secCnt firstLba uuid : Nat} {t : GptTable} (hcnt : secCnt ≠ 0)
    (h : gptCreateAndInitWithLba secSize secCnt firstLba uuid = some t) :
    secSize ≤ gptMaxSecsize ∧ Created secSize secCnt firstLba t := by
  rw [gptCreateAndInitWithLba, if_neg hcnt] at h
  by_cases hlarge : gptMaxSecsize < secSize
  · rw [if_pos hlarge] at h
    exact nomatch h
  · rw [if_neg hlarge] at h
    obtain rfl := Option.some.inj h
    have hfields := getFields_putFields zeros 0
      [(8, 0x5452415020494645), (4, gptVersion), (4, headerSize), (4, 0), (4, 0),
        (8, gptHeadLba), (8, secCnt - gptHeadLbaCnt),
        (8, if firstLba ≠ 0 then firstLba else gptDataLba),
        (8, secCnt + 2 ^ 64 - gptHeadLbaCnt - gptEntLbaCnt), (16, uuid),
        (8, 2), (4, 0), (4, entrySize), (4, 0)]
    simp only [List.map_cons, List.map_nil, getFields, Nat.zero_add, Nat.reduceAdd,
      List.cons.injEq] at hfields
    obtain ⟨-, hver, -, -, -, hhead, hback, hfirst, hlast, -, hent, hcount, -, -, -⟩ := hfields
    exact ⟨not_lt.mp hlarge, rfl, rfl, rfl, hver, hhead, hback, hfirst, hlast, hent, hcount⟩

theorem building_create {secCnt firstLba uuid : Nat} {t : GptTable} (hlo : 33 ≤ secCnt)
    (hhi : secCnt < 2 ^ 64) (h : gptCreateAndInitWithLba 512 secCnt firstLba uuid = some t) :
    Building secCnt t ∧ t.entriesCount = 0 := by
  obtain ⟨-, hnew⟩ := created (by omega) h
  refine ⟨?_, hnew.count⟩
  exact {
    secSize := hnew.secSize
    mbr := by
      rw [hnew.mbr]
      exact gptInitMbr_type zeros secCnt
    version := hnew.version
    headerLba := hnew.headerLba
    backupLba := hnew.backupLba.trans (Nat.mod_eq_of_lt (by simp only [gptHeadLbaCnt]; omega))
    entriesLba := hnew.entriesLba
    lastLba := by
      rw [hnew.lastLba]
      simp only [gptHeadLbaCnt, gptEntLbaCnt]
      omega
    used := fun i hi => absurd hi (by rw [hnew.count]; omega)
    free := fun i _ _ => by
      rw [hnew.entry]
      exact entFirstLba_zeros i }

theorem fieldsLen_entry (a b c d : Nat) (names : List Nat) :
    fieldsLen ([(16, a), (16, b), (8, c), (8, d), (8, 0)] ++ names.map fun x => (2, x)) =
      56 + 2 * names.length := by
  induction names with
  | nil => rfl
  | cons x names ih =>
    simp only [fieldsLen, List.map_append, List.sum_append, List.map_cons, List.sum_cons,
      List.length_cons] at ih ⊢
    omega

theorem length_entryName (name : List Nat) (i : Nat) : (entryName name i).length ≤ 36 := by
  rw [entryName]
  split
  · simp only [List.length_cons, List.length_nil]
    omega
  · exact List.length_take_le _ _

theorem addEntries_one {t : GptTable} {p : Part} (hver : t.version ≠ 0)
    (hfits : ¬ t.secSize ≤ gptPartTypeOff + t.entriesCount) : ∃ fs, addEntries t [p] =
      { t with
        entry := putFields t.entry (t.entriesCount * entrySize) fs
        block := putLE 4 (t.entriesCount + 1)
          (update t.block (gptPartTypeOff + t.entriesCount) p.partType) hdrEntriesCount } ∧
      fieldsLen fs ≤ 128 ∧
      getLE 8 (putFields t.entry (t.entriesCount * entrySize) fs) (t.entriesCount * entrySize + 32) =
        p.lbaNum % 2 ^ 64 := by
  refine ⟨[(16, if p.partType = diskPartTypeEfi then gptPartTypeEfi else gptPartTypeData),
    (16, p.uuid), (8, p.lbaNum), (8, p.lbaNum + p.lbaCnt + 2 ^ 64 - 1), (8, 0)] ++
    (entryName p.name t.entriesCount).map fun c => (2, c), ?_, ?_, ?_⟩
  · rw [addEntries, List.foldl_cons, List.foldl_nil, gptAddEntryWithName, if_neg hver]
    dsimp only
    rw [if_neg hfits]
  · have hname := length_entryName p.name t.entriesCount
    rw [fieldsLen_entry]
    omega
  · have hfields := getFields_putFields t.entry (t.entriesCount * entrySize)
      ([(16, if p.partType = diskPartTypeEfi then gptPartTypeEfi else gptPartTypeData),
      (16, p.uuid), (8, p.lbaNum), (8, p.lbaNum + p.lbaCnt + 2 ^ 64 - 1), (8, 0)] ++
      (entryName p.name t.entriesCount).map fun c => (2, c))
    simp only [List.cons_append, List.nil_append, List.map_cons, getFields,
      List.cons.injEq] at hfields
    exact hfields.2.2.1

theorem Building.add {n : Nat} {t : GptTable} (h : Building n t) (hc : t.entriesCount < 128)
    {p : Part} (hp : p.lbaNum % 2 ^ 64 ≠ 0) :
    Building n (addEntries t [p]) ∧ (addEntries t [p]).entriesCount = t.entriesCount + 1 := by
  have hver : t.version ≠ 0 := by
    rw [h.version]
    decide
  have hfits : ¬ t.secSize ≤ gptPartTypeOff + t.entriesCount := by
    rw [h.secSize, gptPartTypeOff]
    omega
  obtain ⟨fs, hfs, hlen, hthird⟩ := addEntries_one hver hfits
  have hhead : ∀ w pos, pos + w ≤ 80 →
      getLE w (addEntries t [p]).block pos = getLE w t.block pos := by
    intro w pos hpos
    rw [hfs]
    apply getLE_congr
    intro i hi
    dsimp only
    rw [putLE_outside _ _ _ (by simp only [hdrEntriesCount]; omega),
      update_of_ne (by simp only [gptPartTypeOff]; omega)]
  have hother : ∀ i, i ≠ t.entriesCount →
      entFirstLba (addEntries t [p]).entry i = entFirstLba t.entry i := by
    intro i hi
    rw [hfs]
    apply getLE_congr
    intro j hj
    apply putFields_outside
    simp only [entrySize]
    omega
  have hthis : entFirstLba (addEntries t [p]).entry t.entriesCount ≠ 0 := by
    rw [hfs, entFirstLba, hthird]
    exact hp
  have hcount : (addEntries t [p]).entriesCount = t.entriesCount + 1 := by
    rw [GptTable.entriesCount, hfs, getLE_putLE]
    exact Nat.mod_eq_of_lt (by omega)
  refine ⟨?_, hcount⟩
  exact {
    secSize := by rw [hfs]; exact h.secSize
    mbr := by rw [hfs]; exact h.mbr
    version := (hhead 4 _ (by decide)).trans h.version
    headerLba := (hhead 8 _ (by decide)).trans h.headerLba
    backupLba := (hhead 8 _ (by decide)).trans h.backupLba
    entriesLba := (hhead 8 _ (by decide)).trans h.entriesLba
    lastLba := (hhead 8 _ (by decide)).trans h.lastLba
    used := by
      intro i hi
      rw [hcount] at hi
      by_cases heq : i = t.entriesCount
      · rw [heq]
        exact hthis
      · rw [hother i heq]
        exact h.used i (by omega)
    free := by
      intro i hi hlt
      rw [hcount] at hi
      rw [hother i (by omega)]
      exact h.free i (by omega) hlt }

theorem Building.addEntries {n : Nat} {t : GptTable} (h : Building n t) (parts : List Part)
    (hc : t.entriesCount + parts.length ≤ 128) (hparts : ∀ p ∈ parts, p.lbaNum % 2 ^ 64 ≠ 0) :
    Building n (addEntries t parts) ∧
      (GptPartition.addEntries t parts).entriesCount = t.entriesCount + parts.length := by
  induction parts generalizing t with
  | nil => exact ⟨h, rfl⟩
  | cons p parts ih =>
    rw [List.length_cons] at hc
    obtain ⟨hone, hcount⟩ := h.add (by omega) (hparts p List.mem_cons_self)
    obtain ⟨hall, hlen⟩ := ih hone (by omega) (fun q hq => hparts q (List.mem_cons_of_mem _ hq))
    refine ⟨hall, ?_⟩
    rw [List.length_cons]
    rw [hcount] at hlen
    exact hlen.trans (by omega)

theorem legal_addEntries {secCnt firstLba uuid : Nat} {t : GptTable} (hlo : 33 ≤ secCnt)
    (hhi : secCnt < 2 ^ 64) (h : gptCreateAndInitWithLba 512 secCnt firstLba uuid = some t)
    (parts : List Part) (hlen : parts.length ≤ 128)
    (hparts : ∀ p ∈ parts, p.lbaNum % 2 ^ 64 ≠ 0) : Legal secCnt (addEntries t parts) := by
  obtain ⟨hbuild, hzero⟩ := building_create hlo hhi h
  obtain ⟨hall, hcount⟩ := hbuild.addEntries parts (by omega) hparts
  exact hall.legal (by omega)

def mixed (told tnew : GptTable) (k : Nat) : Bytes := patch told.entry 0 (k * 512) tnew.entry

/-- Where the writes stop between the two header writes and the last entries, some header of the
new table stands over entries of the old one. They must have its checksum, and every mixture that
has it must hold one of the two lists. -/
def EntriesCollide (told tnew : GptTable) : Prop :=
  gptCrc32 told.entry 16384 = gptCrc32 tnew.entry 16384 ∧
    ∀ k ≤ 32, gptCrc32 (mixed told tnew k) 16384 = gptCrc32 tnew.entry 16384 →
      entryList tnew.block (mixed told tnew k) = told.partitions ∨
        entryList tnew.block (mixed told tnew k) = tnew.partitions

theorem mixed_zero (told tnew : GptTable) : mixed told tnew 0 = told.entry := by
  rw [mixed, Nat.zero_mul, patch_zero]

theorem mixed_full (told tnew : GptTable) {p : Nat} (hp : p < 16384) :
    mixed told tnew 32 p = tnew.entry p := by
  rw [mixed, patch_inside _ _ (Nat.zero_le p) (by omega), Nat.sub_zero]

theorem sectorOf_mixed (told tnew : GptTable) (k i : Nat) :
    (sectorOf (mixed told tnew k) i : Sector 9) =
      if i < k then sectorOf tnew.entry i else sectorOf told.entry i := by
  have h := sectorOf_patch_run (k := 9) told.entry 0 k tnew.entry i
  rw [Nat.zero_mul] at h
  rw [mixed, show (512 : Nat) = 2 ^ 9 by decide, h]
  simp only [patch, Nat.zero_le, true_and, Nat.zero_add, Nat.sub_zero]

theorem length_saveWrites : (saveWrites t).length = 67 := by
  simp only [saveWrites, List.length_append, length_pwrite]

section Cut

variable {nSector : Nat} (hn : 67 ≤ nSector) {told tnew : GptTable}
  (hold : Legal nSector told) (hnew : Legal nSector tnew) (d : Disk)

def cutDisk (told tnew : GptTable) (d : Disk) (n : Nat) : Disk :=
  stores (stores d (saveWrites told)) ((saveWrites tnew).take n)

include hold hnew

theorem cutDisk_eq (n : Nat) {s : Nat} : cutDisk told tnew d n s =
    patch (patch (patch (patch (patch
      (patch (patch (patch (patch (patch d 0 1 (sectorOf told.mbr))
        1 1 (sectorOf (gptSerial told).block)) (nSector - 1) 1 (sectorOf (gptSerial told).block))
        2 32 (sectorOf told.entry)) (nSector - 33) 32 (sectorOf told.entry))
      0 (min n 1) (sectorOf tnew.mbr)) 1 (min (n - 1) 1) (sectorOf (gptSerial tnew).block))
      (nSector - 1) (min (n - 2) 1) (sectorOf (gptSerial tnew).block))
      2 (min (n - 3) 32) (sectorOf tnew.entry))
      (nSector - 33) (min (n - 35) 32) (sectorOf tnew.entry) s := by
  have hall : saveWrites told = (saveWrites told).take 67 :=
    (List.take_of_length_le (length_saveWrites told).le).symm
  rw [cutDisk, hall, stores_take, stores_take, hold.headerLba, hold.backupLba, hold.entriesLba,
    hold.lastLba, hnew.headerLba, hnew.backupLba, hnew.entriesLba, hnew.lastLba]
  rfl

include hn

theorem cutDisk_mbr (n : Nat) :
    cutDisk told tnew d n 0 = sectorOf (if 1 ≤ n then tnew else told).mbr 0 := by
  rw [cutDisk_eq hold hnew, patch_outside _ _ (by omega), patch_outside _ _ (by omega),
    patch_outside _ _ (by omega), patch_outside _ _ (by omega)]
  split
  · rw [patch_inside _ _ le_rfl (by omega)]
  · rw [patch_outside _ _ (by omega), patch_outside _ _ (by omega), patch_outside _ _ (by omega),
      patch_outside _ _ (by omega), patch_outside _ _ (by omega), patch_inside _ _ le_rfl (by omega)]

theorem cutDisk_head (n : Nat) :
    cutDisk told tnew d n 1 = sectorOf (gptSerial (if 2 ≤ n then tnew else told)).block 0 := by
  rw [cutDisk_eq hold hnew, patch_outside _ _ (by omega), patch_outside _ _ (by omega),
    patch_outside _ _ (by omega)]
  split
  · rw [patch_inside _ _ le_rfl (by omega)]
  · rw [patch_outside _ _ (by omega), patch_outside _ _ (by omega), patch_outside _ _ (by omega),
      patch_outside _ _ (by omega), patch_outside _ _ (by omega), patch_inside _ _ le_rfl (by omega)]

theorem cutDisk_backup (n : Nat) : cutDisk told tnew d n (nSector - 1) =
    sectorOf (gptSerial (if 3 ≤ n then tnew else told)).block 0 := by
  rw [cutDisk_eq hold hnew, patch_outside _ _ (by omega), patch_outside _ _ (by omega)]
  split
  · rw [patch_inside _ _ le_rfl (by omega), Nat.sub_self]
  · rw [patch_outside _ _ (by omega), patch_outside _ _ (by omega), patch_outside _ _ (by omega),
      patch_outside _ _ (by omega), patch_outside _ _ (by omega), patch_inside _ _ le_rfl (by omega),
      Nat.sub_self]

theorem cutDisk_entries (n : Nat) {i : Nat} (hi : i < 32) :
    cutDisk told tnew d n (2 + i) = sectorOf (mixed told tnew (min (n - 3) 32)) i := by
  rw [cutDisk_eq hold hnew, sectorOf_mixed, patch_outside _ _ (by omega)]
  split
  · rw [patch_add _ _ ‹_›]
  · rw [patch_outside _ _ (by omega), patch_outside _ _ (by omega), patch_outside _ _ (by omega),
      patch_outside _ _ (by omega), patch_outside _ _ (by omega), patch_add _ _ hi]

theorem cutDisk_last (n : Nat) {i : Nat} (hi : i < 32) : cutDisk told tnew d n (nSector - 33 + i) =
    sectorOf (mixed told tnew (min (n - 35) 32)) i := by
  rw [cutDisk_eq hold hnew, sectorOf_mixed]
  split
  · rw [patch_add _ _ ‹_›]
  · rw [patch_outside _ _ (by omega), patch_outside _ _ (by omega), patch_outside _ _ (by omega),
      patch_outside _ _ (by omega), patch_outside _ _ (by omega), patch_add _ _ hi]

theorem loadedList_cutDisk (pgpt : GptTable) (n : Nat) :
    loadedList pgpt nSector (cutDisk told tnew d n) =
      if gptCrc32 (mixed told tnew (min (n - 3) 32)) 16384 =
          gptCrc32 (if 2 ≤ n then tnew else told).entry 16384 then
        some (entryList (if 2 ≤ n then tnew else told).block (mixed told tnew (min (n - 3) 32)))
      else if gptCrc32 (mixed told tnew (min (n - 35) 32)) 16384 =
          gptCrc32 (if 3 ≤ n then tnew else told).entry 16384 then
        some (entryList (if 3 ≤ n then tnew else told).block (mixed told tnew (min (n - 35) 32)))
      else none := by
  have hversion : ∀ c : Prop, [Decidable c] → (if c then tnew else told).version ≠ 0 := by
    intro c _
    split
    · exact hnew.version
    · exact hold.version
  have hmbr : (if 1 ≤ n then tnew else told).mbr 0x1c2 = 0xee := by
    split
    · exact hnew.mbr
    · exact hold.mbr
  exact loadedList_eq hn hmbr (hversion _) (hversion _) (cutDisk_mbr hn hold hnew d n)
    (cutDisk_head hn hold hnew d n) (fun i hi => cutDisk_entries hn hold hnew d n hi)
    (cutDisk_backup hn hold hnew d n) (fun i hi => cutDisk_last hn hold hnew d n hi) pgpt

theorem loadedList_headers_only (pgpt : GptTable)
    (hcrc : gptCrc32 told.entry 16384 ≠ gptCrc32 tnew.entry 16384) :
    loadedList pgpt nSector (cutDisk told tnew d 3) = none := by
  have h := loadedList_cutDisk hn hold hnew d pgpt 3
  simp only [Nat.sub_self, Nat.zero_min, Nat.reduceSub, mixed_zero, Nat.reduceLeDiff, if_true] at h
  rw [h, if_neg hcrc, if_neg hcrc]

theorem collide_of_atomic (pgpt : GptTable)
    (h : ∀ n, loadedList pgpt nSector (cutDisk told tnew d n) = some told.partitions ∨
      loadedList pgpt nSector (cutDisk told tnew d n) = some tnew.partitions) :
    EntriesCollide told tnew := by
  refine ⟨?_, ?_⟩
  · by_contra hcrc
    have hnone := loadedList_headers_only hn hold hnew d pgpt hcrc
    rcases h 3 with h3 | h3
    · rw [hnone] at h3
      cases h3
    · rw [hnone] at h3
      cases h3
  · intro k hk hcrc
    have hcut := loadedList_cutDisk hn hold hnew d pgpt (3 + k)
    rw [show min (3 + k - 3) 32 = k by omega, if_pos (show 2 ≤ 3 + k by omega), if_pos hcrc] at hcut
    have hlist := h (3 + k)
    rw [hcut] at hlist
    exact hlist.imp Option.some.inj Option.some.inj

theorem atomic_of_collide (pgpt : GptTable) (h : EntriesCollide told tnew) (n : Nat) :
    loadedList pgpt nSector (cutDisk told tnew d n) = some told.partitions ∨
      loadedList pgpt nSector (cutDisk told tnew d n) = some tnew.partitions := by
  have hcut := loadedList_cutDisk hn hold hnew d pgpt n
  by_cases hhead : 2 ≤ n
  · rw [if_pos hhead] at hcut
    split at hcut
    · -- the first pair verifies
      rw [hcut]
      exact (h.2 _ (by omega) ‹_›).imp (congrArg some) (congrArg some)
    · by_cases hback : 3 ≤ n
      · -- the entries are not yet complete, so those of the backup are the old ones
        have hlt : n - 35 = 0 := by
          by_contra hge
          rename_i hne
          apply hne
          rw [show min (n - 3) 32 = 32 by omega]
          exact gptCrc32_congr fun p hp => mixed_full told tnew hp
        rw [if_pos hback, hlt, Nat.zero_min, mixed_zero, if_pos h.1] at hcut
        have hlist := h.2 0 (by omega)
        rw [mixed_zero] at hlist
        rw [hcut]
        exact (hlist h.1).imp (congrArg some) (congrArg some)
      · rw [if_neg hback, show n - 35 = 0 by omega, Nat.zero_min, mixed_zero, if_pos rfl,
          ← hold.partitions_eq] at hcut
        exact Or.inl hcut
  · rw [if_neg hhead, show n - 3 = 0 by omega, Nat.zero_min, mixed_zero, if_pos rfl,
      ← hold.partitions_eq] at hcut
    exact Or.inl hcut

end Cut

/-- A save that stops leaves the old or the new list for every number of writes made exactly when
the entries of the two tables cannot be told apart by their checksums. -/
theorem gpt_save_atomic_iff {nSector : Nat} (hn : 67 ≤ nSector) {told tnew : GptTable}
    (hold : Legal nSector told) (hnew : Legal nSector tnew) (d : Disk) (pgpt : GptTable) :
    (∀ n, loadedList pgpt nSector (cutDisk told tnew d n) = some told.partitions ∨
      loadedList pgpt nSector (cutDisk told tnew d n) = some tnew.partitions) ↔
      EntriesCollide told tnew := by
  constructor
  · intro h
    exact collide_of_atomic hn hold hnew d pgpt h
  · intro h
    exact atomic_of_collide hn hold hnew d pgpt h

theorem entriesCollide_of_eq {nSector : Nat} {told tnew : GptTable} (hnew : Legal nSector tnew)
    (h : ∀ p < 16384, told.entry p = tnew.entry p) : EntriesCollide told tnew := by
  have hmix : ∀ k, ∀ p < 16384, mixed told tnew k p = tnew.entry p := by
    intro k p hp
    simp only [mixed, patch, Nat.sub_zero]
    split
    · rfl
    · exact h p hp
  refine ⟨gptCrc32_congr h, ?_⟩
  intro k _ _
  right
  rw [entryList_congr (hmix k), hnew.partitions_eq]

/-! A disk of 100 sectors with one partition. -/

def blankTable : GptTable :=
  (gptCreateAndInitWithLba 512 100 0 7).getD ⟨512, zeros, zeros, zeros⟩

def onePartition (lbaCnt : Nat) (partType : UInt8) : GptTable :=
  addEntries blankTable [⟨40, lbaCnt, partType, [], 9⟩]

theorem legal_onePartition (lbaCnt : Nat) (partType : UInt8) :
    Legal 100 (onePartition lbaCnt partType) := by
  have hcreate : gptCreateAndInitWithLba 512 100 0 7 = some blankTable := rfl
  apply legal_addEntries (by decide) (by decide) hcreate _ (by simp)
  intro p hp
  rw [List.mem_singleton.mp hp]
  exact (by decide : 40 % 2 ^ 64 ≠ 0)

theorem onePartition_entry (lbaCnt : Nat) (partType : UInt8) {i : Nat} (hi : 128 ≤ i) :
    (onePartition lbaCnt partType).entry i = 0 := by
  obtain ⟨fs, hfs, hlen, -⟩ := addEntries_one (t := blankTable)
    (p := ⟨40, lbaCnt, partType, [], 9⟩) (by decide) (by decide)
  rw [onePartition, hfs]
  exact putFields_outside _ _ _ (Or.inr (by
    rw [show blankTable.entriesCount = 0 by decide]
    omega))

/-- The type of the only partition is changed. -/
theorem gpt_save_atomic_iff_retyped :
    Legal 100 (onePartition 10 0x0b) ∧ Legal 100 (onePartition 10 0x83) ∧
      ∀ n, loadedList blankTable 100
          (cutDisk (onePartition 10 0x0b) (onePartition 10 0x83) (fun _ _ => 0) n) =
            some (onePartition 10 0x0b).partitions ∨
        loadedList blankTable 100
          (cutDisk (onePartition 10 0x0b) (onePartition 10 0x83) (fun _ _ => 0) n) =
            some (onePartition 10 0x83).partitions := by
  refine ⟨legal_onePartition 10 0x0b, legal_onePartition 10 0x83, ?_⟩
  apply (gpt_save_atomic_iff (by decide) (legal_onePartition 10 0x0b) (legal_onePartition 10 0x83)
    _ _).mpr
  apply entriesCollide_of_eq (legal_onePartition 10 0x83)
  intro p _
  rfl

/-- The only partition is made longer, and power fails after the third write: both headers are
those of the new table and both arrays of entries those of the old one. -/
theorem gpt_save_not_atomic :
    Legal 100 (onePartition 10 0x0b) ∧ Legal 100 (onePartition 20 0x0b) ∧
      ¬ ∀ n, loadedList blankTable 100
          (cutDisk (onePartition 10 0x0b) (onePartition 20 0x0b) (fun _ _ => 0) n) =
            some (onePartition 10 0x0b).partitions ∨
        loadedList blankTable 100
          (cutDisk (onePartition 10 0x0b) (onePartition 20 0x0b) (fun _ _ => 0) n) =
            some (onePartition 20 0x0b).partitions := by
  refine ⟨legal_onePartition 10 0x0b, legal_onePartition 20 0x0b, ?_⟩
  intro h
  -- the last sectors 49 and 59 differ in byte 40
  have hregs : crcRegs (onePartition 10 0x0b).entry 41 ≠ crcRegs (onePartition 20 0x0b).entry 41 := by
    decide +kernel
  have hrest : ∀ i < 128, 41 ≤ i →
      (onePartition 10 0x0b).entry i = (onePartition 20 0x0b).entry i := by
    decide +kernel
  have htail : ∀ i, 41 ≤ i → (onePartition 10 0x0b).entry i = (onePartition 20 0x0b).entry i := by
    intro i hi
    by_cases hlt : i < 128
    · exact hrest i hlt hi
    · rw [onePartition_entry 10 0x0b (by omega), onePartition_entry 20 0x0b (by omega)]
  have hcrc := gptCrc32_ne (n := 16384) hregs (by decide) htail
  have hnone := loadedList_headers_only (by decide) (legal_onePartition 10 0x0b)
    (legal_onePartition 20 0x0b) (fun _ _ => 0) blankTable hcrc
  rcases h 3 with h3 | h3
  · rw [hnone] at h3
    cases h3
  · rw [hnone] at h3
    cases h3

end SylixOS.GptPartition
