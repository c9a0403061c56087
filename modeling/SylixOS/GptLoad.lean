import SylixOS.GptPartition

/-! The two loaders of a GUID partition table for any sector size and with transfers that fail, and
how far into `GPT_entry` they and `API_GptAddEntryWithName` reach. -/

namespace SylixOS.GptPartition
open SylixOS.ByteBuffer SylixOS.SectorDevice

structure GptDev where
  nSector : Nat
  rdErr : (sec cnt : Nat) → Bool
  wrtErr : (sec cnt : Nat) → Bool

/-- The end of a load: whether it succeeds, the bytes of the disk, the table, and how many bytes from
the start of `GPT_entry` each access takes in -/
structure Loaded where
  ok : Bool
  disk : Bytes
  table : GptTable
  reach : List Nat

def entriesSize : Nat := gptMaxEntries * entrySize

variable (t : GptTable)

def verifyReach : List Nat :=
  let block := putLE 4 0 t.block hdrCrc32
  if getLE 4 t.block hdrCrc32 = gptCrc32 block headerSize then
    [crcLength (getLE 4 block hdrEntriesCount)]
  else []

def unserialTurns : Nat :=
  if legalCount t.entry t.entriesCount < t.entriesCount then legalCount t.entry t.entriesCount + 1
  else t.entriesCount

/-- `__gptVerify`, and `__gptUnserial` if it succeeds; `alt` is the rest of the loader if not. -/
def gptCheck (d : Bytes) (reach : List Nat) (alt : GptTable → List Nat → Loaded) : Loaded :=
  let verify := gptVerify t
  let reach := reach ++ verifyReach t
  if verify.1 then
    ⟨true, d, gptUnserial verify.2, reach ++ [unserialTurns verify.2 * entrySize]⟩
  else alt verify.2 reach

namespace GptTable

def readMbr (d : Bytes) : GptTable :=
  { t with mbr := patch t.mbr 0 (1 * t.secSize) (advance d (0 * t.secSize)) }

def readHead (d : Bytes) (sec : Nat) : GptTable :=
  { t with
    block := patch t.block 0 (gptHeadLbaCnt * t.secSize) (advance d (sec * t.secSize)) }

def readEntries (d : Bytes) (sec : Nat) : GptTable :=
  { t with entry := patch t.entry 0 (gptEntLbaCnt * t.secSize) (advance d (sec * t.secSize)) }

def writeHead (d : Bytes) : Bytes :=
  patch d (gptHeadLba * t.secSize) (gptHeadLbaCnt * t.secSize) t.block

def writeEntries (d : Bytes) : Bytes :=
  patch d (gptEntLba * t.secSize) (gptEntLbaCnt * t.secSize) t.entry

end GptTable

def gptPartitionLoad (preadErr : (pos len : Nat) → Bool) (d : Bytes) : Loaded :=
  if preadErr 0 t.secSize then ⟨false, d, t, []⟩
  else
    let t := t.readMbr d
    if t.mbr 0x1c2 ≠ 0xee then ⟨false, d, t, []⟩
    else if preadErr (1 * t.secSize) t.secSize then ⟨false, d, t, []⟩
    else
      let t := t.readHead d 1
      if preadErr (2 * t.secSize) entriesSize then ⟨false, d, t, [entriesSize]⟩
      else
        let t := { t with entry := patch t.entry 0 entriesSize (advance d (2 * t.secSize)) }
        gptCheck t d [entriesSize] fun t reach => ⟨false, d, t, reach⟩

namespace GptDev

def backupHead (V : GptDev) : Nat := (V.nSector + 2 ^ 64 - gptHeadLbaCnt) % 2 ^ 64

def backupEntries (V : GptDev) : Nat := (V.nSector + 2 ^ 64 - gptEntLbaCnt - gptHeadLbaCnt) % 2 ^ 64

end GptDev

def devRestore (V : GptDev) (d : Bytes) (reach : List Nat) : Loaded :=
  if V.rdErr V.backupHead gptHeadLbaCnt then ⟨false, d, t, reach⟩
  else
    let t := t.readHead d V.backupHead
    if V.wrtErr gptHeadLba gptHeadLbaCnt then ⟨false, d, t, reach⟩
    else
      let d := t.writeHead d
      let reach := reach ++ [gptEntLbaCnt * t.secSize]
      if V.rdErr V.backupEntries gptEntLbaCnt then ⟨false, d, t, reach⟩
      else
        let t := t.readEntries d V.backupEntries
        let reach := reach ++ [gptEntLbaCnt * t.secSize]
        if V.wrtErr gptEntLba gptEntLbaCnt then ⟨false, d, t, reach⟩
        else gptCheck t (t.writeEntries d) reach fun u reach => ⟨false, t.writeEntries d, u, reach⟩

def devLoad (V : GptDev) (d : Bytes) : Loaded :=
  if V.rdErr 0 1 then ⟨false, d, t, []⟩
  else
    let t := t.readMbr d
    if t.mbr 0x1c2 ≠ 0xee then ⟨false, d, t, []⟩
    else if V.rdErr gptHeadLba gptHeadLbaCnt then ⟨false, d, t, []⟩
    else
      let t := t.readHead d gptHeadLba
      if V.rdErr gptEntLba gptEntLbaCnt then ⟨false, d, t, [gptEntLbaCnt * t.secSize]⟩
      else
        let t := t.readEntries d gptEntLba
        gptCheck t d [gptEntLbaCnt * t.secSize] fun t reach => devRestore t V d reach

variable {t}

def plainDev (n : Nat) : GptDev :=
  ⟨n, fun sec cnt => decide (n < sec + cnt), fun sec cnt => decide (n < sec + cnt)⟩

def Loaded.sectors (o : Loaded) : Option (Disk × GptTable) :=
  if o.ok then some (sectorOf o.disk, o.table) else none

theorem blkRd_flatten {n : Nat} (d : Disk) (buf : Bytes) (sec cnt : Nat) :
    blkRd n d buf sec cnt =
      if decide (n < sec + cnt) then none
      else some (patch buf 0 (cnt * 512) (advance (flatten d) (sec * 512))) := by
  have hadvance : flatten (advance d sec) = advance (flatten d) (sec * 512) := by
    funext p
    exact flatten_advance d sec p
  rw [blkRd, hadvance]
  by_cases h : sec + cnt ≤ n
  · rw [if_pos h, if_neg (by simpa using h)]
  · rw [if_neg h, if_pos (by simpa using h)]

theorem blkWrt_flatten {n : Nat} (d : Disk) (buf : Bytes) (sec cnt : Nat) :
    (blkWrt n d buf sec cnt).map flatten =
      if decide (n < sec + cnt) then none
      else some (patch (flatten d) (sec * 512) (cnt * 512) buf) := by
  have hpatch : flatten (patch d sec cnt (sectorOf buf)) =
      patch (flatten d) (sec * 512) (cnt * 512) buf := by
    rw [flatten_patch, flatten_sectorOf]
    rfl
  rw [blkWrt]
  by_cases h : sec + cnt ≤ n
  · rw [if_pos h, if_neg (by simpa using h), Option.map_some, hpatch]
  · rw [if_neg h, if_pos (by simpa using h), Option.map_none]

theorem gptCheck_sectors {d : Disk} {reach : List Nat} {alt : GptTable → List Nat → Loaded}
    {r : Option (Disk × GptTable)} (halt : ∀ l, (alt (gptVerify t).2 l).sectors = r) :
    (gptCheck t (flatten d) reach alt).sectors =
      if (gptVerify t).1 then some (d, gptUnserial (gptVerify t).2) else r := by
  rw [gptCheck]
  cases (gptVerify t).1 with
  | true =>
    have hsectors : (sectorOf (flatten d) : Disk) = d := by
      funext i
      exact sectorOf_flatten d i
    exact congrArg (fun d => some (d, gptUnserial (gptVerify t).2)) hsectors
  | false => exact halt _

theorem Loaded.sectors_fail (d : Bytes) (t : GptTable) (reach : List Nat) :
    (⟨false, d, t, reach⟩ : Loaded).sectors = none := rfl

theorem blkWrt_cases (n : Nat) (d : Disk) (buf : Bytes) (sec cnt : Nat) :
    (decide (n < sec + cnt) = true ∧ blkWrt n d buf sec cnt = none) ∨
      ∃ d', decide (n < sec + cnt) = false ∧ blkWrt n d buf sec cnt = some d' ∧
        patch (flatten d) (sec * 512) (cnt * 512) buf = flatten d' := by
  have hwrt := blkWrt_flatten (n := n) d buf sec cnt
  cases hlt : decide (n < sec + cnt) with
  | true =>
    rw [hlt, if_pos rfl, Option.map_eq_none_iff] at hwrt
    exact Or.inl ⟨rfl, hwrt⟩
  | false =>
    rw [hlt, if_neg Bool.false_ne_true, Option.map_eq_some_iff] at hwrt
    obtain ⟨d', hd', hpatch⟩ := hwrt
    exact Or.inr ⟨d', rfl, hd', hpatch.symm⟩

theorem devRestore_sectors {n : Nat} (hn : 33 ≤ n) (hn' : n < 2 ^ 64) (hsize : t.secSize = 512)
    (d : Disk) (reach : List Nat) :
    (devRestore t (plainDev n) (flatten d) reach).sectors = blkRestore t n d := by
  have hhead : (plainDev n).backupHead = n - gptHeadLbaCnt := by
    show (n + 2 ^ 64 - 1) % 2 ^ 64 = n - 1
    omega
  have hent : (plainDev n).backupEntries = n - gptEntLbaCnt - gptHeadLbaCnt := by
    show (n + 2 ^ 64 - 32 - 1) % 2 ^ 64 = n - 32 - 1
    omega
  rw [devRestore, blkRestore, hhead, hent]
  simp only [plainDev, GptTable.readHead, GptTable.writeHead, GptTable.readEntries,
    GptTable.writeEntries, hsize, Option.bind_eq_bind, blkRd_flatten]
  cases decide (n < n - gptHeadLbaCnt + gptHeadLbaCnt) with
  | true => rfl
  | false =>
    simp only [Bool.false_eq_true, if_false, Option.bind_some]
    rcases blkWrt_cases n d (patch t.block 0 (gptHeadLbaCnt * 512)
      (advance (flatten d) ((n - gptHeadLbaCnt) * 512))) gptHeadLba gptHeadLbaCnt with
      ⟨hfail, hnone⟩ | ⟨d', hgood, hsome, hpatch⟩
    · rw [hfail, hnone]
      rfl
    · rw [hgood, hsome, hpatch, Option.bind_some, if_neg Bool.false_ne_true]
      cases decide (n < n - gptEntLbaCnt - gptHeadLbaCnt + gptEntLbaCnt) with
      | true => rfl
      | false =>
        simp only [Bool.false_eq_true, if_false, Option.bind_some]
        rcases blkWrt_cases n d' (patch t.entry 0 (gptEntLbaCnt * 512)
          (advance (flatten d') ((n - gptEntLbaCnt - gptHeadLbaCnt) * 512))) gptEntLba
          gptEntLbaCnt with ⟨hfail, hnone⟩ | ⟨d'', hgood, hsome, hpatch⟩
        · rw [hfail, hnone]
          rfl
        · rw [hgood, hsome, hpatch, Option.bind_some]
          exact gptCheck_sectors fun _ => rfl

theorem devLoad_sectors {n : Nat} (hn : 33 ≤ n) (hn' : n < 2 ^ 64) (hsize : t.secSize = 512)
    (d : Disk) : (devLoad t (plainDev n) (flatten d)).sectors = gptPartitionBlkLoad t n d := by
  rw [devLoad, gptPartitionBlkLoad]
  simp only [GptTable.readMbr, GptTable.readHead, GptTable.readEntries, hsize,
    Option.bind_eq_bind, blkRd_flatten]
  cases hrd : decide (n < 0 + 1) with
  | true =>
    rw [plainDev, if_pos hrd]
    rfl
  | false =>
    simp only [plainDev, hrd, Bool.false_eq_true, if_false, Option.bind_some]
    by_cases hmbr : patch t.mbr 0 (1 * 512) (advance (flatten d) (0 * 512)) 0x1c2 ≠ 0xee
    · rw [if_pos hmbr, if_pos hmbr]
      rfl
    · rw [if_neg hmbr, if_neg hmbr]
      by_cases hhead : n < gptHeadLba + gptHeadLbaCnt
      · simp only [decide_eq_true hhead, if_true]
        rfl
      · simp only [decide_eq_false hhead, Bool.false_eq_true, if_false, Option.bind_some]
        by_cases hent : n < gptEntLba + gptEntLbaCnt
        · simp only [decide_eq_true hent, if_true]
          rfl
        · simp only [decide_eq_false hent, Bool.false_eq_true, if_false, Option.bind_some]
          refine gptCheck_sectors fun l => ?_
          exact devRestore_sectors hn hn' rfl d l

end SylixOS.GptPartition
