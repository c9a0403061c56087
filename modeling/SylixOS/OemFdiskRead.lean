import SylixOS.GptBounds
import SylixOS.OemFdiskGpt

/-! What `__oemGptFdiskGet` reads from a disk. -/

namespace SylixOS.OemFdisk
open SylixOS.ByteBuffer SylixOS.SectorDevice SylixOS.GptPartition

def readTable (d : Disk) : GptTable := fileTable ⟨ulSecSize, zeros, zeros, zeros⟩ (flatten d)

section Read

variable {n : Nat} {d d' : Disk} {t : GptTable}

theorem readMbr_type : ((⟨ulSecSize, zeros, zeros, zeros⟩ : GptTable).readMbr (flatten d)).mbr 0x1c2 =
    sectorByte (d 0) 0x1c2 := by
  have hread : patch zeros 0 (1 * ulSecSize) (advance (flatten d) (0 * ulSecSize)) 0x1c2 =
      advance (flatten d) (0 * ulSecSize) 0x1c2 :=
    patch_inside _ _ (Nat.zero_le _) (by decide)
  exact hread

theorem readTable_block {p : Nat} (hp : p < 512) :
    (readTable d).block p = flatten d (1 * ulSecSize + p) := by
  have hread : patch zeros 0 (gptHeadLbaCnt * ulSecSize) (advance (flatten d) (1 * ulSecSize)) p =
      advance (flatten d) (1 * ulSecSize) p :=
    patch_inside _ _ (Nat.zero_le _) (by rw [Nat.zero_add]; exact hp)
  exact hread

theorem readTable_entry {p : Nat} (hp : p < 16384) :
    (readTable d).entry p = flatten d (2 * ulSecSize + p) := by
  have hread : patch zeros 0 GptPartition.entriesSize (advance (flatten d) (2 * ulSecSize)) p =
      advance (flatten d) (2 * ulSecSize) p :=
    patch_inside _ _ (Nat.zero_le _) (by rw [Nat.zero_add]; exact hp)
  exact hread

theorem gptPartitionLoad_read {preadErr : Nat → Nat → Bool} {b : Bytes}
    (hmbr : preadErr 0 t.secSize = false) (hhead : preadErr (1 * t.secSize) t.secSize = false)
    (hent : preadErr (2 * t.secSize) GptPartition.entriesSize = false) :
    gptPartitionLoad t preadErr b =
      if (t.readMbr b).mbr 0x1c2 ≠ 0xee then ⟨false, b, t.readMbr b, []⟩
      else gptCheck (fileTable t b) b [GptPartition.entriesSize] fun t reach =>
        ⟨false, b, t, reach⟩ := by
  have hsize : (t.readMbr b).secSize = t.secSize := rfl
  have hsize' : ((t.readMbr b).readHead b 1).secSize = t.secSize := rfl
  rw [gptPartitionLoad, hmbr, if_neg Bool.false_ne_true]
  dsimp only
  rw [hsize, hhead, if_neg Bool.false_ne_true, hsize', hent, if_neg Bool.false_ne_true]
  rfl

theorem gptGetTable_eq (hn : 34 ≤ n) : gptGetTable n d =
    if sectorByte (d 0) 0x1c2 = 0xee ∧ (gptVerify (readTable d)).1 = true then
      some (gptUnserial (gptVerify (readTable d)).2)
    else none := by
  have hcreate : gptCreateAndInitWithLba ulSecSize 0 0 0 =
      some ⟨ulSecSize, zeros, zeros, zeros⟩ := rfl
  have hread : ∀ {pos len}, pos + len ≤ 34 * ulSecSize →
      decide (n * ulSecSize < pos + len) = false := by
    intro pos len hlen
    have hmul : 34 * ulSecSize ≤ n * ulSecSize := Nat.mul_le_mul_right _ hn
    exact decide_eq_false (by omega)
  rw [gptGetTable, hcreate, Option.bind_some,
    gptPartitionLoad_read (hread (by decide)) (hread (by decide)) (hread (by decide)), readMbr_type]
  by_cases hee : sectorByte (d 0) 0x1c2 = 0xee
  · rw [if_neg (not_not.mpr hee), gptCheck, ← readTable]
    cases (gptVerify (readTable d)).1 with
    | true => simp only [hee, true_and, if_true]
    | false => simp only [Bool.false_eq_true, and_false, if_false]
  · rw [if_pos hee, if_neg Bool.false_ne_true, if_neg fun h => hee h.1]

theorem flatten_bytes (cnt : Nat) {src : Bytes} {sec p : Nat}
    (h : ∀ i < cnt, d (sec + i) = sectorOf src i) (hp : p < cnt * 512) : flatten d (sec * 512 + p) = src p := by
  have hread : patch zeros 0 (cnt * 512) (flatten (advance d sec)) p = src p := blkRd_byte h hp
  rw [patch_inside _ _ (Nat.zero_le p) (by rw [Nat.zero_add]; exact hp), Nat.sub_zero,
    flatten_advance] at hread
  exact hread

theorem gptGetTable_save (hn : 67 ≤ n) (hlegal : Legal n t)
    (hd : d' = stores d (saveWrites t)) :
    ∃ u, gptGetTable n d' = some u ∧ u.partitions = t.partitions := by
  have hcut : d' = cutDisk t t d 0 := by
    rw [hd, cutDisk, List.take_zero, stores, stores, List.foldl_nil]
  have hmbr : sectorByte (d' 0) 0x1c2 = 0xee := by
    rw [hcut, cutDisk_mbr hn hlegal hlegal, ite_self, sectorByte_sectorOf _ (by decide)]
    exact hlegal.mbr
  have hblock : ∀ p < 512, (readTable d').block p = (gptSerial t).block p := by
    intro p hp
    rw [readTable_block hp]
    refine flatten_bytes 1 (fun i hi => ?_) (by rw [Nat.one_mul]; exact hp)
    obtain rfl : i = 0 := by omega
    rw [hcut, Nat.add_zero, cutDisk_head hn hlegal hlegal, ite_self]
  have hentry : ∀ p < 16384, (readTable d').entry p = t.entry p := by
    intro p hp
    rw [readTable_entry hp]
    refine flatten_bytes 32 (fun i hi => ?_) hp
    rw [hcut, cutDisk_entries hn hlegal hlegal d 0 hi, Nat.zero_sub, Nat.zero_min, mixed_zero]
  have hverify : (gptVerify (readTable d')).1 = true := by
    rw [gptVerify_fst hblock, decide_eq_true]
    exact gptCrc32_congr hentry
  refine ⟨gptUnserial (gptVerify (readTable d')).2, ?_, ?_⟩
  · rw [gptGetTable_eq (by omega), if_pos ⟨hmbr, hverify⟩]
  · rw [gptUnserial_partitions hlegal.version hblock, entryList_congr hentry, hlegal.partitions_eq]

def infoOf (e : Nat × Nat × UInt8) : MbrScan.OemfdiskPinfo :=
  { size := e.2.1 * ulSecSize % 2 ^ 64, oft := e.1 * ulSecSize % 2 ^ 64
    isActive := e.2.2 = diskPartTypeEfi, partType := e.2.2 }

theorem mapM_gptGetInfo {l : List Nat} {plan : List PartSec}
    (h : l.map (gptGetEntry t) = plan.map PartSec.entry) :
    l.mapM (gptGetInfo t) =
      some (plan.map fun p => infoOf (p.startSec, p.nSec, p.part.partType)) := by
  induction plan generalizing l with
  | nil =>
    obtain rfl := List.map_eq_nil_iff.mp h
    rfl
  | cons p plan ih =>
    obtain ⟨i, l, rfl, hi, hl⟩ := List.map_eq_cons_iff.mp h
    have hinfo : gptGetInfo t i = some (infoOf (p.startSec, p.nSec, p.part.partType)) := by
      rw [gptGetInfo, hi]
      rfl
    rw [List.mapM_cons, hinfo, ih hl]
    rfl

theorem oemGptFdiskGet_plan {plan : List PartSec} {uiNPart : Nat} (htable : gptGetTable n d = some t)
    (hparts : t.partitions = plan.map PartSec.entry) (hroom : plan.length ≤ uiNPart)
    (hword : ∀ p ∈ plan, p.startSec * ulSecSize < 2 ^ 64 ∧ p.nSec * ulSecSize < 2 ^ 64) :
    ∃ infos, oemGptFdiskGet n d uiNPart = some infos ∧
      infos.map infoKey = plan.map PartSec.key := by
  have hcount : t.entriesCount = plan.length := by
    have hlen := congrArg List.length hparts
    rwa [GptTable.partitions, List.length_map, List.length_range, List.length_map] at hlen
  refine ⟨plan.map fun p => infoOf (p.startSec, p.nSec, p.part.partType), ?_, ?_⟩
  · rw [oemGptFdiskGet, htable, Option.bind_some, hcount, Nat.min_eq_right hroom, ← hcount]
    exact mapM_gptGetInfo hparts
  · rw [List.map_map]
    refine List.map_congr_left fun p hp => ?_
    obtain ⟨hstart, hsize⟩ := hword p hp
    rw [Function.comp_apply, infoKey, infoOf, PartSec.key]
    dsimp only
    rw [Nat.mod_eq_of_lt hstart, Nat.mod_eq_of_lt hsize]

theorem flatten_congr {p : Nat} (h : d (p / 512) = d' (p / 512)) : flatten d p = flatten d' p := by
  have hread : ∀ d : Disk, flatten d p = sectorByte (d (p / 512)) p := fun d => rfl
  rw [hread, hread, h]

theorem listing_congr {t t' : GptTable} (hblock : t.block = t'.block) (hentry : t.entry = t'.entry) :
    (gptVerify t).1 = (gptVerify t').1 ∧
      ∀ uiNPart, (List.range (min uiNPart (gptUnserial (gptVerify t).2).entriesCount)).mapM
          (gptGetInfo (gptUnserial (gptVerify t).2)) =
        (List.range (min uiNPart (gptUnserial (gptVerify t').2).entriesCount)).mapM
          (gptGetInfo (gptUnserial (gptVerify t').2)) := by
  obtain ⟨secSize, mbr, block, entry⟩ := t
  obtain ⟨secSize', mbr', block', entry'⟩ := t'
  dsimp only at hblock hentry
  subst hblock hentry
  exact ⟨rfl, fun _ => rfl⟩

theorem oemGptFdiskGet_congr (hn : 34 ≤ n)
    (hmbr : sectorByte (d 0) 0x1c2 = sectorByte (d' 0) 0x1c2)
    (h : ∀ sec, 0 < sec → sec < 34 → d sec = d' sec) (uiNPart : Nat) :
    oemGptFdiskGet n d uiNPart = oemGptFdiskGet n d' uiNPart := by
  have hbytes : ∀ p, 512 ≤ p → p < 34 * 512 → flatten d p = flatten d' p := by
    intro p hlo hhi
    exact flatten_congr (h _ (by omega) (by omega))
  have hblock : (readTable d).block = (readTable d').block := by
    funext p
    by_cases hp : p < 512
    · rw [readTable_block hp, readTable_block hp, ulSecSize]
      exact hbytes _ (by omega) (by omega)
    · have hzero : ∀ d, (readTable d).block p = zeros p := fun d =>
        patch_outside _ _ (Or.inr (by rw [Nat.zero_add]; exact not_lt.mp hp))
      rw [hzero, hzero]
  have hentry : (readTable d).entry = (readTable d').entry := by
    funext p
    by_cases hp : p < 16384
    · rw [readTable_entry hp, readTable_entry hp, ulSecSize]
      exact hbytes _ (by omega) (by omega)
    · have hzero : ∀ d, (readTable d).entry p = zeros p := fun d =>
        patch_outside _ _ (Or.inr (by rw [Nat.zero_add]; exact not_lt.mp hp))
      rw [hzero, hzero]
  obtain ⟨hverify, hlist⟩ := listing_congr hblock hentry
  rw [oemGptFdiskGet, oemGptFdiskGet, gptGetTable_eq hn, gptGetTable_eq hn, hmbr, hverify]
  split
  · exact hlist uiNPart
  · rfl

end Read

end SylixOS.OemFdisk
