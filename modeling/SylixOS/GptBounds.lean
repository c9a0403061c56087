import Mathlib.Data.List.Induction
import SylixOS.GptLoad

/-! Which entries of `GPT_entry` the loaders and `API_GptAddEntryWithName` touch. -/

namespace SylixOS.GptPartition
open SylixOS.ByteBuffer

variable {t : GptTable} {d : Bytes} {reach : List Nat}

def Within (reach : List Nat) : Prop := ∀ x ∈ reach, x ≤ entriesSize

@[simp] theorem within_nil : Within [] := fun _ h => nomatch h

@[simp] theorem within_append {reach reach' : List Nat} :
    Within (reach ++ reach') ↔ Within reach ∧ Within reach' := List.forall_mem_append

@[simp] theorem within_singleton {x : Nat} : Within [x] ↔ x ≤ entriesSize := List.forall_mem_singleton

def HeaderSound (t : GptTable) : Prop :=
  getLE 4 t.block hdrCrc32 = gptCrc32 (putLE 4 0 t.block hdrCrc32) headerSize

def EntriesSound (t : GptTable) : Prop :=
  getLE 4 t.block hdrEntriesCrc32 = gptCrc32 t.entry (crcLength t.entriesCount)

/-- A header with the right checksum has no more entries checked than there are, and if these have
the right checksum too, there is an end among the first 128. -/
def CountFits (t : GptTable) : Prop :=
  HeaderSound t → crcLength t.entriesCount ≤ entriesSize ∧
    (EntriesSound t → t.entriesCount ≤ gptMaxEntries ∨
      ∃ i < gptMaxEntries, entFirstLba t.entry i = 0)

theorem zeroed_field {w pos : Nat} (h : pos + w ≤ hdrCrc32 ∨ hdrCrc32 + 4 ≤ pos) :
    getLE w (putLE 4 0 t.block hdrCrc32) pos = getLE w t.block pos :=
  getLE_putLE_outside _ _ _ _ h

theorem gptVerify_iff : (gptVerify t).1 = true ↔ HeaderSound t ∧ EntriesSound t := by
  have hcount : (gptVerify t).2.entriesCount = t.entriesCount := zeroed_field (by decide)
  have hcrc : getLE 4 (gptVerify t).2.block hdrEntriesCrc32 = getLE 4 t.block hdrEntriesCrc32 :=
    zeroed_field (by decide)
  rw [HeaderSound, EntriesSound, ← hcount, ← hcrc]
  exact decide_eq_true_iff

theorem verifyReach_within :
    Within (verifyReach t) ↔ (HeaderSound t → crcLength t.entriesCount ≤ entriesSize) := by
  have hcount : getLE 4 (putLE 4 0 t.block hdrCrc32) hdrEntriesCount = t.entriesCount :=
    zeroed_field (by decide)
  by_cases hsound : HeaderSound t
  · have hreach : verifyReach t = [crcLength t.entriesCount] := by
      rw [verifyReach, hcount]
      exact if_pos hsound
    simp [hreach, hsound]
  · have hreach : verifyReach t = [] := if_neg hsound
    simp [hreach, hsound]

theorem legalFrom_spec (entry : Bytes) (left i : Nat) :
    (legalFrom entry left i < i + left → entFirstLba entry (legalFrom entry left i) = 0) ∧
      ∀ j, i ≤ j → j < legalFrom entry left i → entFirstLba entry j ≠ 0 := by
  induction left generalizing i with
  | zero => exact ⟨fun h => absurd h (lt_irrefl i), fun j hi hj => absurd hj (not_lt.mpr hi)⟩
  | succ left ih =>
    obtain ⟨hstop, hbefore⟩ := ih (i + 1)
    rw [legalFrom]
    split
    · next hzero => exact ⟨fun _ => hzero, fun j hi hj => absurd hj (not_lt.mpr hi)⟩
    · next hne =>
      refine ⟨fun h => hstop (by omega), fun j hi hj => ?_⟩
      rcases Nat.eq_or_lt_of_le hi with rfl | hlt
      · exact hne
      · exact hbefore j hlt hj

theorem unserialTurns_le :
    unserialTurns t ≤ gptMaxEntries ↔
      t.entriesCount ≤ gptMaxEntries ∨ ∃ i < gptMaxEntries, entFirstLba t.entry i = 0 := by
  obtain ⟨hstop, hbefore⟩ := legalFrom_spec t.entry t.entriesCount 0
  rw [Nat.zero_add] at hstop
  have hle : legalCount t.entry t.entriesCount ≤ t.entriesCount := legalCount_le _ _
  rw [unserialTurns]
  constructor
  · intro hturns
    by_cases hlt : legalCount t.entry t.entriesCount < t.entriesCount
    · rw [if_pos hlt] at hturns
      exact Or.inr ⟨_, hturns, hstop hlt⟩
    · rw [if_neg hlt] at hturns
      exact Or.inl hturns
  · rintro (hcount | ⟨i, hi, hzero⟩)
    · split <;> omega
    · have hlegal : legalCount t.entry t.entriesCount ≤ i :=
        not_lt.mp fun hlt => hbefore i (Nat.zero_le i) hlt hzero
      split <;> omega

theorem gptCheck_within {alt : GptTable → List Nat → Loaded} {P : Prop}
    (halt : ∀ l, Within (alt (gptVerify t).2 l).reach ↔ Within l ∧ P) :
    Within (gptCheck t d reach alt).reach ↔
      Within reach ∧ CountFits t ∧ ((gptVerify t).1 = false → P) := by
  rw [gptCheck]
  cases hverify : (gptVerify t).1 with
  | true =>
    obtain ⟨hsound, hsound'⟩ := gptVerify_iff.mp hverify
    have hcount : (gptVerify t).2.entriesCount = t.entriesCount := zeroed_field (by decide)
    have hentry : (gptVerify t).2.entry = t.entry := rfl
    have hpos : 0 < entrySize := by decide
    have hturns : unserialTurns (gptVerify t).2 * entrySize ≤ entriesSize ↔
        t.entriesCount ≤ gptMaxEntries ∨ ∃ i < gptMaxEntries, entFirstLba t.entry i = 0 := by
      rw [entriesSize, Nat.mul_le_mul_right_iff hpos, unserialTurns_le, hcount, hentry]
    rw [if_pos rfl, within_append, within_append, within_singleton, verifyReach_within, hturns]
    simp [CountFits, hsound, hsound', and_assoc]
  | false =>
    have hunsound : HeaderSound t → ¬ EntriesSound t := by
      intro hsound hsound'
      rw [gptVerify_iff.mpr ⟨hsound, hsound'⟩] at hverify
      cases hverify
    have hfits : CountFits t ↔ (HeaderSound t → crcLength t.entriesCount ≤ entriesSize) :=
      forall_congr' fun hsound => and_iff_left fun hsound' => absurd hsound' (hunsound hsound)
    rw [if_neg Bool.false_ne_true, halt, within_append, verifyReach_within, hfits]
    simp [and_assoc]

theorem gptCheck_keeps {alt : GptTable → List Nat → Loaded}
    (halt : ∀ u l, Within (alt u l).reach → Within l) (h : Within (gptCheck t d reach alt).reach) :
    Within reach := by
  rw [gptCheck] at h
  split at h
  · exact (within_append.mp (within_append.mp h).1).1
  · exact (within_append.mp (halt _ _ h)).1

def fileTable (t : GptTable) (d : Bytes) : GptTable :=
  { (t.readMbr d).readHead d 1 with
    entry := patch t.entry 0 entriesSize (advance d (2 * t.secSize)) }

/-- What `API_GptPartitionBlkLoad` has in memory when it has read the first pair, and when it has
copied the backup header -/
def firstPair (t : GptTable) (d : Bytes) : GptTable :=
  ((t.readMbr d).readHead d gptHeadLba).readEntries d gptEntLba

def backupHeader (t : GptTable) (V : GptDev) (d : Bytes) : GptTable :=
  (gptVerify t).2.readHead d V.backupHead

def BackupFits (t : GptTable) (V : GptDev) (d : Bytes) : Prop :=
  V.rdErr V.backupHead gptHeadLbaCnt = false → V.wrtErr gptHeadLba gptHeadLbaCnt = false →
    V.rdErr V.backupEntries gptEntLbaCnt = false → V.wrtErr gptEntLba gptEntLbaCnt = false →
    CountFits ((backupHeader t V d).readEntries ((backupHeader t V d).writeHead d)
      V.backupEntries)

theorem gptPartitionLoad_within (preadErr : Nat → Nat → Bool) :
    Within (gptPartitionLoad t preadErr d).reach ↔
      (preadErr 0 t.secSize = false → (t.readMbr d).mbr 0x1c2 = 0xee →
        preadErr (1 * t.secSize) t.secSize = false →
        preadErr (2 * t.secSize) entriesSize = false → CountFits (fileTable t d)) := by
  have hsize : (t.readMbr d).secSize = t.secSize := rfl
  have hsize' : ((t.readMbr d).readHead d 1).secSize = t.secSize := rfl
  rw [gptPartitionLoad]
  cases preadErr 0 t.secSize with
  | true => simp
  | false =>
    simp only [Bool.false_eq_true, if_false, forall_const, hsize, hsize']
    by_cases hmbr : (t.readMbr d).mbr 0x1c2 = 0xee
    · rw [if_neg (not_not.mpr hmbr), imp_iff_right hmbr]
      cases preadErr (1 * t.secSize) t.secSize with
      | true => simp
      | false =>
        simp only [Bool.false_eq_true, if_false, forall_const]
        cases preadErr (2 * t.secSize) entriesSize with
        | true => simp
        | false =>
          simp only [Bool.false_eq_true, if_false, forall_const]
          refine (gptCheck_within (P := True) fun l => (and_iff_left trivial).symm).trans ?_
          rw [within_singleton, and_iff_right le_rfl, and_iff_left fun _ => trivial]
          exact Iff.rfl
    · rw [if_pos hmbr]
      simp [hmbr]

theorem entries_fit_iff {n : Nat} : gptEntLbaCnt * n ≤ entriesSize ↔ n ≤ 512 := by
  have hsize : entriesSize = 32 * 512 := rfl
  rw [hsize, gptEntLbaCnt]
  omega

theorem devRestore_within (V : GptDev) (hsize : t.secSize ≤ 512) (l : List Nat) :
    Within (devRestore (gptVerify t).2 V d l).reach ↔ Within l ∧ BackupFits t V d := by
  have hfit : gptEntLbaCnt * t.secSize ≤ entriesSize := entries_fit_iff.mpr hsize
  have hsize' : (backupHeader t V d).secSize = t.secSize := rfl
  have hsize'' : ((backupHeader t V d).readEntries ((backupHeader t V d).writeHead d)
      V.backupEntries).secSize = t.secSize := rfl
  rw [devRestore, BackupFits]
  cases V.rdErr V.backupHead gptHeadLbaCnt with
  | true => simp
  | false =>
    simp only [Bool.false_eq_true, if_false, forall_const]
    cases V.wrtErr gptHeadLba gptHeadLbaCnt with
    | true => simp
    | false =>
      simp only [Bool.false_eq_true, if_false, forall_const]
      have hreach : Within (l ++ [gptEntLbaCnt * t.secSize]) ↔ Within l := by
        rw [within_append, within_singleton, and_iff_left hfit]
      have hreach' : Within (l ++ [gptEntLbaCnt * t.secSize] ++ [gptEntLbaCnt * t.secSize]) ↔
          Within l := by
        rw [within_append, hreach, within_singleton, and_iff_left hfit]
      cases V.rdErr V.backupEntries gptEntLbaCnt with
      | true => exact hreach.trans (by simp)
      | false =>
        simp only [Bool.false_eq_true, if_false, forall_const]
        cases V.wrtErr gptEntLba gptEntLbaCnt with
        | true => exact hreach'.trans (by simp)
        | false =>
          simp only [Bool.false_eq_true, if_false, forall_const]
          refine (gptCheck_within (P := True) fun l => (and_iff_left trivial).symm).trans ?_
          rw [and_iff_left fun _ => trivial]
          exact and_congr hreach' Iff.rfl

theorem devRestore_keeps {V : GptDev} {l : List Nat} (h : Within (devRestore t V d l).reach) :
    Within l := by
  rw [devRestore] at h
  split at h
  · exact h
  · dsimp only at h
    split at h
    · exact h
    · split at h
      · exact (within_append.mp h).1
      · split at h
        · exact (within_append.mp (within_append.mp h).1).1
        · have hcheck := gptCheck_keeps (fun u l h => h) h
          exact (within_append.mp (within_append.mp hcheck).1).1

theorem devLoad_within (V : GptDev) :
    Within (devLoad t V d).reach ↔
      (V.rdErr 0 1 = false → (t.readMbr d).mbr 0x1c2 = 0xee →
        V.rdErr gptHeadLba gptHeadLbaCnt = false →
        t.secSize ≤ 512 ∧ (V.rdErr gptEntLba gptEntLbaCnt = false →
          CountFits (firstPair t d) ∧
            ((gptVerify (firstPair t d)).1 = false → BackupFits (firstPair t d) V d))) := by
  have hsize : ((t.readMbr d).readHead d gptHeadLba).secSize = t.secSize := rfl
  have hsize' : (firstPair t d).secSize = t.secSize := rfl
  rw [devLoad]
  cases V.rdErr 0 1 with
  | true => simp
  | false =>
    simp only [Bool.false_eq_true, if_false, forall_const]
    by_cases hmbr : (t.readMbr d).mbr 0x1c2 = 0xee
    · rw [if_neg (not_not.mpr hmbr), imp_iff_right hmbr]
      cases V.rdErr gptHeadLba gptHeadLbaCnt with
      | true => simp
      | false =>
        simp only [Bool.false_eq_true, if_false, forall_const]
        by_cases hle : t.secSize ≤ 512
        · have hfit : gptEntLbaCnt * t.secSize ≤ entriesSize := entries_fit_iff.mpr hle
          rw [and_iff_right hle]
          cases V.rdErr gptEntLba gptEntLbaCnt with
          | true => exact iff_of_true (within_singleton.mpr hfit) (by simp)
          | false =>
            simp only [Bool.false_eq_true, if_false, forall_const]
            have hle' : (firstPair t d).secSize ≤ 512 := hle
            refine (gptCheck_within (devRestore_within V hle')).trans ?_
            exact and_iff_right (within_singleton.mpr hfit)
        · refine iff_of_false (fun hwithin => hle ?_) fun h => hle h.1
          split at hwithin
          · exact entries_fit_iff.mp (within_singleton.mp hwithin)
          · have hkeeps := gptCheck_keeps (fun _ _ => devRestore_keeps) hwithin
            exact entries_fit_iff.mp (within_singleton.mp hkeeps)
    · rw [if_pos hmbr]
      simp [hmbr]

def writtenIndex (t : GptTable) : Option Nat := if t.version = 0 then none else some t.entriesCount

def EntryBounded (t : GptTable) (p : Part) : Prop :=
  (∀ i ∈ writtenIndex t, i < gptMaxEntries) ∧
    (gptMaxEntries ≤ t.entriesCount →
      gptAddEntryWithName t p.lbaNum p.lbaCnt p.partType p.name p.uuid = (false, t))

theorem addEntries_one_header (t : GptTable) (p : Part) :
    (addEntries t [p]).secSize = t.secSize ∧ (addEntries t [p]).version = t.version ∧
      (t.version ≠ 0 → (addEntries t [p]).entriesCount =
        if t.secSize ≤ gptPartTypeOff + t.entriesCount then t.entriesCount
        else (t.entriesCount + 1) % 256 ^ 4) := by
  rw [addEntries, List.foldl_cons, List.foldl_nil, gptAddEntryWithName]
  by_cases hver : t.version = 0
  · rw [if_pos hver]
    exact ⟨rfl, rfl, fun h => absurd hver h⟩
  · rw [if_neg hver]
    dsimp only
    by_cases hfull : t.secSize ≤ gptPartTypeOff + t.entriesCount
    · rw [if_pos hfull, if_pos hfull]
      exact ⟨rfl, rfl, fun _ => rfl⟩
    · rw [if_neg hfull, if_neg hfull]
      refine ⟨rfl, ?_, fun _ => getLE_putLE _ _ _ _⟩
      refine (getLE_putLE_outside _ _ _ _ (by decide)).trans (getLE_congr 4 fun i hi => ?_)
      exact Function.update_of_ne (by simp only [hdrVersion, gptPartTypeOff]; omega) _ _

theorem create_header {secSize secCnt firstLba uuid : Nat} (hcnt : secCnt ≠ 0)
    (hcreate : gptCreateAndInitWithLba secSize secCnt firstLba uuid = some t) :
    secSize ≤ gptMaxSecsize ∧ t.secSize = secSize ∧ t.version ≠ 0 ∧ t.entriesCount = 0 := by
  obtain ⟨hsize, hnew⟩ := created hcnt hcreate
  have hver : t.version ≠ 0 := by
    rw [hnew.version]
    decide
  exact ⟨hsize, hnew.secSize, hver, hnew.count⟩

theorem addEntries_count {secSize secCnt firstLba uuid : Nat} (hcnt : secCnt ≠ 0)
    (hcreate : gptCreateAndInitWithLba secSize secCnt firstLba uuid = some t) (ps : List Part) :
    (addEntries t ps).secSize = secSize ∧ (addEntries t ps).version ≠ 0 ∧
      (addEntries t ps).entriesCount = min ps.length (secSize - gptPartTypeOff) := by
  obtain ⟨hsize, hsecSize, hver, hzero⟩ := create_header hcnt hcreate
  rw [gptMaxSecsize] at hsize
  induction ps using List.reverseRecOn with
  | nil => exact ⟨hsecSize, hver, hzero.trans (Nat.zero_min _).symm⟩
  | append_singleton ps p ih =>
    obtain ⟨ihsize, ihver, ihcount⟩ := ih
    have happend : addEntries t (ps ++ [p]) = addEntries (addEntries t ps) [p] :=
      List.foldl_append
    obtain ⟨hsize', hver', hcount'⟩ := addEntries_one_header (addEntries t ps) p
    rw [happend, hsize', hver', hcount' ihver, ihsize, ihcount, List.length_append,
      List.length_singleton]
    refine ⟨rfl, ihver, ?_⟩
    rw [gptPartTypeOff]
    by_cases hfull : secSize ≤ 128 + min ps.length (secSize - 128)
    · rw [if_pos hfull]
      omega
    · rw [if_neg hfull, Nat.mod_eq_of_lt (by omega)]
      omega

theorem addEntries_bounded_iff {secSize secCnt firstLba uuid : Nat} (hcnt : secCnt ≠ 0)
    (hcreate : gptCreateAndInitWithLba secSize secCnt firstLba uuid = some t) (ps : List Part) :
    (∀ pre p post, ps = pre ++ p :: post → EntryBounded (addEntries t pre) p) ↔
      ps.length ≤ gptMaxEntries ∨ secSize < gptPartTypeOff + gptMaxEntries := by
  constructor
  · intro hall
    by_contra hmany
    rw [not_or, not_le, not_lt] at hmany
    obtain ⟨hlen, hroom⟩ := hmany
    have hsplit : ps = ps.take gptMaxEntries ++ ps[gptMaxEntries] :: ps.drop (gptMaxEntries + 1) := by
      rw [List.getElem_cons_drop, List.take_append_drop]
    obtain ⟨-, hver, hcount⟩ := addEntries_count hcnt hcreate (ps.take gptMaxEntries)
    have hindex : (addEntries t (ps.take gptMaxEntries)).entriesCount = gptMaxEntries := by
      rw [hcount, List.length_take]
      omega
    have hbound := (hall _ _ _ hsplit).1 gptMaxEntries (by simp [writtenIndex, hver, hindex])
    exact absurd hbound (lt_irrefl _)
  · rintro hfew pre p post rfl
    obtain ⟨-, hver, hcount⟩ := addEntries_count hcnt hcreate pre
    rw [List.length_append, List.length_cons] at hfew
    have hpos : 0 < gptMaxEntries := by decide
    have hlt : (addEntries t pre).entriesCount < gptMaxEntries := by
      rw [hcount]
      omega
    refine ⟨fun i hi => ?_, fun hle => absurd hlt (not_lt.mpr hle)⟩
    rw [writtenIndex, if_neg hver] at hi
    rwa [← Option.some.inj hi]

/-- What touches an entry behind the last one: a header that counts too many, in a file or in
either place of a device, sectors of more than 512 bytes, and a 129th partition. -/
theorem table_bounds_iff {new : GptTable} {secSize secCnt firstLba uuid : Nat}
    (preadErr : Nat → Nat → Bool) (V : GptDev) (hcnt : secCnt ≠ 0)
    (hcreate : gptCreateAndInitWithLba secSize secCnt firstLba uuid = some new) (ps : List Part) :
    (Within (gptPartitionLoad t preadErr d).reach ↔
      (preadErr 0 t.secSize = false → (t.readMbr d).mbr 0x1c2 = 0xee →
        preadErr (1 * t.secSize) t.secSize = false →
        preadErr (2 * t.secSize) entriesSize = false → CountFits (fileTable t d))) ∧
    (Within (devLoad t V d).reach ↔
      (V.rdErr 0 1 = false → (t.readMbr d).mbr 0x1c2 = 0xee →
        V.rdErr gptHeadLba gptHeadLbaCnt = false →
        t.secSize ≤ 512 ∧ (V.rdErr gptEntLba gptEntLbaCnt = false →
          CountFits (firstPair t d) ∧
            ((gptVerify (firstPair t d)).1 = false → BackupFits (firstPair t d) V d)))) ∧
    ((∀ pre p post, ps = pre ++ p :: post → EntryBounded (addEntries new pre) p) ↔
      ps.length ≤ gptMaxEntries ∨ secSize < gptPartTypeOff + gptMaxEntries) :=
  ⟨gptPartitionLoad_within preadErr, devLoad_within V, addEntries_bounded_iff hcnt hcreate ps⟩

/-! A table for 512-byte sectors, and a device with sectors of 4096 bytes on which every transfer
goes well. -/

def onePart : Part := ⟨2048, 2048, 0x0c, [], 0⟩

def okDev : GptDev := ⟨100000, fun _ _ => false, fun _ _ => false⟩

def protectiveDisk : Bytes := gptInitMbr zeros 100000

theorem table_holds_128 : ∃ new, gptCreateAndInitWithLba 512 100000 0 0 = some new ∧
    ∀ pre p post, List.replicate 128 onePart = pre ++ p :: post →
      EntryBounded (addEntries new pre) p := by
  obtain ⟨new, hcreate⟩ : ∃ new, gptCreateAndInitWithLba 512 100000 0 0 = some new := ⟨_, rfl⟩
  exact ⟨new, hcreate, (table_bounds_iff (t := new) (d := zeros) (fun _ _ => false) okDev
    (by decide) hcreate _).2.2.mpr (Or.inl (by rw [List.length_replicate, gptMaxEntries]))⟩

/-- The read of 32 sectors of 4096 bytes runs over the end of `GPT_entry`, and so does the entry of
a 129th partition. -/
theorem table_overrun :
    ¬ Within (devLoad ⟨4096, zeros, zeros, zeros⟩ okDev protectiveDisk).reach ∧
      ∃ new, gptCreateAndInitWithLba 512 100000 0 0 = some new ∧
        ¬ ∀ pre p post, List.replicate 129 onePart = pre ++ p :: post →
          EntryBounded (addEntries new pre) p := by
  constructor
  · intro hwithin
    have hsize := ((devLoad_within okDev).mp hwithin rfl (by decide) rfl).1
    exact absurd hsize (by decide)
  · obtain ⟨new, hcreate⟩ : ∃ new, gptCreateAndInitWithLba 512 100000 0 0 = some new := ⟨_, rfl⟩
    refine ⟨new, hcreate, fun hall => ?_⟩
    have hmany := (addEntries_bounded_iff (by decide) hcreate _).mp hall
    rw [List.length_replicate] at hmany
    exact absurd hmany (by decide)

end SylixOS.GptPartition
