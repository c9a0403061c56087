import SylixOS.GptBounds

/-! What a load of a GUID partition table from a block device leaves on the disk. -/

namespace SylixOS.GptPartition
open SylixOS.ByteBuffer

variable {t u : GptTable} {V : GptDev} {d : Bytes} {reach : List Nat}

def CrcConsistent (size : Nat) (d : Bytes) : Prop :=
  getLE 4 (advance d (gptHeadLba * size)) hdrCrc32 =
      gptCrc32 (putLE 4 0 (advance d (gptHeadLba * size)) hdrCrc32) headerSize ∧
    getLE 4 (advance d (gptHeadLba * size)) hdrEntriesCrc32 =
      gptCrc32 (advance d (gptEntLba * size))
        (getLE 4 (advance d (gptHeadLba * size)) hdrEntriesCount * entrySize)

def Agrees (u : GptTable) (d : Bytes) : Prop :=
  gptCrc32 u.entry (crcLength u.entriesCount) =
    gptCrc32 (advance d (gptEntLba * u.secSize)) (u.entriesCount * entrySize)

/-- A load that fails has changed nothing, and one that succeeds leaves a first pair with the right
checksums. -/
def LoadSafe (size : Nat) (d : Bytes) (o : Loaded) : Prop :=
  (o.ok = false → o.disk = d) ∧ (o.ok = true → CrcConsistent size o.disk)

def SameRun (size : Nat) (d : Bytes) (sec sec' cnt : Nat) : Prop :=
  ∀ i < cnt * size, d (sec * size + i) = d (sec' * size + i)

theorem consistent_iff (hblock : ∀ p < headerSize, u.block p = d (gptHeadLba * u.secSize + p))
    (hverify : (gptVerify u).1 = true) : CrcConsistent u.secSize d ↔ Agrees u d := by
  obtain ⟨hsound, hsound'⟩ := gptVerify_iff.mp hverify
  have hfield : ∀ pos, pos + 4 ≤ headerSize →
      getLE 4 (advance d (gptHeadLba * u.secSize)) pos = getLE 4 u.block pos :=
    fun pos hpos => getLE_congr 4 fun i hi => (hblock (pos + i) (by omega)).symm
  have hhead : gptCrc32 (putLE 4 0 (advance d (gptHeadLba * u.secSize)) hdrCrc32) headerSize =
      gptCrc32 (putLE 4 0 u.block hdrCrc32) headerSize := by
    refine gptCrc32_congr fun p hp => ?_
    rw [putLE, putLE, patch, patch]
    split
    · rfl
    · exact (hblock p hp).symm
  rw [CrcConsistent, hfield _ (by decide), hfield _ (by decide), hfield _ (by decide), hhead]
  exact ⟨fun h => hsound'.symm.trans h.2, fun h => ⟨hsound, hsound'.trans h⟩⟩

theorem gptCheck_safe {size : Nat} {alt : GptTable → List Nat → Loaded} {d' : Bytes} {P : Prop}
    (hsize : u.secSize = size)
    (hblock : ∀ p < headerSize, u.block p = d' (gptHeadLba * u.secSize + p))
    (halt : ∀ l, LoadSafe size d (alt (gptVerify u).2 l) ↔ P) :
    LoadSafe size d (gptCheck u d' reach alt) ↔
      ((gptVerify u).1 = true → Agrees u d') ∧ ((gptVerify u).1 = false → P) := by
  rw [gptCheck]
  cases hverify : (gptVerify u).1 with
  | true =>
    rw [if_pos rfl, LoadSafe, ← hsize]
    simp [consistent_iff hblock hverify]
  | false =>
    rw [if_neg Bool.false_ne_true, halt]
    simp

theorem safe_fail {size : Nat} (u : GptTable) (reach : List Nat) (d' : Bytes) :
    LoadSafe size d ⟨false, d', u, reach⟩ ↔ d' = d := by
  simp [LoadSafe]

theorem patch_run_eq_iff {size sec sec' cnt : Nat} {b : Bytes}
    (hb : ∀ i < cnt * size, b i = d (sec' * size + i)) :
    patch d (sec * size) (cnt * size) b = d ↔ SameRun size d sec sec' cnt := by
  constructor
  · intro heq i hi
    have hat := congrFun heq (sec * size + i)
    rw [patch_add _ _ hi, hb i hi] at hat
    exact hat.symm
  · intro hsame
    funext p
    by_cases hp : sec * size ≤ p ∧ p < sec * size + cnt * size
    · obtain ⟨i, rfl⟩ := Nat.exists_eq_add_of_le hp.1
      have hi : i < cnt * size := by omega
      rw [patch_add _ _ hi, hb i hi]
      exact (hsame i hi).symm
    · exact patch_outside _ _ (by omega)

def backupPair (t : GptTable) (V : GptDev) (d : Bytes) : GptTable :=
  (backupHeader t V d).readEntries ((backupHeader t V d).writeHead d) V.backupEntries

def restoredDisk (t : GptTable) (V : GptDev) (d : Bytes) : Bytes :=
  (backupPair t V d).writeEntries ((backupHeader t V d).writeHead d)

theorem backupPair_secSize : (backupPair t V d).secSize = t.secSize := rfl

theorem backupHeader_block {i : Nat} (hi : i < gptHeadLbaCnt * t.secSize) :
    (backupHeader t V d).block i = d (V.backupHead * t.secSize + i) :=
  patch_inside _ _ (Nat.zero_le i) (by rw [Nat.zero_add]; exact hi)

theorem backupPair_entry {i : Nat} (hi : i < gptEntLbaCnt * t.secSize) :
    (backupPair t V d).entry i =
      (backupHeader t V d).writeHead d (V.backupEntries * t.secSize + i) :=
  patch_inside _ _ (Nat.zero_le i) (by rw [Nat.zero_add]; exact hi)

theorem writeHead_eq_iff : (backupHeader t V d).writeHead d = d ↔
    SameRun t.secSize d gptHeadLba V.backupHead gptHeadLbaCnt :=
  patch_run_eq_iff fun _ hi => backupHeader_block hi

theorem restoredDisk_eq_iff : restoredDisk t V d = d ↔
    SameRun t.secSize d gptHeadLba V.backupHead gptHeadLbaCnt ∧
      SameRun t.secSize d gptEntLba V.backupEntries gptEntLbaCnt := by
  have hrun : (backupHeader t V d).writeHead d = d → (restoredDisk t V d = d ↔
      SameRun t.secSize d gptEntLba V.backupEntries gptEntLbaCnt) := by
    intro hhead
    rw [restoredDisk, GptTable.writeEntries, hhead]
    refine patch_run_eq_iff fun i hi => ?_
    have hentry := backupPair_entry (t := t) (V := V) (d := d) hi
    rwa [hhead] at hentry
  rw [← writeHead_eq_iff]
  constructor
  · intro heq
    have hhead : (backupHeader t V d).writeHead d = d := by
      funext p
      by_cases hp : p < gptEntLba * t.secSize
      · have hat := congrFun heq p
        rwa [restoredDisk, GptTable.writeEntries, backupPair_secSize,
          patch_outside _ _ (Or.inl hp)] at hat
      · -- the header lies in front of the entries
        have hsecSize : (backupHeader t V d).secSize = t.secSize := rfl
        rw [GptTable.writeHead, hsecSize]
        refine patch_outside _ _ (Or.inr ?_)
        rw [gptEntLba] at hp
        rw [gptHeadLba, gptHeadLbaCnt]
        omega
    exact ⟨hhead, (hrun hhead).mp heq⟩
  · rintro ⟨hhead, hent⟩
    exact (hrun hhead).mpr hent

theorem restoredDisk_head (hsize : headerSize ≤ t.secSize) {p : Nat} (hp : p < headerSize) :
    restoredDisk t V d (gptHeadLba * t.secSize + p) = (backupPair t V d).block p := by
  have hfront : gptHeadLba * t.secSize + p < gptEntLba * t.secSize := by
    rw [gptHeadLba, gptEntLba]
    omega
  have hlen : p < gptHeadLbaCnt * t.secSize := by
    rw [gptHeadLbaCnt]
    omega
  rw [restoredDisk, GptTable.writeEntries, backupPair_secSize, patch_outside _ _ (Or.inl hfront)]
  exact patch_add _ _ hlen

/-- A restore that goes through ends with a pair that verifies, and one that does not has copied
what was there. -/
def RestoreSafe (t : GptTable) (V : GptDev) (d : Bytes) : Prop :=
  V.rdErr V.backupHead gptHeadLbaCnt = false → V.wrtErr gptHeadLba gptHeadLbaCnt = false →
    (V.rdErr V.backupEntries gptEntLbaCnt = true ∨ V.wrtErr gptEntLba gptEntLbaCnt = true →
      SameRun t.secSize d gptHeadLba V.backupHead gptHeadLbaCnt) ∧
    (V.rdErr V.backupEntries gptEntLbaCnt = false → V.wrtErr gptEntLba gptEntLbaCnt = false →
      ((gptVerify (backupPair t V d)).1 = true →
        Agrees (backupPair t V d) (restoredDisk t V d)) ∧
      ((gptVerify (backupPair t V d)).1 = false →
        SameRun t.secSize d gptHeadLba V.backupHead gptHeadLbaCnt ∧
          SameRun t.secSize d gptEntLba V.backupEntries gptEntLbaCnt))

theorem devRestore_safe (hsize : headerSize ≤ t.secSize) (l : List Nat) :
    LoadSafe t.secSize d (devRestore (gptVerify t).2 V d l) ↔ RestoreSafe t V d := by
  rw [devRestore, RestoreSafe]
  cases V.rdErr V.backupHead gptHeadLbaCnt with
  | true => simp [safe_fail]
  | false =>
    simp only [Bool.false_eq_true, if_false, forall_const]
    cases V.wrtErr gptHeadLba gptHeadLbaCnt with
    | true => simp [safe_fail]
    | false =>
      simp only [Bool.false_eq_true, if_false, forall_const]
      cases V.rdErr V.backupEntries gptEntLbaCnt with
      | true =>
        refine (safe_fail _ _ _).trans (writeHead_eq_iff.trans ?_)
        simp
      | false =>
        simp only [Bool.false_eq_true, if_false, forall_const]
        cases V.wrtErr gptEntLba gptEntLbaCnt with
        | true =>
          refine (safe_fail _ _ _).trans (writeHead_eq_iff.trans ?_)
          simp
        | false =>
          simp only [Bool.false_eq_true, if_false, forall_const, or_self, false_imp_iff, true_and]
          refine gptCheck_safe rfl (fun p hp => ?_) fun l => ?_
          · exact (restoredDisk_head hsize hp).symm
          · exact (safe_fail _ _ _).trans restoredDisk_eq_iff

/-- `API_GptPartitionBlkLoad` leaves the disk alone when it fails, and a consistent first pair
when it succeeds, exactly if the first pair verifies, or the backup pair is not copied, or copied
to the end and verifies, or copied onto itself. -/
theorem devLoad_safe_iff (hsize : headerSize ≤ t.secSize) :
    LoadSafe t.secSize d (devLoad t V d) ↔
      (V.rdErr 0 1 = false → (t.readMbr d).mbr 0x1c2 = 0xee →
        V.rdErr gptHeadLba gptHeadLbaCnt = false → V.rdErr gptEntLba gptEntLbaCnt = false →
        ((gptVerify (firstPair t d)).1 = true → Agrees (firstPair t d) d) ∧
          ((gptVerify (firstPair t d)).1 = false → RestoreSafe (firstPair t d) V d)) := by
  rw [devLoad]
  cases V.rdErr 0 1 with
  | true => simp [safe_fail]
  | false =>
    simp only [Bool.false_eq_true, if_false, forall_const]
    by_cases hmbr : (t.readMbr d).mbr 0x1c2 = 0xee
    · rw [if_neg (not_not.mpr hmbr), imp_iff_right hmbr]
      cases V.rdErr gptHeadLba gptHeadLbaCnt with
      | true => simp [safe_fail]
      | false =>
        simp only [Bool.false_eq_true, if_false, forall_const]
        cases V.rdErr gptEntLba gptEntLbaCnt with
        | true => simp [safe_fail]
        | false =>
          simp only [Bool.false_eq_true, if_false, forall_const]
          have hsize' : headerSize ≤ (firstPair t d).secSize := hsize
          have hrestore := fun l => devRestore_safe (V := V) (d := d) hsize' l
          refine gptCheck_safe rfl (fun p hp => ?_) hrestore
          have hlen : p < 0 + gptHeadLbaCnt * t.secSize := by
            rw [gptHeadLbaCnt]
            omega
          exact patch_inside _ _ (Nat.zero_le p) hlen
    · rw [if_pos hmbr]
      simp [hmbr, safe_fail]

def usedDisk : Bytes := Function.update protectiveDisk (99999 * 512 + 200) 0xaa

def emptyTable : GptTable := ⟨512, zeros, zeros, zeros⟩

def savedDisk (t : GptTable) : Bytes :=
  patch (patch protectiveDisk 512 512 (gptSerial t).block) 1024 (32 * 512) (gptSerial t).entry

theorem savedDisk_entries {p : Nat} (hp : p < 32 * 512) : savedDisk t (1024 + p) = t.entry p :=
  patch_add _ _ hp

theorem firstPair_saved {p : Nat} :
    (p < 512 → (firstPair emptyTable (savedDisk t)).block p = (gptSerial t).block p) ∧
      (p < 32 * 512 → (firstPair emptyTable (savedDisk t)).entry p = t.entry p) := by
  have hhead : ∀ b : Bytes, p < 512 → patch zeros 0 (1 * 512) b p = b p := fun b hp =>
    patch_inside _ _ (Nat.zero_le p) (by omega)
  have hentries : ∀ b : Bytes, p < 32 * 512 → patch zeros 0 (32 * 512) b p = b p := fun b hp =>
    patch_inside _ _ (Nat.zero_le p) (by omega)
  refine ⟨fun hp => (hhead _ hp).trans ?_, fun hp => (hentries _ hp).trans ?_⟩
  · have hfront : 512 + p < 1024 := by omega
    exact (patch_outside _ _ (Or.inl hfront)).trans (patch_add _ _ hp)
  · exact savedDisk_entries hp

theorem firstPair_saved_crc :
    gptCrc32 (firstPair emptyTable (savedDisk t)).entry (gptMaxEntries * entrySize) =
      gptCrc32 t.entry (gptMaxEntries * entrySize) :=
  gptCrc32_congr fun _ hp => firstPair_saved.2 hp

theorem firstPair_saved_verify : (gptVerify (firstPair emptyTable (savedDisk t))).1 = true := by
  rw [gptVerify_fst fun _ hp => firstPair_saved.1 hp, firstPair_saved_crc]
  exact decide_eq_true rfl

theorem firstPair_saved_agrees : Agrees (firstPair emptyTable (savedDisk t)) (savedDisk t) := by
  have hcount : (firstPair emptyTable (savedDisk t)).entriesCount = gptMaxEntries := by
    rw [← zeroed_entriesCount fun _ hp => firstPair_saved.1 hp]
    exact (getLE_putLE_outside _ _ _ _ (by decide)).symm
  have hstart : gptEntLba * (firstPair emptyTable (savedDisk t)).secSize = 1024 := rfl
  rw [Agrees, hcount, hstart]
  refine firstPair_saved_crc.trans (gptCrc32_congr fun _ hp => ?_)
  rw [advance, savedDisk_entries hp]

theorem savedDisk_mbr : (emptyTable.readMbr (savedDisk t)).mbr 0x1c2 = 0xee := by
  have hlen : 0x1c2 < 0 + 1 * emptyTable.secSize := by decide
  rw [GptTable.readMbr]
  dsimp only
  rw [patch_inside _ _ (Nat.zero_le _) hlen, advance, Nat.zero_mul, Nat.zero_add, Nat.sub_zero,
    savedDisk, patch_outside _ _ (Or.inl (by decide)), patch_outside _ _ (Or.inl (by decide))]
  decide +kernel

theorem devLoad_first (hrd : ∀ sec cnt, V.rdErr sec cnt = false)
    (hmbr : (t.readMbr d).mbr 0x1c2 = 0xee) (hfirst : (gptVerify (firstPair t d)).1 = true) :
    (devLoad t V d).ok = true := by
  rw [devLoad, hrd, if_neg Bool.false_ne_true]
  dsimp only
  rw [if_neg (not_not.mpr hmbr), hrd, if_neg Bool.false_ne_true, hrd, if_neg Bool.false_ne_true,
    gptCheck]
  exact congrArg Loaded.ok (if_pos hfirst)

/-- The first pair of the disk verifies. -/
theorem load_safe_saved :
    (devLoad emptyTable okDev (savedDisk (onePartition 10 0x0b))).ok = true ∧
      LoadSafe 512 (savedDisk (onePartition 10 0x0b))
        (devLoad emptyTable okDev (savedDisk (onePartition 10 0x0b))) :=
  ⟨devLoad_first (fun _ _ => rfl) savedDisk_mbr firstPair_saved_verify,
    (devLoad_safe_iff (by decide : headerSize ≤ emptyTable.secSize)).mpr fun _ _ _ _ =>
      ⟨fun _ => firstPair_saved_agrees,
        fun hfail => absurd (firstPair_saved_verify.symm.trans hfail) (by decide)⟩⟩

theorem crcRegs_zeros_add (m n : Nat) : crcRegs zeros (m + n) =
    (List.range n).foldl (fun regs _ => crcByte regs 0) (crcRegs zeros m) := by
  induction n with
  | zero => rfl
  | succ n ih =>
    rw [← Nat.add_assoc, crcRegs_succ, ih, List.range_succ, List.foldl_append]
    rfl

theorem zeros_unsound {u : GptTable} (hzero : ∀ p < headerSize, u.block p = 0) :
    (gptVerify u).1 = false := by
  have hhalf : crcRegs zeros 46 = 686752063 := by decide +kernel
  have hregs : crcRegs zeros 92 = 412832444 := by
    rw [crcRegs_zeros_add 46 46, hhalf]
    decide +kernel
  have hcrc : gptCrc32 zeros headerSize ≠ 0 := by
    rw [gptCrc32, headerSize, hregs]
    decide +kernel
  have hcrc' : gptCrc32 (putLE 4 0 u.block hdrCrc32) headerSize = gptCrc32 zeros headerSize := by
    refine gptCrc32_congr fun p hp => ?_
    rw [putLE, patch]
    split
    · simp [leByte, zeros]
    · exact hzero p hp
  have hfield : getLE 4 u.block hdrCrc32 = 0 := by
    have hread : getLE 4 u.block hdrCrc32 = getLE 4 zeros 0 :=
      getLE_congr 4 fun i hi => hzero _ (by rw [headerSize, hdrCrc32]; omega)
    exact hread
  rw [Bool.eq_false_iff]
  intro hverify
  have hsound : getLE 4 u.block hdrCrc32 = _ := (gptVerify_iff.mp hverify).1
  rw [hfield, hcrc'] at hsound
  exact hcrc hsound.symm

theorem devLoad_restored (hrd : ∀ sec cnt, V.rdErr sec cnt = false)
    (hwrt : ∀ sec cnt, V.wrtErr sec cnt = false) (hmbr : (t.readMbr d).mbr 0x1c2 = 0xee)
    (hfirst : (gptVerify (firstPair t d)).1 = false)
    (hbackup : (gptVerify (backupPair (firstPair t d) V d)).1 = false) :
    (devLoad t V d).ok = false ∧ (devLoad t V d).disk = restoredDisk (firstPair t d) V d := by
  have hcheck : ∀ {u : GptTable} {d : Bytes} {reach : List Nat}
      {alt : GptTable → List Nat → Loaded}, (gptVerify u).1 = false →
      gptCheck u d reach alt = alt (gptVerify u).2 (reach ++ verifyReach u) := by
    intro u d reach alt hu
    rw [gptCheck, hu]
    rfl
  have hload : ∃ reach, devLoad t V d = devRestore (gptVerify (firstPair t d)).2 V d reach := by
    rw [devLoad, hrd, if_neg Bool.false_ne_true]
    dsimp only
    rw [if_neg (not_not.mpr hmbr), hrd, if_neg Bool.false_ne_true, hrd, if_neg Bool.false_ne_true]
    exact ⟨_, hcheck hfirst⟩
  have hrestore : ∀ l, ∃ u reach, devRestore (gptVerify (firstPair t d)).2 V d l =
      ⟨false, restoredDisk (firstPair t d) V d, u, reach⟩ := by
    intro l
    rw [devRestore, hrd, if_neg Bool.false_ne_true]
    dsimp only
    rw [hwrt, if_neg Bool.false_ne_true, hrd, if_neg Bool.false_ne_true, hwrt,
      if_neg Bool.false_ne_true]
    exact ⟨_, _, hcheck hbackup⟩
  obtain ⟨reach, hload⟩ := hload
  obtain ⟨u, reach', hrestore⟩ := hrestore reach
  rw [hload, hrestore]
  exact ⟨rfl, rfl⟩

/-- The last sector is copied over sector 1 before it is found to be no header. -/
theorem load_overwrites_sector :
    (devLoad emptyTable okDev usedDisk).ok = false ∧
      (devLoad emptyTable okDev usedDisk).disk (512 + 200) = 0xaa ∧ usedDisk (512 + 200) = 0 ∧
      ¬ LoadSafe 512 usedDisk (devLoad emptyTable okDev usedDisk) := by
  have hmbr : (emptyTable.readMbr usedDisk).mbr 0x1c2 = 0xee := by decide +kernel
  have hempty : ∀ p < headerSize, usedDisk (512 + p) = 0 ∧ usedDisk (99999 * 512 + p) = 0 := by
    decide +kernel
  have hfirst : (gptVerify (firstPair emptyTable usedDisk)).1 = false := by
    refine zeros_unsound fun p hp => ?_
    have hlen : p < 0 + gptHeadLbaCnt * 512 := hp.trans (by decide)
    have hblock : (firstPair emptyTable usedDisk).block p = advance usedDisk 512 (p - 0) :=
      patch_inside _ _ (Nat.zero_le p) hlen
    rw [hblock]
    exact (hempty p hp).1
  have hbackup : (gptVerify (backupPair (firstPair emptyTable usedDisk) okDev usedDisk)).1 =
      false := by
    refine zeros_unsound fun p hp => ?_
    have hlen : p < gptHeadLbaCnt * 512 := hp.trans (by decide)
    have hblock := backupHeader_block (t := firstPair emptyTable usedDisk) (V := okDev)
      (d := usedDisk) hlen
    have hsec : okDev.backupHead * (firstPair emptyTable usedDisk).secSize = 99999 * 512 := rfl
    rw [hsec, (hempty p hp).2] at hblock
    exact hblock
  obtain ⟨hok, hdisk⟩ := devLoad_restored (V := okDev) (fun _ _ => rfl) (fun _ _ => rfl) hmbr hfirst
    hbackup
  have hafter : restoredDisk (firstPair emptyTable usedDisk) okDev usedDisk (512 + 200) = 0xaa := by
    decide +kernel
  have hbefore : usedDisk (512 + 200) = 0 := by decide +kernel
  refine ⟨hok, hdisk ▸ hafter, hbefore, fun hsafe => ?_⟩
  have heq := congrFun (hsafe.1 hok) (512 + 200)
  rw [hdisk, hafter, hbefore] at heq
  exact absurd heq (by decide)

end SylixOS.GptPartition
