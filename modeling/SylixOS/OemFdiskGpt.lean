import SylixOS.OemFdiskMbr

/-! The GUID partition table that `__oemGptFdisk` writes, read back. -/

namespace SylixOS.OemFdisk
open SylixOS.ByteBuffer SylixOS.SectorDevice SylixOS.GptPartition Function

def gptNSec (ulTotalSec align lastLba next : Nat) (p : OemfdiskPart) : Nat :=
  roundDown (min (gptWanted ulTotalSec (lastLba - next) p) (lastLba - next)) align

def NoWrap (ulTotalSec align lastLba : Nat) : List OemfdiskPart → (next : Nat) → Prop
  | [], _ => True
  | p :: ps, next => next + gptWanted ulTotalSec (lastLba - next) p < 2 ^ 64 ∧
    (p.szPct ≠ 0 →
      NoWrap ulTotalSec align lastLba ps (next + gptNSec ulTotalSec align lastLba next p))

section Plan

variable {total align last next left : Nat} {ps : List OemfdiskPart} {plan : List PartSec}

theorem roundDown_le (x align : Nat) : roundDown x align ≤ x := Nat.div_mul_le_self x align

theorem lt_roundDown_add {align : Nat} (x : Nat) (h : 0 < align) :
    x < roundDown x align + align := Nat.lt_div_mul_add h

theorem le_roundUp {align : Nat} (x : Nat) (h : 0 < align) : x ≤ roundUp x align := by
  have hlt := Nat.lt_div_mul_add (a := x + (align - 1)) h
  rw [roundUp]
  omega

theorem align_le_roundUp {x align : Nat} (hx : 0 < x) (h : 0 < align) :
    align ≤ roundUp x align := by
  have hpos : 1 ≤ (x + (align - 1)) / align := (Nat.one_le_div_iff h).mpr (by omega)
  calc align = 1 * align := (Nat.one_mul align).symm
    _ ≤ (x + (align - 1)) / align * align := Nat.mul_le_mul_right align hpos

theorem gptPlan_next_le (h : gptPlan total align last (p :: ps) next left = some plan) :
    next ≤ last := by
  rw [gptPlan] at h
  split at h
  · exact nomatch h
  · omega

theorem gptPlan_cons {p : OemfdiskPart} (hlast : last < 2 ^ 64) (hleft : left = last - next)
    (hfits : next + gptWanted total (last - next) p < 2 ^ 64)
    (h : gptPlan total align last (p :: ps) next left = some plan) :
    next ≤ last ∧ (p.szPct = 0 ∧ plan = [⟨p, next, gptNSec total align last next p⟩] ∨
      p.szPct ≠ 0 ∧ ∃ rest, plan = ⟨p, next, gptNSec total align last next p⟩ :: rest ∧
        gptPlan total align last ps (next + gptNSec total align last next p)
          (last - (next + gptNSec total align last next p)) = some rest) := by
  have hle := gptPlan_next_le h
  have hcut : (if last < (next + gptWanted total left p) % 2 ^ 64 then last - next
      else gptWanted total left p) = min (gptWanted total (last - next) p) (last - next) := by
    rw [hleft, Nat.mod_eq_of_lt hfits]
    split <;> omega
  have hn : gptNSec total align last next p ≤ last - next :=
    (roundDown_le _ _).trans (Nat.min_le_right _ _)
  rw [gptPlan, if_neg (not_lt.mpr hle)] at h
  dsimp only at h
  rw [hcut, ← gptNSec] at h
  refine ⟨hle, ?_⟩
  by_cases hzero : p.szPct = 0
  · rw [if_pos hzero] at h
    exact Or.inl ⟨hzero, (Option.some.inj h).symm⟩
  · have hnext : (next + gptNSec total align last next p) % 2 ^ 64 =
        next + gptNSec total align last next p := Nat.mod_eq_of_lt (by omega)
    have hrest : (left + 2 ^ 64 - gptNSec total align last next p) % 2 ^ 64 =
        last - (next + gptNSec total align last next p) := by
      rw [hleft]
      omega
    rw [if_neg hzero, hnext, hrest] at h
    obtain ⟨rest, hplan, rfl⟩ := Option.map_eq_some_iff.mp h
    exact Or.inr ⟨hzero, rest, rfl, hplan⟩

theorem gptPlan_spec (hlast : last < 2 ^ 64) (hwrap : NoWrap total align last ps next)
    (h : gptPlan total align last ps next (last - next) = some plan) :
    Laid next plan ∧ ∀ p ∈ plan, p.startSec ≤ last ∧ p.startSec + p.nSec ≤ last := by
  induction ps generalizing next plan with
  | nil =>
    obtain rfl := Option.some.inj h
    exact ⟨trivial, fun p hp => absurd hp List.not_mem_nil⟩
  | cons p ps ih =>
    have hn : gptNSec total align last next p ≤ last - next :=
      (roundDown_le _ _).trans (Nat.min_le_right _ _)
    obtain ⟨hle, hcases⟩ := gptPlan_cons hlast rfl hwrap.1 h
    rcases hcases with ⟨-, rfl⟩ | ⟨hne, rest, rfl, hrest⟩
    · refine ⟨⟨rfl, trivial⟩, fun q hq => ?_⟩
      obtain rfl := List.mem_singleton.mp hq
      exact ⟨hle, by dsimp only; omega⟩
    · obtain ⟨hlaid, hinside⟩ := ih (hwrap.2 hne) hrest
      refine ⟨⟨rfl, hlaid⟩, fun q hq => ?_⟩
      rcases List.mem_cons.mp hq with rfl | hq
      · exact ⟨hle, by dsimp only; omega⟩
      · exact hinside q hq

theorem gptPlan_wraps (hlast : last < total) (htotal : total < 2 ^ 32) (halign : 0 < align)
    (hnext : align ≤ next) (hwrap : ¬NoWrap total align last ps next)
    (h : gptPlan total align last ps next (last - next) = some plan) :
    ∃ p ∈ plan, p.Covers total := by
  induction ps generalizing next plan with
  | nil => exact absurd trivial hwrap
  | cons p ps ih =>
    by_cases hfits : next + gptWanted total (last - next) p < 2 ^ 64
    · obtain ⟨hle, hcases⟩ := gptPlan_cons (by omega) rfl hfits h
      have hrest : p.szPct ≠ 0 ∧
          ¬NoWrap total align last ps (next + gptNSec total align last next p) := by
        by_contra hnot
        refine hwrap ⟨hfits, fun hne => ?_⟩
        by_contra hdeep
        exact hnot ⟨hne, hdeep⟩
      rcases hcases with ⟨hzero, -⟩ | ⟨-, rest, rfl, hplan⟩
      · exact absurd hzero hrest.1
      · obtain ⟨q, hq, hcovers⟩ := ih (hnext.trans (Nat.le_add_right _ _)) hrest.2 hplan
        exact ⟨q, List.mem_cons_of_mem _ hq, hcovers⟩
    · have hle := gptPlan_next_le h
      have hbits : gptWanted total (last - next) p < 2 ^ 64 := by
        rw [gptWanted]
        split
        · omega
        · split
          · exact Nat.mod_lt _ (by decide)
          · rename_i _ hpct
            have hmul : total * p.szPct ≤ total * 100 := Nat.mul_le_mul_left _ (by omega)
            omega
      have hcut : ¬last < (next + gptWanted total (last - next) p) % 2 ^ 64 := by omega
      have hlarge := lt_roundDown_add (gptWanted total (last - next) p) halign
      have hcovers : ∀ q : PartSec, q.startSec = next →
          q.nSec = roundDown (gptWanted total (last - next) p) align → q.Covers total := by
        intro q hstart hsize
        refine ⟨by omega, ?_⟩
        rw [hstart, hsize]
        omega
      rw [gptPlan, if_neg (not_lt.mpr hle)] at h
      dsimp only at h
      rw [if_neg hcut] at h
      split at h
      · obtain rfl := Option.some.inj h
        exact ⟨_, List.mem_cons_self, hcovers _ rfl rfl⟩
      · obtain ⟨rest, -, rfl⟩ := Option.map_eq_some_iff.mp h
        exact ⟨_, List.mem_cons_self, hcovers _ rfl rfl⟩

theorem gptPlan_takes (h : gptPlan total align last ps next left = some plan) : Takes ps plan := by
  induction ps generalizing next left plan with
  | nil =>
    obtain rfl := Option.some.inj h
    exact ⟨fun p hp => absurd hp List.not_mem_nil, Nat.le_refl _, rfl⟩
  | cons p ps ih =>
    rw [gptPlan] at h
    split at h
    · exact nomatch h
    · dsimp only at h
      split at h
      · obtain rfl := Option.some.inj h
        exact Takes.one p ps _ _
      · obtain ⟨rest, hrest, rfl⟩ := Option.map_eq_some_iff.mp h
        exact (ih hrest).cons p _ _

end Plan

section Entries

variable {t t' : GptTable} {uuid : Nat → Nat}

theorem gptAdd_block (t : GptTable) (lbaNum lbaCnt : Nat) (ty : UInt8) (name : List Nat)
    (id : Nat) {w pos : Nat} (hpos : pos + w ≤ hdrEntriesCount) :
    getLE w (gptAddEntryWithName t lbaNum lbaCnt ty name id).2.block pos = getLE w t.block pos := by
  rw [gptAddEntryWithName]
  split
  · rfl
  · dsimp only
    split
    · rfl
    · apply getLE_congr
      intro i hi
      simp only [hdrEntriesCount] at hpos
      dsimp only
      rw [putLE_outside _ _ _ (by simp only [hdrEntriesCount]; omega),
        update_of_ne (by simp only [gptPartTypeOff]; omega)]

def entryFields (lbaNum lbaCnt : Nat) (ty : UInt8) (name : List Nat) (id iIndex : Nat) :
    List (Nat × Nat) :=
  [(16, if ty = diskPartTypeEfi then gptPartTypeEfi else gptPartTypeData), (16, id), (8, lbaNum),
    (8, lbaNum + lbaCnt + 2 ^ 64 - 1), (8, 0)] ++ (entryName name iIndex).map fun c => (2, c)

def withEntry (t : GptTable) (lbaNum lbaCnt : Nat) (ty : UInt8) (name : List Nat) (id : Nat) :
    GptTable :=
  { t with
    entry := putFields t.entry (t.entriesCount * entrySize)
      (entryFields lbaNum lbaCnt ty name id t.entriesCount)
    block := putLE 4 (t.entriesCount + 1)
      (update t.block (gptPartTypeOff + t.entriesCount) ty) hdrEntriesCount }

variable {lbaNum lbaCnt : Nat} {ty : UInt8} {name : List Nat} {id : Nat}

theorem gptAdd_eq (hadd : (gptAddEntryWithName t lbaNum lbaCnt ty name id).1 = true) :
    t.version ≠ 0 ∧
      (gptAddEntryWithName t lbaNum lbaCnt ty name id).2 =
        withEntry t lbaNum lbaCnt ty name id := by
  rw [gptAddEntryWithName] at hadd ⊢
  split at hadd
  · exact absurd hadd Bool.false_ne_true
  · rename_i hver
    rw [if_neg hver]
    dsimp only at hadd ⊢
    split at hadd
    · exact absurd hadd Bool.false_ne_true
    · rename_i hfits
      rw [if_neg hfits]
      exact ⟨hver, rfl⟩

theorem entryFields_lba (b : Bytes) (pos lbaNum lbaCnt : Nat) (ty : UInt8) (name : List Nat)
    (id iIndex : Nat) :
    getLE 8 (putFields b pos (entryFields lbaNum lbaCnt ty name id iIndex)) (pos + 32) =
        lbaNum % 2 ^ 64 ∧
      getLE 8 (putFields b pos (entryFields lbaNum lbaCnt ty name id iIndex)) (pos + 40) =
        (lbaNum + lbaCnt + 2 ^ 64 - 1) % 2 ^ 64 := by
  have hpow : (256 : Nat) ^ 8 = 2 ^ 64 := by decide
  have hfields := getFields_putFields b pos (entryFields lbaNum lbaCnt ty name id iIndex)
  generalize putFields b pos (entryFields lbaNum lbaCnt ty name id iIndex) = c at hfields ⊢
  simp only [entryFields, List.cons_append, List.nil_append, List.map_cons, getFields,
    List.cons.injEq] at hfields
  rw [← hpow]
  exact ⟨hfields.2.2.1, hfields.2.2.2.1⟩

theorem withEntry_entry : (withEntry t lbaNum lbaCnt ty name id).entry =
    putFields t.entry (t.entriesCount * entrySize)
      (entryFields lbaNum lbaCnt ty name id t.entriesCount) := by
  rw [withEntry]

theorem withEntry_count (hc : t.entriesCount < 128) :
    (withEntry t lbaNum lbaCnt ty name id).entriesCount = t.entriesCount + 1 := by
  rw [GptTable.entriesCount, withEntry, getLE_putLE]
  exact Nat.mod_eq_of_lt (by omega)

theorem withEntry_version : (withEntry t lbaNum lbaCnt ty name id).version = t.version := by
  apply getLE_congr
  intro i hi
  simp only [withEntry, hdrVersion]
  rw [putLE_outside _ _ _ (by simp only [hdrEntriesCount]; omega),
    update_of_ne (by simp only [gptPartTypeOff]; omega)]

theorem withEntry_old (hc : t.entriesCount < 128) (hver : t.version ≠ 0) {i : Nat}
    (hi : i < t.entriesCount) :
    gptGetEntry (withEntry t lbaNum lbaCnt ty name id) i = gptGetEntry t i := by
  have hbytes : ∀ {off}, off + 8 ≤ 128 →
      getLE 8 (withEntry t lbaNum lbaCnt ty name id).entry (i * entrySize + off) =
        getLE 8 t.entry (i * entrySize + off) := by
    intro off hoff
    apply getLE_congr
    intro j hj
    apply putFields_outside
    simp only [entrySize]
    omega
  have htype : (withEntry t lbaNum lbaCnt ty name id).block (gptPartTypeOff + i) =
      t.block (gptPartTypeOff + i) := by
    rw [withEntry]
    dsimp only
    rw [putLE_outside _ _ _ (by simp only [gptPartTypeOff, hdrEntriesCount]; omega),
      update_of_ne (by omega)]
  have hnew : ¬((withEntry t lbaNum lbaCnt ty name id).version = 0 ∨
      (withEntry t lbaNum lbaCnt ty name id).entriesCount ≤ i) := by
    rw [withEntry_version, withEntry_count hc, not_or]
    exact ⟨hver, by omega⟩
  have hold : ¬(t.version = 0 ∨ t.entriesCount ≤ i) := not_or.mpr ⟨hver, not_le.mpr hi⟩
  rw [gptGetEntry, gptGetEntry, if_neg hnew, if_neg hold, entFirstLba, entLastLba,
    hbytes (by decide), hbytes (by decide), htype, entFirstLba, entLastLba]

theorem lba_len {first cnt : Nat} (h : first < 2 ^ 64) (h' : cnt < 2 ^ 64) :
    ((first + cnt + 2 ^ 64 - 1) % 2 ^ 64 + 2 ^ 64 - first + 1) % 2 ^ 64 = cnt := by
  omega

theorem withEntry_new (hc : t.entriesCount < 128) (hver : t.version ≠ 0) (hnum : lbaNum < 2 ^ 64)
    (hcnt : lbaCnt < 2 ^ 64) :
    gptGetEntry (withEntry t lbaNum lbaCnt ty name id) t.entriesCount =
      some (lbaNum, lbaCnt, ty) := by
  obtain ⟨hfirst, hlast⟩ := entryFields_lba t.entry (t.entriesCount * entrySize) lbaNum lbaCnt ty
    name id t.entriesCount
  have htype : (withEntry t lbaNum lbaCnt ty name id).block (gptPartTypeOff + t.entriesCount) =
      ty := by
    rw [withEntry]
    dsimp only
    rw [putLE_outside _ _ _ (by simp only [gptPartTypeOff, hdrEntriesCount]; omega),
      update_self]
  have hnew : ¬((withEntry t lbaNum lbaCnt ty name id).version = 0 ∨
      (withEntry t lbaNum lbaCnt ty name id).entriesCount ≤ t.entriesCount) := by
    rw [withEntry_version, withEntry_count hc, not_or]
    exact ⟨hver, by omega⟩
  rw [gptGetEntry, if_neg hnew, htype, withEntry_entry, entFirstLba, entLastLba, hfirst, hlast,
    Nat.mod_eq_of_lt hnum, lba_len hnum hcnt]

theorem withEntry_partitions (hc : t.entriesCount < 128) (hver : t.version ≠ 0)
    (hnum : lbaNum < 2 ^ 64) (hcnt : lbaCnt < 2 ^ 64) :
    (withEntry t lbaNum lbaCnt ty name id).partitions =
      t.partitions ++ [some (lbaNum, lbaCnt, ty)] := by
  have hold : (List.range t.entriesCount).map
      (gptGetEntry (withEntry t lbaNum lbaCnt ty name id)) = t.partitions :=
    List.map_congr_left fun i hi => withEntry_old hc hver (List.mem_range.mp hi)
  rw [GptTable.partitions, withEntry_count hc, List.range_succ, List.map_append,
    List.map_singleton, withEntry_new hc hver hnum hcnt, hold]

def PartSec.entry (p : PartSec) : Option (Nat × Nat × UInt8) :=
  some (p.startSec, p.nSec, p.part.partType)

theorem gptAddAll_spec {n : Nat} {plan : List PartSec} (hbuild : Building n t)
    (hc : t.entriesCount + plan.length ≤ 128)
    (hplan : ∀ p ∈ plan, 0 < p.startSec ∧ p.startSec < 2 ^ 64 ∧ p.nSec < 2 ^ 64)
    (h : gptAddAll uuid t plan = some t') :
    Building n t' ∧ t'.entriesCount = t.entriesCount + plan.length ∧
      t'.partitions = t.partitions ++ plan.map PartSec.entry := by
  induction plan generalizing t with
  | nil =>
    obtain rfl := Option.some.inj h
    exact ⟨hbuild, rfl, (List.append_nil _).symm⟩
  | cons p plan ih =>
    rw [List.length_cons] at hc
    obtain ⟨hstart, hstart', hsize⟩ := hplan p List.mem_cons_self
    rw [gptAddAll] at h
    split at h
    · rename_i hadd
      obtain ⟨hver, heq⟩ := gptAdd_eq hadd
      have hnum : p.startSec % 2 ^ 64 ≠ 0 := by
        rw [Nat.mod_eq_of_lt hstart']
        exact Nat.ne_of_gt hstart
      obtain ⟨hone, hcount⟩ := hbuild.add (by omega)
        (p := ⟨p.startSec, p.nSec, p.part.partType, p.part.name, uuid t.entriesCount⟩) hnum
      have hadded : GptPartition.addEntries t
          [⟨p.startSec, p.nSec, p.part.partType, p.part.name, uuid t.entriesCount⟩] =
          (gptAddEntryWithName t p.startSec p.nSec p.part.partType p.part.name
            (uuid t.entriesCount)).2 := rfl
      rw [hadded] at hone hcount
      obtain ⟨hall, hlen, hparts⟩ := ih hone (by omega)
        (fun q hq => hplan q (List.mem_cons_of_mem _ hq)) h
      refine ⟨hall, by rw [hlen, hcount, List.length_cons]; omega, ?_⟩
      rw [hparts, heq, withEntry_partitions (by omega) hver hstart' hsize, List.append_assoc]
      rfl
    · exact nomatch h

theorem gptAddAll_block {plan : List PartSec} {w pos : Nat} (hpos : pos + w ≤ hdrEntriesCount)
    (h : gptAddAll uuid t plan = some t') : getLE w t'.block pos = getLE w t.block pos := by
  induction plan generalizing t with
  | nil =>
    obtain rfl := Option.some.inj h
    rfl
  | cons p plan ih =>
    rw [gptAddAll] at h
    split at h
    · exact (ih h).trans (gptAdd_block t _ _ _ _ _ hpos)
    · exact nomatch h

end Entries

section Disk

variable {n : Nat} {d d' : Disk} {t : GptTable}

theorem gptSave_eq (h : gptSave n d t = some d') :
    d' = stores d (saveWrites t) ∧ ∀ w ∈ saveWrites t, w.1 < n := by
  rw [gptSave, gptPartitionSave] at h
  split at h
  · exact nomatch h
  · rename_i writes u hsave
    split at hsave
    · exact nomatch hsave
    · obtain ⟨rfl, -⟩ := Prod.mk.inj (Option.some.inj hsave)
      split at h
      · rename_i hall
        exact ⟨(Option.some.inj h).symm, hall⟩
      · exact nomatch h

theorem gptSave_room (h : gptSave n d t = some d') : t.entriesLba + 31 < n := by
  refine (gptSave_eq h).2 (t.entriesLba + 31, sectorOf (gptSerial t).entry 31) ?_
  rw [saveWrites, pwrite, pwrite, pwrite, pwrite, pwrite]
  refine List.mem_append_right _ (List.mem_append_right _ (List.mem_append_right _
    (List.mem_append_left _ (List.mem_map.mpr ⟨31, List.mem_range.mpr (by decide), rfl⟩))))

end Disk

end SylixOS.OemFdisk
