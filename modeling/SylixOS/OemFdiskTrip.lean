import SylixOS.OemFdiskRead

/-! The partitions of a disk, written and read back. -/

namespace SylixOS.OemFdisk
open SylixOS.ByteBuffer SylixOS.SectorDevice SylixOS.GptPartition

def gptFirst (stAlign : Nat) : Nat := roundUp gptDataLba (stAlign / ulSecSize)

def staleGet (n : Nat) (d : Disk) (uiNPart : Nat) : Option (List MbrScan.OemfdiskPinfo) :=
  oemGptFdiskGet n (Function.update d 0 (sectorOf (gptInitMbr zeros n) 0)) uiNPart

def GptSound (n : Nat) (q : FdiskCall) : Prop :=
  NoWrap n (q.stAlign / ulSecSize) (n - 33) (untilRest q.fdpPart) (gptFirst q.stAlign)

/-- The first entry does not make the boot sector a protective one, or there is no GPT behind it that
is taken for the table, or this holds the same partitions. -/
def MbrSound (word n : Nat) (d : Disk) (q : FdiskCall) : Prop :=
  word = 32 ∨ (untilRest q.fdpPart).head?.map OemfdiskPart.partType ≠ some 0xee ∨
    ∀ plan, mbrPlan (n - diskPartOffsec) (q.stAlign / ulSecSize) (untilRest q.fdpPart) diskPartOffsec
        (n - diskPartOffsec) = some plan →
      ∀ uiNPart infos, plan.length ≤ uiNPart → staleGet n d uiNPart = some infos →
        infos.map infoKey = plan.map PartSec.key

def FdiskCall.Sound (word n : Nat) (d : Disk) (q : FdiskCall) : Prop :=
  (q.bGpt = true → GptSound n q) ∧ (q.bGpt = false → MbrSound word n d q)

section Gpt

variable {n stAlign volume : Nat} {uuid : Nat → Nat} {d d' : Disk} {reqs : List OemfdiskPart}
  {plan : List PartSec}

theorem gptFirst_lt (hword : stAlign < 2 ^ 64) : gptFirst stAlign < 2 ^ 64 := by
  have hle : gptFirst stAlign ≤ gptDataLba + (stAlign / ulSecSize - 1) := Nat.div_mul_le_self _ _
  have hdiv : stAlign / ulSecSize ≤ stAlign / 2 := Nat.div_le_div_left (by decide) (by decide)
  rw [gptDataLba] at hle
  omega

theorem gptDataLba_le_first (halign : 0 < stAlign / ulSecSize) : 34 ≤ gptFirst stAlign :=
  le_roundUp gptDataLba halign

theorem gptAddAll_blank (hne : plan ≠ []) : gptAddAll uuid ⟨ulSecSize, zeros, zeros, zeros⟩ plan =
    none := by
  cases plan with
  | nil => exact absurd rfl hne
  | cons p plan =>
    have hver : (⟨ulSecSize, zeros, zeros, zeros⟩ : GptTable).version = 0 := rfl
    have hadd : ∀ id, (gptAddEntryWithName ⟨ulSecSize, zeros, zeros, zeros⟩ p.startSec p.nSec
        p.part.partType p.part.name id).1 = false := by
      intro id
      rw [gptAddEntryWithName, if_pos hver]
    rw [gptAddAll, hadd, if_neg Bool.false_ne_true]

theorem oemGptFdisk_plan (hn : n < 2 ^ 32) (halign : 0 < stAlign / ulSecSize)
    (hword : stAlign < 2 ^ 64) (hne : reqs ≠ [])
    (h : oemGptFdisk n d 0 reqs stAlign volume uuid = some (plan, d')) :
    67 ≤ n ∧ gptPlan n (stAlign / ulSecSize) (n - 33) reqs (gptFirst stAlign)
        (n - 33 - gptFirst stAlign) = some plan ∧
      ∃ t t', Building n t ∧ t.entriesCount = 0 ∧ gptAddAll uuid t plan = some t' ∧
        gptSave n d t' = some d' := by
  rw [oemGptFdisk] at h
  dsimp only at h
  rw [if_pos rfl, ← gptFirst] at h
  split at h
  · exact nomatch h
  · rename_i t hcreate
    split at h
    · exact nomatch h
    · rename_i plan' hplan
      split at h
      · exact nomatch h
      · rename_i t' hadd
        obtain ⟨d'', hsave, heq⟩ := Option.map_eq_some_iff.mp h
        obtain ⟨rfl, rfl⟩ := Prod.mk.inj heq
        have hsome : n ≠ 0 := by
          rintro rfl
          obtain rfl := Option.some.inj hcreate
          have hpos : plan' ≠ [] := by
            rintro rfl
            exact hne (List.head?_eq_none_iff.mp (gptPlan_takes hplan).head.symm)
          exact nomatch hadd.symm.trans (gptAddAll_blank hpos)
        obtain ⟨-, hnew⟩ := created hsome hcreate
        have hroom := gptSave_room hsave
        have hent : t'.entriesLba = gptEntLba :=
          (gptAddAll_block (by decide) hadd).trans hnew.entriesLba
        rw [hent, gptEntLba] at hroom
        obtain ⟨hbuild, hzero⟩ := building_create (by omega) (by omega) hcreate
        have hfirst : getLE 8 t.block 40 = gptFirst stAlign := by
          have hge := gptDataLba_le_first halign
          rw [hnew.firstLba, if_pos (by omega), Nat.mod_eq_of_lt (gptFirst_lt hword)]
        rw [hbuild.lastLba, hfirst] at hplan
        obtain ⟨r, reqs, rfl⟩ := List.exists_cons_of_ne_nil hne
        have hle := gptPlan_next_le hplan
        have hge := gptDataLba_le_first halign
        have hleft : (n - 33 + 2 ^ 64 - gptFirst stAlign) % 2 ^ 64 = n - 33 - gptFirst stAlign := by
          omega
        rw [hleft] at hplan
        exact ⟨by omega, hplan, t, t', hbuild, hzero, hadd, hsave⟩

theorem oemGptFdisk_iff {word : Nat} (hn : n < 2 ^ 32) (halign : 0 < stAlign / ulSecSize)
    (hword : stAlign < 2 ^ 64) (hne : reqs ≠ []) (hlen : reqs.length ≤ 128) (hbits : word ≠ 32)
    (h : oemGptFdisk n d 0 reqs stAlign volume uuid = some (plan, d')) :
    (Apart n true plan ∧ ReadBack word n d' plan) ↔
      NoWrap n (stAlign / ulSecSize) (n - 33) reqs (gptFirst stAlign) := by
  obtain ⟨hlarge, hplan, t, t', hbuild, hzero, hadd, hsave⟩ :=
    oemGptFdisk_plan hn halign hword hne h
  have hge := gptDataLba_le_first halign
  constructor
  · rintro ⟨hapart, -⟩
    by_contra hwrap
    obtain ⟨p, hp, hcovers⟩ := gptPlan_wraps (by omega) hn halign
      (align_le_roundUp (by decide) halign) hwrap hplan
    exact Nat.lt_irrefl n (hapart.inside p hp n hcovers)
  · intro hwrap
    obtain ⟨hlaid, hinside⟩ := gptPlan_spec (by omega) hwrap hplan
    have hstart : ∀ p ∈ plan, 34 ≤ p.startSec := fun p hp => hge.trans (hlaid.start_le hp)
    refine ⟨⟨hlaid.disjoint, ?_, ?_⟩, ?_⟩
    · intro p hp sec hsec
      have hend := (hinside p hp).2
      exact lt_of_lt_of_le hsec.2 (by omega)
    · intro p hp sec hsec hmeta
      have hlo := (hstart p hp).trans hsec.1
      have hhi := hsec.2.trans_le (hinside p hp).2
      rcases hmeta with rfl | ⟨-, hmeta⟩
      · omega
      · omega
    · intro uiNPart fuel hroom _
      have hcount := (gptPlan_takes hplan).length.trans hlen
      obtain ⟨hall, hcount', hparts⟩ := gptAddAll_spec hbuild (by omega)
        (fun p hp => by
          have hlo := hstart p hp
          have hhi := hinside p hp
          omega) hadd
      have hlegal : Legal n t' := hall.legal (by omega)
      obtain ⟨u, hload, hlist⟩ := gptGetTable_save hlarge hlegal (gptSave_eq hsave).1
      have hempty : t.partitions = [] := by
        rw [GptTable.partitions, hzero]
        rfl
      rw [hparts, hempty, List.nil_append] at hlist
      obtain ⟨infos, hget, hkeys⟩ := oemGptFdiskGet_plan hload hlist hroom fun p hp => by
        have hhi := hinside p hp
        rw [ulSecSize]
        omega
      refine ⟨infos, ?_, hkeys⟩
      rw [oemFdiskGetEx, if_neg hbits, hget]

end Gpt

section Mbr

variable {n stAlign : Nat} {d d' : Disk} {reqs : List OemfdiskPart} {plan : List PartSec}

theorem oemFdisk_plan (h : oemFdisk n d reqs stAlign = some (plan, d')) :
    mbrPlan (n - diskPartOffsec) (stAlign / ulSecSize) reqs diskPartOffsec (n - diskPartOffsec) =
      some plan := by
  rw [oemFdisk] at h
  dsimp only at h
  split at h
  · cases h
  · rename_i plan' hplan
    obtain ⟨rfl, -⟩ := Prod.mk.inj (Option.some.inj h)
    exact hplan

theorem oemGptFdiskGet_stale (hn : 34 ≤ n) (hkeep : ∀ sec, 0 < sec → sec < 34 → d' sec = d sec)
    (uiNPart : Nat) : oemGptFdiskGet n d' uiNPart =
      if sectorByte (d' 0) 0x1c2 = 0xee then staleGet n d uiNPart else none := by
  split
  · rename_i hee
    refine oemGptFdiskGet_congr hn ?_ (fun sec hpos hlt => ?_) uiNPart
    · rw [hee, Function.update_self, sectorByte_sectorOf _ (by decide)]
      exact (gptInitMbr_type zeros n).symm
    · rw [hkeep sec hpos hlt, Function.update_of_ne (by omega)]
  · rename_i hee
    rw [oemGptFdiskGet, gptGetTable_eq hn, if_neg fun h => hee h.1]
    rfl

theorem oemFdisk_iff {word : Nat} (hlo : diskPartOffsec ≤ n) (hn : n < 2 ^ 32) (hne : reqs ≠ [])
    (hlen : reqs.length ≤ 4) (hvalid : ∀ p ∈ reqs, MbrScan.isValid p.partType = true)
    (h : oemFdisk n d reqs stAlign = some (plan, d')) :
    (Apart n false plan ∧ ReadBack word n d' plan) ↔
      word = 32 ∨ reqs.head?.map OemfdiskPart.partType ≠ some 0xee ∨
        ∀ uiNPart infos, plan.length ≤ uiNPart → staleGet n d uiNPart = some infos →
          infos.map infoKey = plan.map PartSec.key := by
  obtain ⟨hapart, hkeep, htype, hscan⟩ := oemFdisk_spec hlo hn h hne hlen hvalid
  have hroom : 34 ≤ n := Nat.le_trans (by decide) hlo
  have hget : ∀ uiNPart, oemGptFdiskGet n d' uiNPart =
      if reqs.head?.map OemfdiskPart.partType = some 0xee then staleGet n d uiNPart else none := by
    intro uiNPart
    simp only [oemGptFdiskGet_stale hroom hkeep, htype, Option.some.injEq]
  rw [and_iff_right hapart]
  constructor
  · intro hback
    by_cases hbits : word = 32
    · exact Or.inl hbits
    · by_cases hee : reqs.head?.map OemfdiskPart.partType = some 0xee
      · refine Or.inr (Or.inr fun uiNPart infos hle hstale => ?_)
        obtain ⟨infos', hread, hkeys⟩ := hback uiNPart 1 hle Nat.one_pos
        rw [oemFdiskGetEx, if_neg hbits, hget, if_pos hee, hstale] at hread
        obtain rfl := Option.some.inj (Option.some.inj hread)
        exact hkeys
      · exact Or.inr (Or.inl hee)
  · intro hsound uiNPart fuel hle hfuel
    cases hfirst : if word = 32 then none else oemGptFdiskGet n d' uiNPart with
    | none =>
      obtain ⟨infos, hread, hkeys⟩ := hscan word uiNPart fuel hle hfuel
      exact ⟨infos, by rw [oemFdiskGetEx, hfirst, hread], hkeys⟩
    | some infos =>
      refine ⟨infos, by rw [oemFdiskGetEx, hfirst], ?_⟩
      rw [hget] at hfirst
      split at hfirst
      · exact nomatch hfirst
      · rename_i hbits
        split at hfirst
        · rename_i hee
          rcases hsound with hword | hother | hstale
          · exact absurd hword hbits
          · exact absurd hee hother
          · exact hstale uiNPart infos hle hfirst
        · exact nomatch hfirst

end Mbr

theorem untilRest_ne_nil {reqs : List OemfdiskPart} (h : reqs ≠ []) : untilRest reqs ≠ [] := by
  cases reqs with
  | nil => exact absurd rfl h
  | cons p ps =>
    rw [untilRest]
    split <;> exact List.cons_ne_nil _ _

theorem length_untilRest (reqs : List OemfdiskPart) : (untilRest reqs).length ≤ reqs.length := by
  induction reqs with
  | nil => exact Nat.le_refl _
  | cons p ps ih =>
    rw [untilRest]
    split
    · exact Nat.succ_le_succ (Nat.zero_le _)
    · exact Nat.succ_le_succ ih

theorem oemFdiskEx_cases {word n volume : Nat} {d d' : Disk} {q : FdiskCall} {uuid : Nat → Nat}
    {parts : List PartSec} (h : oemFdiskEx word n d q volume uuid = some (parts, d')) :
    q.fdpPart ≠ [] ∧ 4096 ≤ q.stAlign ∧
      (q.bGpt = true ∧ word ≠ 32 ∧ oemGptFdisk n d q.ui64FirstLba (untilRest q.fdpPart) q.stAlign
          volume uuid = some (parts, d') ∨
        q.bGpt = false ∧ q.fdpPart.length ≤ 4 ∧ diskPartOffsec ≤ n ∧
          oemFdisk n d (untilRest q.fdpPart) q.stAlign = some (parts, d')) := by
  rw [oemFdiskEx] at h
  split at h
  · exact nomatch h
  · rename_i hne
    split at h
    · exact nomatch h
    · rename_i hfour
      split at h
      · exact nomatch h
      · rename_i hbits
        split at h
        · exact nomatch h
        · rename_i halign
          split at h
          · exact nomatch h
          · rename_i hsmall
            refine ⟨hne, not_lt.mp fun hlt => halign (Or.inl hlt), ?_⟩
            split at h
            · rename_i hgpt
              exact Or.inl ⟨hgpt, fun hword => hbits ⟨hword, hgpt⟩, h⟩
            · rename_i hmbr
              exact Or.inr ⟨Bool.eq_false_iff.mpr hmbr, not_lt.mp fun hlt => hfour ⟨hmbr, hlt⟩,
                not_lt.mp fun hlt => hsmall ⟨hmbr, hlt⟩, h⟩

/-- Where `API_OemFdiskExWithLba` succeeds, `API_OemFdiskGetEx` returns its partitions, which lie
apart, exactly if, for a GPT, no size wraps, and otherwise the boot sector does not bring back a
GPT that the disk held before. -/
theorem fdisk_round_trip_iff {word n volume : Nat} {d d' : Disk} {q : FdiskCall} {uuid : Nat → Nat}
    {parts : List PartSec} (hn : n < 2 ^ 32) (halign : q.stAlign < 2 ^ 64)
    (hmbr : q.bGpt = false → ∀ p ∈ untilRest q.fdpPart, MbrScan.isValid p.partType = true)
    (hgpt : q.bGpt = true → (untilRest q.fdpPart).length ≤ 128 ∧ q.ui64FirstLba = 0)
    (h : oemFdiskEx word n d q volume uuid = some (parts, d')) :
    (Apart n q.bGpt parts ∧ ReadBack word n d' parts) ↔ q.Sound word n d := by
  obtain ⟨hne, hlarge, ⟨hkind, hbits, hwrite⟩ | ⟨hkind, hfour, hlo, hwrite⟩⟩ := oemFdiskEx_cases h
  · obtain ⟨hlen, hfirst⟩ := hgpt hkind
    have hpos : 0 < q.stAlign / ulSecSize :=
      Nat.div_pos (Nat.le_trans (by decide) hlarge) (by decide)
    rw [hfirst] at hwrite
    rw [hkind, oemGptFdisk_iff hn hpos halign (untilRest_ne_nil hne) hlen hbits hwrite,
      FdiskCall.Sound, hkind]
    simp [GptSound]
  · have hlen := (length_untilRest q.fdpPart).trans hfour
    rw [hkind, oemFdisk_iff hlo hn (untilRest_ne_nil hne) hlen (hmbr hkind) hwrite,
      FdiskCall.Sound, hkind]
    simp [MbrSound, oemFdisk_plan hwrite]

/-- All of a disk of 4096 sectors in one partition with a DOS table -/
theorem fdisk_round_trip_one : ∃ parts d',
    oemFdiskEx 64 4096 (fun _ _ => 0) ⟨[⟨0, true, 0x0c, 0, []⟩], 4096, false, 0⟩ 0 (fun _ => 0) =
      some (parts, d') ∧ Apart 4096 false parts ∧ ReadBack 64 4096 d' parts := by
  obtain ⟨⟨parts, d'⟩, hwrite⟩ : ∃ r, oemFdiskEx 64 4096 (fun _ _ => 0)
      ⟨[⟨0, true, 0x0c, 0, []⟩], 4096, false, 0⟩ 0 (fun _ => 0) = some r := ⟨_, rfl⟩
  refine ⟨parts, d', hwrite, (fdisk_round_trip_iff (by decide) (by decide) (fun _ => by decide)
    (fun h => absurd h Bool.false_ne_true) hwrite).mpr ⟨fun h => absurd h Bool.false_ne_true, ?_⟩⟩
  exact fun _ => Or.inr (Or.inl (by decide))

def hugePart : OemfdiskPart := ⟨101, false, 0x0c, 2 ^ 53 - 1, []⟩

theorem fdisk_runs_over_disk : ∃ parts d',
    oemFdiskEx 64 8192 (fun _ _ => 0) ⟨[hugePart], 2 ^ 20, true, 0⟩ 0 (fun _ => 0) =
      some (parts, d') ∧ ¬Apart 8192 true parts := by
  have hplan : (oemFdiskEx 64 8192 (fun _ _ => 0) ⟨[hugePart], 2 ^ 20, true, 0⟩ 0 fun _ => 0).map
      (fun r => r.1.map fun p => (p.startSec, p.nSec)) = some [(2048, 2 ^ 64 - 2048)] := by
    decide +kernel
  obtain ⟨⟨parts, d'⟩, hwrite, hparts⟩ := Option.map_eq_some_iff.mp hplan
  refine ⟨parts, d', hwrite, fun hapart => ?_⟩
  obtain ⟨p, rest, rfl, hp, -⟩ := List.map_eq_cons_iff.mp hparts
  obtain ⟨hstart, hsize⟩ := Prod.mk.inj hp
  have hcovers : p.Covers 8192 := by
    rw [PartSec.Covers, hstart, hsize]
    decide
  exact Nat.lt_irrefl 8192 (hapart.inside p List.mem_cons_self 8192 hcovers)

end SylixOS.OemFdisk
