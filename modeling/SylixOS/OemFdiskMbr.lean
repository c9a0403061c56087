import SylixOS.OemFdisk

/-! The DOS partition table that `__oemFdisk` writes, read back. -/

namespace SylixOS.OemFdisk
open SylixOS.ByteBuffer SylixOS.SectorDevice SylixOS.GptPartition Function

def Laid : (next : Nat) → List PartSec → Prop
  | _, [] => True
  | next, p :: ps => p.startSec = next ∧ Laid (next + p.nSec) ps

theorem Laid.start_le {next : Nat} {plan : List PartSec} (h : Laid next plan) {p : PartSec}
    (hp : p ∈ plan) : next ≤ p.startSec := by
  induction plan generalizing next with
  | nil => exact absurd hp List.not_mem_nil
  | cons q plan ih =>
    rcases List.mem_cons.mp hp with rfl | hp
    · exact h.1.symm.le
    · exact (Nat.le_add_right next q.nSec).trans (ih h.2 hp)

theorem Laid.disjoint {next : Nat} {plan : List PartSec} (h : Laid next plan) :
    plan.Pairwise fun p q => ∀ sec, ¬(p.Covers sec ∧ q.Covers sec) := by
  induction plan generalizing next with
  | nil => exact List.Pairwise.nil
  | cons p plan ih =>
    refine List.Pairwise.cons ?_ (ih h.2)
    rintro q hq sec ⟨hp, hq'⟩
    have hbehind := h.2.start_le hq
    have hstart := h.1
    have hlt := hp.2
    have hle := hq'.1
    omega

structure Takes (reqs : List OemfdiskPart) (plan : List PartSec) : Prop where
  part : ∀ p ∈ plan, p.part ∈ reqs
  length : plan.length ≤ reqs.length
  head : plan.head?.map PartSec.part = reqs.head?

theorem Takes.one (p : OemfdiskPart) (ps : List OemfdiskPart) (start n : Nat) :
    Takes (p :: ps) [⟨p, start, n⟩] :=
  ⟨fun _ hq => List.mem_singleton.mp hq ▸ List.mem_cons_self,
    Nat.succ_le_succ (Nat.zero_le _), rfl⟩

theorem Takes.cons {ps : List OemfdiskPart} {plan : List PartSec} (h : Takes ps plan)
    (p : OemfdiskPart) (start n : Nat) : Takes (p :: ps) (⟨p, start, n⟩ :: plan) := by
  refine ⟨fun q hq => ?_, Nat.succ_le_succ h.length, rfl⟩
  rcases List.mem_cons.mp hq with rfl | hq
  · exact List.mem_cons_self
  · exact List.mem_cons_of_mem _ (h.part q hq)

section Plan

variable {total align next left : Nat} {ps : List OemfdiskPart} {plan : List PartSec}

theorem mbrPlan_spec (hN : next + left < 2 ^ 32) (h : mbrPlan total align ps next left = some plan) :
    Laid next plan ∧ (∀ p ∈ plan, p.startSec + p.nSec ≤ next + left) ∧ Takes ps plan := by
  induction ps generalizing next left plan with
  | nil =>
    obtain rfl := Option.some.inj h
    exact ⟨trivial, fun p hp => absurd hp List.not_mem_nil,
      fun p hp => absurd hp List.not_mem_nil, Nat.le_refl _, rfl⟩
  | cons p ps ih =>
    rw [mbrPlan] at h
    split at h
    · obtain rfl := Option.some.inj h
      rw [Nat.mod_eq_of_lt (by omega)]
      refine ⟨⟨rfl, trivial⟩, fun q hq => ?_, Takes.one p ps _ _⟩
      obtain rfl := List.mem_singleton.mp hq
      exact Nat.le_refl _
    · dsimp only at h
      split at h
      · exact nomatch h
      · rename_i hle
        rw [Nat.mod_eq_of_lt (by omega)] at h
        obtain ⟨rest, hrest, rfl⟩ := Option.map_eq_some_iff.mp h
        obtain ⟨hlaid, hinside, htakes⟩ := ih (by omega) hrest
        refine ⟨⟨rfl, hlaid⟩, fun q hq => ?_, htakes.cons p _ _⟩
        rcases List.mem_cons.mp hq with rfl | hq
        · dsimp only
          omega
        · have hle' := hinside q hq
          omega

end Plan

section Table

theorem getLE_one (b : Bytes) (pos : Nat) : getLE 1 b pos = (b pos).toNat := by
  simp [getLE]

theorem fieldsLen_mbrFields (active : Bool) (p : PartSec) : fieldsLen (mbrFields active p) = 16 :=
  rfl

theorem entryAt_mbrFields (buf : Bytes) (i : Nat) (active : Bool) (p : PartSec) :
    (MbrScan.entryAt (putFields buf (MbrScan.mbrTable + i * 16) (mbrFields active p)) i).partType =
        p.part.partType ∧
      (MbrScan.entryAt (putFields buf (MbrScan.mbrTable + i * 16) (mbrFields active p))
        i).startSector = p.startSec % 2 ^ 32 ∧
      (MbrScan.entryAt (putFields buf (MbrScan.mbrTable + i * 16) (mbrFields active p)) i).nSector =
        p.nSec % 2 ^ 32 := by
  have hfields := getFields_putFields buf (MbrScan.mbrTable + i * 16) (mbrFields active p)
  generalize putFields buf (MbrScan.mbrTable + i * 16) (mbrFields active p) = b at hfields ⊢
  simp only [mbrFields, chsFields, List.cons_append, List.nil_append, List.map_cons, List.map_nil,
    getFields, List.cons.injEq, Nat.add_assoc, Nat.reduceAdd] at hfields
  obtain ⟨-, -, -, -, htype, -, -, -, hstart, hsize, -⟩ := hfields
  have hbits : 256 ^ 4 = 2 ^ 32 := by decide
  have hlt : p.part.partType.toNat % 256 ^ 1 = p.part.partType.toNat :=
    Nat.mod_eq_of_lt p.part.partType.toNat_lt
  rw [getLE_one, hlt] at htype
  rw [hbits] at hstart hsize
  simp only [MbrScan.entryAt, MbrScan.diskPartType, MbrScan.diskPartStartSector,
    MbrScan.diskPartNSector, Nat.add_assoc]
  exact ⟨UInt8.toNat_inj.mp htype, hstart, hsize⟩

theorem entryAt_congr {b c : Bytes} {i : Nat}
    (h : ∀ p, MbrScan.mbrTable + i * 16 ≤ p → p < MbrScan.mbrTable + i * 16 + 16 → b p = c p) :
    MbrScan.entryAt b i = MbrScan.entryAt c i := by
  have hbyte : ∀ off, off < 16 → b (MbrScan.mbrTable + i * 16 + off) =
      c (MbrScan.mbrTable + i * 16 + off) := fun off hoff => h _ (by omega) (by omega)
  have hflag := hbyte 0 (by decide)
  rw [Nat.add_zero] at hflag
  rw [MbrScan.entryAt, MbrScan.entryAt, hflag, hbyte MbrScan.diskPartType (by decide)]
  congr 1
  · apply getLE_congr
    intro j hj
    rw [Nat.add_assoc]
    exact hbyte _ (by simp only [MbrScan.diskPartStartSector]; omega)
  · apply getLE_congr
    intro j hj
    rw [Nat.add_assoc]
    exact hbyte _ (by simp only [MbrScan.diskPartNSector]; omega)

variable {total : Nat} {plan : List PartSec}

theorem mbrWrite_outside (plan : List PartSec) (i : Nat) (m : Bool) (buf : Bytes) (d : Disk)
    {pos : Nat} (hpos : pos < MbrScan.mbrTable + i * 16 ∨
      MbrScan.mbrTable + (i + plan.length) * 16 ≤ pos) :
    (mbrWrite total plan i m buf d).1 pos = buf pos := by
  induction plan generalizing i m buf d with
  | nil => rfl
  | cons p plan ih =>
    rw [List.length_cons] at hpos
    rw [mbrWrite, ih _ _ _ _ (by omega)]
    apply putFields_outside
    rw [fieldsLen_mbrFields]
    omega

theorem mbrWrite_entry (total : Nat) (plan : List PartSec) (i : Nat) (m : Bool) (buf : Bytes)
    (d : Disk) {j : Nat} (hj : j < plan.length) :
    (MbrScan.entryAt (mbrWrite total plan i m buf d).1 (i + j)).partType = plan[j].part.partType ∧
      (MbrScan.entryAt (mbrWrite total plan i m buf d).1 (i + j)).startSector =
        plan[j].startSec % 2 ^ 32 ∧
      (MbrScan.entryAt (mbrWrite total plan i m buf d).1 (i + j)).nSector =
        plan[j].nSec % 2 ^ 32 := by
  induction plan generalizing i m buf d j with
  | nil => exact absurd hj (Nat.not_lt_zero j)
  | cons p plan ih =>
    rw [mbrWrite]
    cases j with
    | zero =>
      have hsame : MbrScan.entryAt (mbrWrite total plan (i + 1) (m || (p.part.isActive && !m))
          (putFields buf (MbrScan.mbrTable + i * 16) (mbrFields (p.part.isActive && !m) p))
          (fillSec total d p.startSec)).1 i = MbrScan.entryAt
          (putFields buf (MbrScan.mbrTable + i * 16) (mbrFields (p.part.isActive && !m) p)) i :=
        entryAt_congr fun pos _ hlt => mbrWrite_outside _ _ _ _ _ (Or.inl (by omega))
      have hentry := entryAt_mbrFields buf i (p.part.isActive && !m) p
      rw [← hsame] at hentry
      exact hentry
    | succ j =>
      have hindex : i + (j + 1) = i + 1 + j := by omega
      rw [hindex]
      exact ih (i + 1) _ _ _ (Nat.lt_of_succ_lt_succ hj)

theorem mbrWrite_disk (plan : List PartSec) (i : Nat) (m : Bool) (buf : Bytes) (d : Disk) {sec : Nat}
    (hsec : ∀ p ∈ plan, sec < p.startSec) : (mbrWrite total plan i m buf d).2 sec = d sec := by
  induction plan generalizing i m buf d with
  | nil => rfl
  | cons p plan ih =>
    rw [mbrWrite, ih _ _ _ _ fun q hq => hsec q (List.mem_cons_of_mem _ hq), fillSec]
    split
    · exact update_of_ne (Nat.ne_of_lt (hsec p List.mem_cons_self)) _ _
    · rfl

end Table

section Scan

variable {ρ : Type} {D : MbrScan.Disk} {R : MbrScan.Reader ρ}
  {recur : (start ext counter : Nat) → (Nat → ρ) → Option (Option Nat × (Nat → ρ))}

theorem scanEntries_empty (es : List MbrScan.Entry) (hes : ∀ e ∈ es, e.partType = 0)
    (start ext : Nat) {counter : Nat} (hc : 0 < counter) (info : Nat → ρ) :
    MbrScan.scanEntries D R recur es start ext counter info = some (some counter, info) := by
  induction es with
  | nil =>
    rw [MbrScan.scanEntries, if_neg (Nat.ne_of_gt hc)]
  | cons e es ih =>
    have hzero := hes e List.mem_cons_self
    have hvalid : ¬MbrScan.isValid e.partType = true := by
      rw [hzero]
      decide
    have hext : ¬MbrScan.isExtended e.partType = true := by
      rw [hzero]
      decide
    rw [MbrScan.scanEntries, if_neg hvalid, if_neg hext]
    split
    · rfl
    · exact ih fun e' he' => hes e' (List.mem_cons_of_mem _ he')

theorem scanEntries_valid
    (recur : (start ext counter : Nat) → (Nat → ρ) → Option (Option Nat × (Nat → ρ)))
    (es rest : List MbrScan.Entry)
    (hes : ∀ e ∈ es, MbrScan.isValid e.partType = true) (hrest : ∀ e ∈ rest, e.partType = 0)
    (start ext counter : Nat) (info : Nat → ρ) (hlimit : counter + es.length ≤ R.limit)
    (hpos : 0 < counter + es.length) :
    ∃ info', MbrScan.scanEntries D R recur (es ++ rest) start ext counter info =
        some (some (counter + es.length), info') ∧
      (∀ i < counter, info' i = info i) ∧
      ∀ i, (hi : i < es.length) → info' (counter + i) = R.record start es[i] := by
  induction es generalizing counter info with
  | nil =>
    exact ⟨info, scanEntries_empty rest hrest start ext hpos info, fun _ _ => rfl,
      fun i hi => absurd hi (Nat.not_lt_zero i)⟩
  | cons e es ih =>
    have hlen : counter + (e :: es).length = counter + 1 + es.length := by
      rw [List.length_cons]
      omega
    rw [hlen] at hlimit
    rw [List.cons_append, MbrScan.scanEntries, if_pos (hes e List.mem_cons_self)]
    dsimp only
    by_cases hfull : R.limit ≤ counter + 1
    · have hnil : es = [] := List.length_eq_zero_iff.mp (by omega)
      subst hnil
      rw [if_pos hfull]
      refine ⟨_, rfl, fun i hi => update_of_ne (by omega) _ _, fun i hi => ?_⟩
      obtain rfl : i = 0 := Nat.lt_one_iff.mp hi
      exact update_self ..
    · rw [if_neg hfull]
      obtain ⟨info', hscan, hbefore, hat⟩ := ih (fun e' he' => hes e' (List.mem_cons_of_mem _ he'))
        (counter + 1) (update info counter (R.record start e)) hlimit (by omega)
      refine ⟨info', hlen ▸ hscan, fun i hi => ?_, fun i hi => ?_⟩
      · rw [hbefore i (by omega), update_of_ne (by omega)]
      · cases i with
        | zero =>
          rw [Nat.add_zero, hbefore counter (Nat.lt_succ_self _), update_self]
          rfl
        | succ i =>
          have hindex : counter + (i + 1) = counter + 1 + i := by omega
          rw [hindex, hat i (Nat.lt_of_succ_lt_succ hi)]
          rfl

end Scan

section Mbr

variable {total stAlign : Nat} {d d' : Disk} {parts : List OemfdiskPart} {plan : List PartSec}

theorem sectorByte_sectorOf (buf : Bytes) {p : Nat} (hp : p < 512) :
    sectorByte (sectorOf buf 0 : Sector 9) p = buf p := by
  have hmod : p % 2 ^ 9 = p := Nat.mod_eq_of_lt hp
  simp only [sectorByte, sectorOf, hmod, Nat.zero_mul, Nat.zero_add]

def mbrSector (total : Nat) (plan : List PartSec) (buf : Bytes) (d : Disk) : Bytes :=
  putFields (mbrWrite total plan 0 false (patch buf MbrScan.mbrTable 64 zeros) d).1 510
    [(1, 0x55), (1, 0xaa)]

theorem mbrSector_signature (total : Nat) (plan : List PartSec) (buf : Bytes) (d : Disk) :
    mbrSector total plan buf d 510 = 0x55 ∧ mbrSector total plan buf d 511 = 0xaa := by
  have hfields := getFields_putFields (mbrWrite total plan 0 false
    (patch buf MbrScan.mbrTable 64 zeros) d).1 510 [(1, 0x55), (1, 0xaa)]
  simp only [List.map_cons, List.map_nil, getFields, List.cons.injEq, getLE_one] at hfields
  exact ⟨UInt8.toNat_inj.mp hfields.1, UInt8.toNat_inj.mp hfields.2.1⟩

theorem fillSec_other {lba sec : Nat} (h : sec ≠ lba) : fillSec total d lba sec = d sec := by
  rw [fillSec]
  split
  · exact update_of_ne h _ _
  · rfl

theorem mbrSector_entry (buf : Bytes) {i : Nat} (hi : i < 4) :
    MbrScan.entryAt (mbrSector total plan buf d) i = MbrScan.entryAt
      (mbrWrite total plan 0 false (patch buf MbrScan.mbrTable 64 zeros) d).1 i := by
  refine entryAt_congr fun pos _ hlt => putFields_outside _ _ _ (Or.inl ?_)
  simp only [MbrScan.mbrTable] at hlt
  omega

theorem mbrSector_first (total : Nat) (buf : Bytes) (d : Disk) (hpos : plan ≠ []) :
    mbrSector total plan buf d 0x1c2 = (plan.head hpos).part.partType := by
  have hwritten := (mbrWrite_entry total plan 0 false
    (patch buf MbrScan.mbrTable 64 zeros) d (List.length_pos_iff.mpr hpos)).1
  rw [← mbrSector_entry buf (by decide), List.getElem_zero_eq_head] at hwritten
  exact hwritten

theorem mbrSector_empty (buf : Bytes) {i : Nat} (hi : i < 4) (hlen : plan.length ≤ i) :
    (MbrScan.entryAt (mbrSector total plan buf d) i).partType = 0 := by
  rw [mbrSector_entry buf hi, MbrScan.entryAt]
  dsimp only
  rw [mbrWrite_outside _ _ _ _ _ (by simp only [MbrScan.diskPartType]; omega),
    patch_inside _ _ (by omega) (by simp only [MbrScan.diskPartType]; omega)]
  rfl

theorem scan_mbrSector (word : Nat) (buf : Bytes) (hword : ∀ p ∈ plan, p.startSec + p.nSec < 2 ^ 32)
    (hvalid : ∀ p ∈ plan, MbrScan.isValid p.part.partType = true) (hpos : plan ≠ [])
    (hlen : plan.length ≤ 4) (htotal : 0 < total)
    (hsector : d' 0 = sectorOf (mbrSector total plan buf d) 0) {uiNPart fuel : Nat}
    (hroom : plan.length ≤ uiNPart) (hfuel : 0 < fuel) :
    ∃ infos, mbrGet word total d' uiNPart fuel = some (some infos) ∧
      infos.map infoKey = plan.map PartSec.key := by
  have hread : ∀ {p : Nat}, p < 512 → sectorByte (d' 0) p = mbrSector total plan buf d p := by
    intro p hp
    rw [hsector]
    exact sectorByte_sectorOf _ hp
  have hentry : ∀ i < 4, MbrScan.entryAt (sectorByte (d' 0)) i =
      MbrScan.entryAt (mbrSector total plan buf d) i := by
    intro i hi
    refine entryAt_congr fun pos _ hlt => hread ?_
    simp only [MbrScan.mbrTable] at hlt
    omega
  have hsplit : MbrScan.entries (sectorByte (d' 0)) =
      (List.range plan.length).map (MbrScan.entryAt (sectorByte (d' 0))) ++
        (List.range (4 - plan.length)).map fun i =>
          MbrScan.entryAt (sectorByte (d' 0)) (plan.length + i) := by
    have hrange : MbrScan.entries (sectorByte (d' 0)) =
        (List.range (plan.length + (4 - plan.length))).map
          (MbrScan.entryAt (sectorByte (d' 0))) := by
      rw [Nat.add_sub_cancel' hlen]
      rfl
    rw [hrange, List.range_add, List.map_append, List.map_map]
    rfl
  have hat : ∀ i, (hi : i < plan.length) →
      (MbrScan.entryAt (sectorByte (d' 0)) i).partType = plan[i].part.partType ∧
        (MbrScan.entryAt (sectorByte (d' 0)) i).startSector = plan[i].startSec ∧
        (MbrScan.entryAt (sectorByte (d' 0)) i).nSector = plan[i].nSec := by
    intro i hi
    have hwritten := mbrWrite_entry total plan 0 false
      (patch buf MbrScan.mbrTable 64 zeros) d hi
    have hbound := hword _ (List.getElem_mem hi)
    rw [Nat.zero_add, Nat.mod_eq_of_lt (by omega), Nat.mod_eq_of_lt (by omega),
      ← mbrSector_entry buf (by omega), ← hentry i (by omega)] at hwritten
    exact hwritten
  have hlimit : 0 + ((List.range plan.length).map
      (MbrScan.entryAt (sectorByte (d' 0)))).length ≤ uiNPart := by
    rw [List.length_map, List.length_range, Nat.zero_add]
    exact hroom
  have hsome : 0 < 0 + ((List.range plan.length).map
      (MbrScan.entryAt (sectorByte (d' 0)))).length := by
    rw [List.length_map, List.length_range, Nat.zero_add]
    exact List.length_pos_iff.mpr hpos
  obtain ⟨fuel, rfl⟩ := Nat.exists_eq_succ_of_ne_zero (Nat.ne_of_gt hfuel)
  obtain ⟨info, hscan, -, hinfo⟩ := scanEntries_valid (D := scanDisk word total d')
    (R := MbrScan.oemFdiskReader (scanDisk word total d') uiNPart)
    (MbrScan.scanTable (scanDisk word total d')
      (MbrScan.oemFdiskReader (scanDisk word total d') uiNPart) fuel)
    ((List.range plan.length).map (MbrScan.entryAt (sectorByte (d' 0))))
    ((List.range (4 - plan.length)).map fun i =>
      MbrScan.entryAt (sectorByte (d' 0)) (plan.length + i))
    (by
      intro e he
      obtain ⟨i, hi, rfl⟩ := List.mem_map.mp he
      rw [(hat i (List.mem_range.mp hi)).1]
      exact hvalid _ (List.getElem_mem _))
    (by
      intro e he
      obtain ⟨i, hi, rfl⟩ := List.mem_map.mp he
      have hlt := List.mem_range.mp hi
      rw [hentry _ (by omega)]
      exact mbrSector_empty buf (by omega) (Nat.le_add_right _ _))
    0 0 0 default hlimit hsome
  have hsig : ¬(sectorByte (d' 0) 510 ≠ 0x55 ∨ sectorByte (d' 0) 511 ≠ 0xaa) := by
    obtain ⟨hfirst, hsecond⟩ := mbrSector_signature total plan buf d
    rw [hread (by decide), hread (by decide), hfirst, hsecond]
    decide
  have hget : mbrGet word total d' uiNPart (fuel + 1) =
      some (some ((List.range plan.length).map info)) := by
    rw [← hsplit, Nat.zero_add, List.length_map, List.length_range] at hscan
    have hdisk : (scanDisk word total d').sector 0 = some (sectorByte (d' 0)) := if_pos htotal
    have htable : MbrScan.oemFdiskGet (scanDisk word total d') uiNPart (fuel + 1) default =
        some (some plan.length, info) := by
      rw [MbrScan.oemFdiskGet, MbrScan.scanTable, hdisk]
      exact (if_neg hsig).trans hscan
    rw [mbrGet, htable]
    rfl
  refine ⟨_, hget, ?_⟩
  rw [List.map_map]
  refine List.ext_getElem (by simp) fun i hi hi' => ?_
  rw [List.length_map] at hi'
  obtain ⟨htype, hstart, hsize⟩ := hat i hi'
  have hrec := hinfo i (by simpa using hi')
  have hbound := hword _ (List.getElem_mem hi')
  rw [Nat.zero_add] at hrec
  simp only [List.getElem_map, List.getElem_range, Function.comp_apply, hrec]
  simp only [infoKey, MbrScan.oemFdiskReader, scanDisk, htype, hstart, hsize, PartSec.key,
    ulSecSize]
  rw [Nat.mod_eq_of_lt (by omega), Nat.mod_eq_of_lt (by omega)]

theorem oemFdisk_spec (hlo : diskPartOffsec ≤ total) (hhi : total < 2 ^ 32)
    (h : oemFdisk total d parts stAlign = some (plan, d')) (hne : parts ≠ [])
    (hlen : parts.length ≤ 4) (hvalid : ∀ p ∈ parts, MbrScan.isValid p.partType = true) :
    Apart total false plan ∧ (∀ sec, 0 < sec → sec < 34 → d' sec = d sec) ∧
      parts.head?.map OemfdiskPart.partType = some (sectorByte (d' 0) 0x1c2) ∧
      ∀ word uiNPart fuel, plan.length ≤ uiNPart → 0 < fuel →
        ∃ infos, mbrGet word total d' uiNPart fuel = some (some infos) ∧
          infos.map infoKey = plan.map PartSec.key := by
  rw [oemFdisk] at h
  dsimp only at h
  split at h
  · exact nomatch h
  · rename_i plan' hplan
    obtain ⟨rfl, rfl⟩ := Prod.mk.inj (Option.some.inj h)
    have hsum : diskPartOffsec + (total - diskPartOffsec) = total := Nat.add_sub_cancel' hlo
    obtain ⟨hlaid, hinside, htakes⟩ := mbrPlan_spec (hsum.symm ▸ hhi) hplan
    rw [hsum] at hinside
    have hstart : ∀ p ∈ plan', diskPartOffsec ≤ p.startSec := fun p hp => hlaid.start_le hp
    have hpos : plan' ≠ [] := by
      intro hnil
      have hhead := htakes.head
      rw [hnil] at hhead
      exact hne (List.head?_eq_none_iff.mp hhead.symm)
    have hearly : ∀ sec < 34, ∀ p ∈ plan', sec < p.startSec := fun sec hsec p hp =>
      (show sec < diskPartOffsec by rw [diskPartOffsec]; omega).trans_le (hstart p hp)
    have hfill : ∀ sec < 34, (if 2050 < total then fillSec total d 2050 else d) sec = d sec := by
      intro sec hsec
      split
      · exact fillSec_other (by omega)
      · rfl
    generalize (if 2050 < total then fillSec total d 2050 else d) = filled at hfill ⊢
    have hsector : update (mbrWrite total plan' 0 false
        (patch (sectorByte (filled 0)) MbrScan.mbrTable 64 zeros) filled).2 0
          (sectorOf (mbrSector total plan' (sectorByte (filled 0)) filled) 0) 0 =
        sectorOf (mbrSector total plan' (sectorByte (filled 0)) filled) 0 :=
      update_self ..
    refine ⟨⟨hlaid.disjoint, ?_, ?_⟩, ?_, ?_, ?_⟩
    · intro p hp sec hsec
      exact hsec.2.trans_le (hinside p hp)
    · rintro p hp sec hsec (rfl | ⟨hfalse, -⟩)
      · have hge := (hstart p hp).trans hsec.1
        exact absurd hge (by decide)
      · exact absurd hfalse (by decide)
    · intro sec hsec hlt
      rw [update_of_ne (by omega), mbrWrite_disk _ _ _ _ _ (hearly sec hlt), hfill sec hlt]
    · have hhead : parts.head? = some (plan'.head hpos).part := by
        rw [← htakes.head, List.head?_eq_some_head hpos]
        rfl
      rw [hhead]
      refine congrArg some ?_
      rw [← mbrSector_first total (sectorByte (filled 0)) filled hpos]
      exact ((congrArg (sectorByte · 0x1c2) hsector).trans
        (sectorByte_sectorOf _ (by decide))).symm
    · intro word uiNPart fuel hroom hfuel
      exact scan_mbrSector word (sectorByte (filled 0))
        (fun p hp => (hinside p hp).trans_lt hhi) (fun p hp => hvalid _ (htakes.part p hp)) hpos
        (htakes.length.trans hlen) (Nat.lt_of_lt_of_le (by decide) hlo) hsector hroom hfuel

end Mbr

end SylixOS.OemFdisk
