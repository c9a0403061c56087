import SylixOS.TpsTrans
import Mathlib.Data.List.Pairwise

/-! The open transaction as an overlay of the disk. The recorded areas stay
pairwise disjoint, the contents read through them are the disk overwritten
by the writes in order, and commit copies exactly this overlay back. -/

namespace SylixOS.TpsTrans
open SylixOS.ByteBuffer SylixOS.SectorDevice

theorem u32_of_lt {n : Nat} (h : n < 2 ^ 32) : u32 n = n := Nat.mod_eq_of_lt h

theorem andThen_eq_ok {k : Nat} {r : TpsResult × Vol k} {f : Vol k → TpsResult × Vol k}
    {st' : Vol k} : andThen r f = (.errNone, st') ↔
      ∃ st, r = (.errNone, st) ∧ f st = (.errNone, st') := by
  obtain ⟨e, st⟩ := r
  cases e <;> simp [andThen]

theorem andThen_fst_ok {k : Nat} {r : TpsResult × Vol k} {f : Vol k → TpsResult × Vol k} :
    (andThen r f).1 = .errNone ↔ r.1 = .errNone ∧ (f r.2).1 = .errNone := by
  obtain ⟨e, st⟩ := r
  cases e <;> simp [andThen]

theorem u64_of_lt {n : Nat} (h : n < 2 ^ 64) : u64 n = n := Nat.mod_eq_of_lt h

def SecArea.Disjoint (a b : SecArea) : Prop := ∀ s, ¬ (a.Has s ∧ b.Has s)

structure SecArea.PartOf (a b : SecArea) : Prop where
  lo : a.secStart ≤ b.secStart
  hi : b.secStart + b.secCnt ≤ a.secStart + a.secCnt
  off : b.secOff = a.secOff + (b.secStart - a.secStart)
  pos : 0 < b.secCnt

theorem SecArea.PartOf.has {a b : SecArea} {s : Nat} (h : a.PartOf b) (hs : b.Has s) : a.Has s :=
  ⟨h.lo.trans hs.1, hs.2.trans_le h.hi⟩

theorem trimArea_cases {n c : Nat} {a : SecArea} (hc : 0 < c) (hpos : 0 < a.secCnt)
    (ha : a.secOff + a.secCnt < 2 ^ 32) :
    (a.secStart < n ∧ n + c < a.secStart + a.secCnt ∧
      trimArea n c a =
        [⟨a.secStart, a.secOff, n - a.secStart⟩,
          ⟨n + c, a.secOff + (n + c - a.secStart), a.secStart + a.secCnt - (n + c)⟩]) ∨
    (n ≤ a.secStart ∧ a.secStart + a.secCnt ≤ n + c ∧ trimArea n c a = []) ∨
    ((a.secStart + a.secCnt ≤ n ∨ n + c ≤ a.secStart) ∧ trimArea n c a = [a]) ∨
    (n ≤ a.secStart ∧ a.secStart < n + c ∧ n + c < a.secStart + a.secCnt ∧
      trimArea n c a =
        [⟨n + c, a.secOff + (n + c - a.secStart), a.secStart + a.secCnt - (n + c)⟩]) ∨
    (a.secStart < n ∧ n < a.secStart + a.secCnt ∧ a.secStart + a.secCnt ≤ n + c ∧
      trimArea n c a = [⟨a.secStart, a.secOff, n - a.secStart⟩]) := by
  by_cases hsplit : a.secStart < n ∧ n + c < a.secStart + a.secCnt
  · refine Or.inl ⟨hsplit.1, hsplit.2, ?_⟩
    rw [trimArea, if_pos hsplit, u32_of_lt (by omega), u32_of_lt (by omega), u32_of_lt (by omega)]
  · by_cases hdel : n ≤ a.secStart ∧ a.secStart + a.secCnt ≤ n + c
    · refine Or.inr (Or.inl ⟨hdel.1, hdel.2, ?_⟩)
      rw [trimArea, if_neg hsplit, if_pos hdel]
    · by_cases hapart : min (a.secStart + a.secCnt) (n + c) ≤ max a.secStart n
      · refine Or.inr (Or.inr (Or.inl ⟨by omega, ?_⟩))
        rw [trimArea, if_neg hsplit, if_neg hdel, if_pos hapart]
      · by_cases hleft : n ≤ a.secStart
        · refine Or.inr (Or.inr (Or.inr (Or.inl ⟨hleft, by omega, by omega, ?_⟩)))
          have hneed : u32 (min (a.secStart + a.secCnt) (n + c) - max a.secStart n) =
              n + c - a.secStart := by
            rw [u32_of_lt (by omega)]
            omega
          rw [trimArea, if_neg hsplit, if_neg hdel, if_neg hapart]
          simp only [hneed, if_pos hleft, List.cons.injEq, SecArea.mk.injEq, and_true]
          refine ⟨by omega, u32_of_lt (by omega), by omega⟩
        · refine Or.inr (Or.inr (Or.inr (Or.inr ⟨by omega, by omega, by omega, ?_⟩)))
          have hneed : u32 (min (a.secStart + a.secCnt) (n + c) - max a.secStart n) =
              a.secStart + a.secCnt - n := by
            rw [u32_of_lt (by omega)]
            omega
          rw [trimArea, if_neg hsplit, if_neg hdel, if_neg hapart]
          simp only [hneed, if_neg hleft, List.cons.injEq, SecArea.mk.injEq, and_true, true_and]
          omega

theorem trimArea_part {n c : Nat} {a b : SecArea} (hc : 0 < c) (hpos : 0 < a.secCnt)
    (ha : a.secOff + a.secCnt < 2 ^ 32) (hb : b ∈ trimArea n c a) :
    a.PartOf b ∧ (b.secStart + b.secCnt ≤ n ∨ n + c ≤ b.secStart) := by
  rcases trimArea_cases hc hpos ha (n := n) with
    ⟨h1, h2, h⟩ | ⟨h1, h2, h⟩ | ⟨h1, h⟩ | ⟨h1, h2, h3, h⟩ | ⟨h1, h2, h3, h⟩ <;> rw [h] at hb
  · simp only [List.mem_cons, List.not_mem_nil, or_false] at hb
    rcases hb with rfl | rfl
    · exact ⟨⟨le_rfl, by simp only; omega, by simp, by simp only; omega⟩,
        Or.inl (by simp only; omega)⟩
    · exact ⟨⟨by simp only; omega, by simp only; omega, by simp only, by simp only; omega⟩,
        Or.inr le_rfl⟩
  · simp at hb
  · rw [List.mem_singleton] at hb
    subst hb
    exact ⟨⟨le_rfl, le_rfl, by omega, hpos⟩, h1⟩
  · rw [List.mem_singleton] at hb
    subst hb
    exact ⟨⟨by simp only; omega, by simp only; omega, by simp only, by simp only; omega⟩,
      Or.inr le_rfl⟩
  · rw [List.mem_singleton] at hb
    subst hb
    exact ⟨⟨le_rfl, by simp only; omega, by simp, by simp only; omega⟩,
      Or.inl (by simp only; omega)⟩

theorem trimArea_covers {n c s : Nat} {a : SecArea} (hc : 0 < c) (hpos : 0 < a.secCnt)
    (ha : a.secOff + a.secCnt < 2 ^ 32) (hs : a.Has s) (hout : s < n ∨ n + c ≤ s) :
    ∃ b ∈ trimArea n c a, b.Has s := by
  obtain ⟨hlo, hhi⟩ := hs
  rcases trimArea_cases hc hpos ha (n := n) with
    ⟨h1, h2, h⟩ | ⟨h1, h2, h⟩ | ⟨h1, h⟩ | ⟨h1, h2, h3, h⟩ | ⟨h1, h2, h3, h⟩ <;> rw [h]
  · rcases hout with hout | hout
    · exact ⟨_, List.mem_cons_self, hlo, by simp only; omega⟩
    · exact ⟨_, List.mem_cons_of_mem _ List.mem_cons_self, hout, by simp only; omega⟩
  · omega
  · exact ⟨a, List.mem_cons_self, hlo, hhi⟩
  · exact ⟨_, List.mem_cons_self, by simp only; omega, by simp only; omega⟩
  · exact ⟨_, List.mem_cons_self, hlo, by simp only; omega⟩

theorem trimArea_pairwise {n c : Nat} {a : SecArea} (hc : 0 < c) (hpos : 0 < a.secCnt)
    (ha : a.secOff + a.secCnt < 2 ^ 32) : (trimArea n c a).Pairwise SecArea.Disjoint := by
  rcases trimArea_cases hc hpos ha (n := n) with
    ⟨h1, h2, h⟩ | ⟨h1, h2, h⟩ | ⟨h1, h⟩ | ⟨h1, h2, h3, h⟩ | ⟨h1, h2, h3, h⟩ <;> rw [h]
  · refine List.pairwise_pair.mpr ?_
    rintro s ⟨⟨-, hs⟩, ⟨hs', -⟩⟩
    simp only at hs hs'
    omega
  · exact List.Pairwise.nil
  all_goals exact List.pairwise_singleton _ _

structure AreasOk (G : Geom) (dataSecCnt : Nat) (areas : List SecArea) : Prop where
  pos : ∀ a ∈ areas, 0 < a.secCnt
  off : ∀ a ∈ areas, a.secOff + a.secCnt ≤ dataSecCnt
  before : ∀ a ∈ areas, a.secStart + a.secCnt ≤ G.transSecStart
  disjoint : areas.Pairwise SecArea.Disjoint

instance : Std.Symm SecArea.Disjoint := ⟨fun _ _ h s hs => h s ⟨hs.2, hs.1⟩⟩

theorem eq_of_has {areas : List SecArea} (hd : areas.Pairwise SecArea.Disjoint) {a b : SecArea}
    (ha : a ∈ areas) (hb : b ∈ areas) {s : Nat} (has : a.Has s) (hbs : b.Has s) : a = b := by
  by_contra hne
  exact hd.forall ha hb hne s ⟨has, hbs⟩

theorem logSector_of_has {areas : List SecArea} (hd : areas.Pairwise SecArea.Disjoint)
    {a : SecArea} (ha : a ∈ areas) {s : Nat} (hs : a.Has s) (dataSecNum : Nat) :
    logSector dataSecNum areas s = some (dataSecNum + a.secOff + (s - a.secStart)) := by
  cases hfind : areas.reverse.find? (fun a => decide (a.Has s)) with
  | none =>
    rw [List.find?_eq_none] at hfind
    exact absurd (decide_eq_true hs) (hfind a (List.mem_reverse.mpr ha))
  | some b =>
    have hb : b ∈ areas := List.mem_reverse.mp (List.mem_of_find?_eq_some hfind)
    have hbs : b.Has s := by
      have hdec := List.find?_some hfind
      exact of_decide_eq_true hdec
    rw [logSector, hfind, eq_of_has hd ha hb hs hbs, Option.map_some]

theorem logSector_of_not_has {areas : List SecArea} {s : Nat} (h : ∀ a ∈ areas, ¬ a.Has s)
    (dataSecNum : Nat) : logSector dataSecNum areas s = none := by
  have hfind : areas.reverse.find? (fun a => decide (a.Has s)) = none := by
    rw [List.find?_eq_none]
    intro a ha
    simpa using h a (List.mem_reverse.mp ha)
  rw [logSector, hfind, Option.map_none]

def recordRun (p : List SecArea × Nat) (run : Nat × Nat) : List SecArea × Nat :=
  (p.1.flatMap (trimArea run.1 run.2) ++
      [{ secStart := run.1, secOff := p.2, secCnt := u32 run.2 }],
    u32 (p.2 + run.2))

variable {G : Geom}

theorem AreasOk.record {areas : List SecArea} {cnt n c : Nat} (h : AreasOk G cnt areas)
    (hc : 0 < c) (hsmall : cnt + c < 2 ^ 32) (hbefore : n + c ≤ G.transSecStart) :
    AreasOk G (cnt + c) (recordRun (areas, cnt) (n, c)).1 := by
  have hpart : ∀ b ∈ areas.flatMap (trimArea n c), ∃ a ∈ areas, a.PartOf b ∧
      (b.secStart + b.secCnt ≤ n ∨ n + c ≤ b.secStart) := by
    intro b hb
    obtain ⟨a, ha, hba⟩ := List.mem_flatMap.mp hb
    have hoff := h.off a ha
    exact ⟨a, ha, trimArea_part hc (h.pos a ha) (by omega) hba⟩
  have hu : u32 c = c := u32_of_lt (by omega)
  simp only [recordRun, hu]
  refine ⟨?_, ?_, ?_, ?_⟩
  · intro b hb
    rcases List.mem_append.mp hb with hb | hb
    · obtain ⟨a, -, hab, -⟩ := hpart b hb
      exact hab.pos
    · rw [List.mem_singleton] at hb
      subst hb
      exact hc
  · intro b hb
    rcases List.mem_append.mp hb with hb | hb
    · obtain ⟨a, ha, hab, -⟩ := hpart b hb
      have h1 := h.off a ha
      have h2 := hab.off
      have h3 := hab.lo
      have h4 := hab.hi
      omega
    · rw [List.mem_singleton] at hb
      subst hb
      exact le_rfl
  · intro b hb
    rcases List.mem_append.mp hb with hb | hb
    · obtain ⟨a, ha, hab, -⟩ := hpart b hb
      exact hab.hi.trans (h.before a ha)
    · rw [List.mem_singleton] at hb
      subst hb
      exact hbefore
  · refine List.pairwise_append.mpr ⟨?_, List.pairwise_singleton _ _, ?_⟩
    · refine List.pairwise_flatMap.mpr ⟨?_, ?_⟩
      · intro a ha
        have hoff := h.off a ha
        exact trimArea_pairwise hc (h.pos a ha) (by omega)
      · refine h.disjoint.imp_of_mem ?_
        intro a a' ha ha' hd b hb b' hb' s hs
        have hoff := h.off a ha
        have hoff' := h.off a' ha'
        have hab := (trimArea_part hc (h.pos a ha) (by omega) hb).1
        have hab' := (trimArea_part hc (h.pos a' ha') (by omega) hb').1
        exact hd s ⟨hab.has hs.1, hab'.has hs.2⟩
    · intro b hb b' hb' s hs
      obtain ⟨a, -, -, hout⟩ := hpart b hb
      rw [List.mem_singleton] at hb'
      subst hb'
      obtain ⟨⟨h1, h2⟩, ⟨h3, h4⟩⟩ := hs
      simp only at h3 h4
      omega

theorem length_flatMap_trimArea {areas : List SecArea} {cnt n c : Nat} (h : AreasOk G cnt areas)
    (hc : 0 < c) (hsmall : cnt < 2 ^ 32) :
    (areas.flatMap (trimArea n c)).length ≤ areas.length + 1 ∧
      ((∀ a ∈ areas, ¬ (a.Has n ∧ a.Has (n + c))) →
        (areas.flatMap (trimArea n c)).length ≤ areas.length) := by
  induction areas with
  | nil => simp
  | cons a as ih =>
    obtain ⟨hdisj, hrest⟩ := List.pairwise_cons.mp h.disjoint
    obtain ⟨ih1, ih2⟩ := ih ⟨fun b hb => h.pos b (List.mem_cons_of_mem _ hb),
      fun b hb => h.off b (List.mem_cons_of_mem _ hb),
      fun b hb => h.before b (List.mem_cons_of_mem _ hb), hrest⟩
    have hoff := h.off a List.mem_cons_self
    rw [List.flatMap_cons, List.length_append, List.length_cons]
    rcases trimArea_cases hc (h.pos a List.mem_cons_self) (by omega) (n := n) with
      ⟨h1, h2, hcase⟩ | ⟨h1, h2, hcase⟩ | ⟨h1, hcase⟩ | ⟨h1, h2, h3, hcase⟩ | ⟨h1, h2, h3, hcase⟩
    · -- the split area holds the whole run, so no other area meets it
      have hno := ih2 (fun b hb hbs => hdisj b hb n ⟨⟨by omega, by omega⟩, hbs.1⟩)
      rw [hcase, List.length_cons, List.length_singleton]
      refine ⟨by omega, fun hall => ?_⟩
      exact absurd ⟨⟨by omega, by omega⟩, ⟨by omega, by omega⟩⟩ (hall a List.mem_cons_self)
    all_goals
      rw [hcase]
      simp only [List.length_nil, List.length_singleton]
      refine ⟨by omega, fun hall => ?_⟩
      have hno := ih2 (fun b hb => hall b (List.mem_cons_of_mem _ hb))
      omega

theorem logSector_record {areas : List SecArea} {cnt n c : Nat} (h : AreasOk G cnt areas)
    (hc : 0 < c) (hsmall : cnt + c < 2 ^ 32) (hbefore : n + c ≤ G.transSecStart)
    (dataSecNum s : Nat) :
    logSector dataSecNum (recordRun (areas, cnt) (n, c)).1 s =
      if n ≤ s ∧ s < n + c then some (dataSecNum + cnt + (s - n))
      else logSector dataSecNum areas s := by
  have hnew := h.record hc hsmall hbefore
  have hu : u32 c = c := u32_of_lt (by omega)
  by_cases hin : n ≤ s ∧ s < n + c
  · have hmem : (⟨n, cnt, c⟩ : SecArea) ∈ (recordRun (areas, cnt) (n, c)).1 := by
      simp [recordRun, hu]
    rw [if_pos hin, logSector_of_has hnew.disjoint hmem hin]
  · rw [if_neg hin]
    by_cases hcov : ∃ a ∈ areas, a.Has s
    · obtain ⟨a, ha, has⟩ := hcov
      have hoff := h.off a ha
      obtain ⟨b, hb, hbs⟩ :=
        trimArea_covers hc (h.pos a ha) (by omega) has (n := n) (by omega)
      have hpart := (trimArea_part hc (h.pos a ha) (by omega) hb).1
      have hmem : b ∈ (recordRun (areas, cnt) (n, c)).1 :=
        List.mem_append_left _ (List.mem_flatMap.mpr ⟨a, ha, hb⟩)
      rw [logSector_of_has hnew.disjoint hmem hbs, logSector_of_has h.disjoint ha has]
      have h1 := hpart.off
      have h2 := hpart.lo
      have h3 := hbs.1
      congr 1
      omega
    · have hnone : ∀ a ∈ areas, ¬ a.Has s := fun a ha has => hcov ⟨a, ha, has⟩
      rw [logSector_of_not_has hnone, logSector_of_not_has]
      intro b hb hbs
      simp only [recordRun, hu] at hb
      rcases List.mem_append.mp hb with hb | hb
      · obtain ⟨a, ha, hba⟩ := List.mem_flatMap.mp hb
        have hoff := h.off a ha
        exact hnone a ha ((trimArea_part hc (h.pos a ha) (by omega) hba).1.has hbs)
      · rw [List.mem_singleton] at hb
        subst hb
        exact hin hbs

structure Geom.Laid (G : Geom) : Prop where
  sector_le_blk : G.sectorShift ≤ G.blkShift
  transSecCnt_pos : 0 < G.transSecCnt
  log_le_dev : (G.logStartBlk + G.logBlkCnt) * 2 ^ G.blkShift ≤ G.secCnt * 2 ^ G.sectorShift
  dev_lt : G.secCnt * 2 ^ G.sectorShift < 2 ^ 64

theorem Geom.Valid.laid (hG : G.Valid) : G.Laid :=
  ⟨hG.sector_le_blk, hG.transSecCnt_pos, hG.log_le_dev, hG.dev_lt⟩

instance : Coe G.Valid G.Laid := ⟨Geom.Valid.laid⟩

theorem Geom.secPerBlk_mul_of_le (h : G.sectorShift ≤ G.blkShift) :
    G.secPerBlk * G.sectorSize = 2 ^ G.blkShift := by
  rw [secPerBlk, sectorSize, ← pow_add, Nat.sub_add_cancel h]

theorem Geom.secPerBlk_mul (hG : G.Laid) : G.secPerBlk * G.sectorSize = 2 ^ G.blkShift :=
  secPerBlk_mul_of_le hG.sector_le_blk

theorem Geom.sectorSize_pos (G : Geom) : 0 < G.sectorSize := Nat.two_pow_pos _

theorem Geom.secPerBlk_pos (G : Geom) : 0 < G.secPerBlk := Nat.two_pow_pos _

theorem Geom.shift_eq_of_le (h : G.sectorShift ≤ G.blkShift) (n : Nat) :
    (n <<< G.blkShift) >>> G.sectorShift = n * G.secPerBlk := by
  rw [Nat.shiftLeft_eq, Nat.shiftRight_eq_div_pow, ← secPerBlk_mul_of_le h, ← Nat.mul_assoc]
  exact Nat.mul_div_cancel _ G.sectorSize_pos

theorem Geom.transSecCnt_le (G : Geom) : G.transSecCnt ≤ G.logBlkCnt := by
  rw [transSecCnt, Nat.shiftRight_eq_div_pow]
  exact Nat.div_le_self _ _

theorem Geom.logEnd_eq_of_le (h : G.sectorShift ≤ G.blkShift) :
    G.logEnd = (G.logStartBlk + G.logBlkCnt) * G.secPerBlk := by
  have hle : G.transSecCnt ≤ G.logBlkCnt * G.secPerBlk :=
    G.transSecCnt_le.trans (Nat.le_mul_of_pos_right _ G.secPerBlk_pos)
  rw [logEnd, transDataStart, transDataCnt, transSecStart, shift_eq_of_le h, shift_eq_of_le h,
    Nat.add_mul]
  omega

theorem Geom.logEnd_eq (hG : G.Laid) :
    G.logEnd = (G.logStartBlk + G.logBlkCnt) * G.secPerBlk := logEnd_eq_of_le hG.sector_le_blk

theorem Geom.logEnd_le (hG : G.Laid) : G.logEnd ≤ G.secCnt := by
  have hlog := hG.log_le_dev
  rw [← secPerBlk_mul hG, ← Nat.mul_assoc, ← logEnd_eq hG] at hlog
  exact Nat.le_of_mul_le_mul_right hlog G.sectorSize_pos

theorem Geom.transSecStart_lt_dataStart (hG : G.Laid) : G.transSecStart < G.transDataStart :=
  Nat.lt_add_of_pos_right hG.transSecCnt_pos

theorem Geom.dataStart_le_logEnd (G : Geom) : G.transDataStart ≤ G.logEnd := Nat.le_add_right _ _

def home (G : Geom) {k : Nat} (d : Nat → Sector k) : Nat → Sector k := fun s =>
  if s < G.transSecStart then d s else fun _ => 0

def view (G : Geom) {k : Nat} (st : Vol k) : Nat → Sector k :=
  home G (fun s => st.dev.med.cur ((logSector st.trans.dataSecNum st.areas s).getD s))

structure Open (G : Geom) (base : Nat → Sector G.sectorShift) (st : Vol G.sectorShift) : Prop where
  secCnt : st.dev.secCnt = G.secCnt
  status : st.trans.status = statusInit
  dataLo : G.transDataStart ≤ st.trans.dataSecNum
  dataHi : st.trans.dataSecNum + st.trans.dataSecCnt ≤ G.logEnd
  areas : AreasOk G st.trans.dataSecCnt st.areas
  areaCnt : st.areas.length ≤ G.transMaxArea
  cur : ∀ s, s < st.trans.dataSecNum ∨ G.logEnd ≤ s → st.dev.med.cur s = base s

structure Keeps (G : Geom) (st st' : Vol G.sectorShift) : Prop where
  fault : st'.fault = st.fault
  transCurSec : st'.transCurSec = st.transCurSec
  transSecOff : st'.transSecOff = st.transSecOff
  secBuff : st'.secBuff = st.secBuff
  dataCurSec : st'.dataCurSec = st.dataCurSec
  serialNum : st'.serialNum = st.serialNum
  areaReserved : st'.areaReserved = st.areaReserved
  trans : st'.trans = { st.trans with dataSecCnt := st'.trans.dataSecCnt }
  dev : ∃ ios, st'.dev = st.dev.issue ios ∧ ∀ io ∈ ios, ∃ sec cnt data,
    io = .write sec cnt data ∧ st.trans.dataSecNum ≤ sec ∧ sec + cnt ≤ G.logEnd

theorem Keeps.refl (st : Vol G.sectorShift) : Keeps G st st where
  fault := rfl
  transCurSec := rfl
  transSecOff := rfl
  secBuff := rfl
  dataCurSec := rfl
  serialNum := rfl
  areaReserved := rfl
  trans := rfl
  dev := ⟨[], (Dev.issue_nil _).symm, by simp⟩

theorem Keeps.dataSecNum {st st' : Vol G.sectorShift} (h : Keeps G st st') :
    st'.trans.dataSecNum = st.trans.dataSecNum := by rw [h.trans]

theorem Keeps.then {st st' st'' : Vol G.sectorShift} (h : Keeps G st st') (h' : Keeps G st' st'') :
    Keeps G st st'' where
  fault := h'.fault.trans h.fault
  transCurSec := h'.transCurSec.trans h.transCurSec
  transSecOff := h'.transSecOff.trans h.transSecOff
  secBuff := h'.secBuff.trans h.secBuff
  dataCurSec := h'.dataCurSec.trans h.dataCurSec
  serialNum := h'.serialNum.trans h.serialNum
  areaReserved := h'.areaReserved.trans h.areaReserved
  trans := by rw [h'.trans, h.trans]
  dev := by
    obtain ⟨ios, hdev, hios⟩ := h.dev
    obtain ⟨ios', hdev', hios'⟩ := h'.dev
    refine ⟨ios ++ ios', by rw [hdev', hdev, Dev.issue_issue], ?_⟩
    intro io hio
    rcases List.mem_append.mp hio with hio | hio
    · exact hios io hio
    · rw [← h.dataSecNum]
      exact hios' io hio

def putState {k : Nat} (buf : Bytes) (n c : Nat) (st : Vol k) : Vol k :=
  { st with
    dev := st.dev.issue
      [.write (st.trans.dataSecNum + st.trans.dataSecCnt) c (sectorOf buf)]
    areas := (recordRun (st.areas, st.trans.dataSecCnt) (n, c)).1
    trans := { st.trans with
      dataSecCnt := (recordRun (st.areas, st.trans.dataSecCnt) (n, c)).2 } }

theorem tpsFsTransPutData_eq (buf : Bytes) {n c : Nat} {st : Vol G.sectorShift} (hG : G.Laid)
    (hsec : st.dev.secCnt = G.secCnt)
    (hover : ¬ putOverflows G st.trans.dataSecNum st.areas.length st.trans.dataSecCnt c) :
    tpsFsTransPutData G buf n c st = (.errNone, putState buf n c st) := by
  have hdev := Geom.logEnd_le hG
  have hwr := st.dev.write_of_le buf (st.trans.dataSecNum + st.trans.dataSecCnt) c false
    (by rw [putOverflows, ← Geom.logEnd] at hover; omega)
  simp only [tpsFsTransPutData, if_neg hover, hwr]
  rfl

theorem tpsFsTransPutData_ok_iff {buf : Bytes} {n c : Nat} {st : Vol G.sectorShift}
    (hG : G.Laid) (hsec : st.dev.secCnt = G.secCnt) :
    (tpsFsTransPutData G buf n c st).1 = .errNone ↔
      ¬ putOverflows G st.trans.dataSecNum st.areas.length st.trans.dataSecCnt c := by
  constructor
  · intro hok hover
    rw [tpsFsTransPutData, if_pos hover] at hok
    cases hok
  · intro hover
    rw [tpsFsTransPutData_eq _ hG hsec hover]

theorem not_putOverflows_iff {n areaCnt cnt c : Nat} :
    ¬ putOverflows G n areaCnt cnt c ↔ n + cnt + c ≤ G.logEnd ∧ areaCnt + 2 ≤ G.transMaxArea := by
  rw [putOverflows, ← Geom.logEnd]
  omega

theorem Open.put {base : Nat → Sector G.sectorShift} {buf : Bytes} {n c : Nat}
    {st : Vol G.sectorShift} (h : Open G base st) (hc : 0 < c)
    (hsmall : st.trans.dataSecCnt + c < 2 ^ 32) (hbefore : n + c ≤ G.transSecStart)
    (hfit : st.trans.dataSecNum + st.trans.dataSecCnt + c ≤ G.logEnd)
    (hroom : st.areas.length + 2 ≤ G.transMaxArea) :
    Open G base (putState buf n c st) := by
  have hcnt : (recordRun (st.areas, st.trans.dataSecCnt) (n, c)).2 = st.trans.dataSecCnt + c :=
    u32_of_lt hsmall
  refine ⟨h.secCnt, h.status, h.dataLo, ?_, ?_, ?_, ?_⟩
  · simp only [putState, hcnt]
    omega
  · simp only [putState, hcnt]
    exact h.areas.record hc hsmall hbefore
  · have hlen := (length_flatMap_trimArea h.areas hc (n := n) (by omega)).1
    simp only [putState, recordRun, List.length_append, List.length_singleton]
    omega
  · intro s hs
    simp only [putState] at hs
    rw [← h.cur s hs]
    exact patch_outside _ _ (by omega)

theorem Keeps.put {buf : Bytes} {n c : Nat} {st : Vol G.sectorShift}
    (hfit : st.trans.dataSecNum + st.trans.dataSecCnt + c ≤ G.logEnd) :
    Keeps G st (putState buf n c st) where
  fault := rfl
  transCurSec := rfl
  transSecOff := rfl
  secBuff := rfl
  dataCurSec := rfl
  serialNum := rfl
  areaReserved := rfl
  trans := rfl
  dev := by
    refine ⟨_, rfl, ?_⟩
    intro io hio
    rw [List.mem_singleton] at hio
    exact ⟨_, _, _, hio, Nat.le_add_right _ _, hfit⟩

theorem view_putState {base : Nat → Sector G.sectorShift} {n c : Nat}
    {st : Vol G.sectorShift} (hG : G.Laid) (h : Open G base st) (buf : Bytes) (hc : 0 < c)
    (hsmall : st.trans.dataSecCnt + c < 2 ^ 32) (hbefore : n + c ≤ G.transSecStart) :
    view G (putState buf n c st) = patch (view G st) n c (sectorOf buf) := by
  funext s
  have hlog := logSector_record h.areas hc hsmall hbefore st.trans.dataSecNum s
  have hstart := Geom.transSecStart_lt_dataStart hG
  have hlo := h.dataLo
  have hview : view G (putState buf n c st) s = if s < G.transSecStart then
      patch st.dev.med.cur (st.trans.dataSecNum + st.trans.dataSecCnt) c (sectorOf buf)
        ((if n ≤ s ∧ s < n + c then some (st.trans.dataSecNum + st.trans.dataSecCnt + (s - n))
          else logSector st.trans.dataSecNum st.areas s).getD s)
      else fun _ => 0 := by
    rw [← hlog]
    rfl
  rw [hview]
  by_cases hin : n ≤ s ∧ s < n + c
  · rw [if_pos hin, if_pos (by omega), patch_inside (view G st) _ hin.1 hin.2, Option.getD_some,
      patch_add _ _ (by omega)]
  · rw [if_neg hin, patch_outside (view G st) _ (by omega), view, home]
    by_cases hs : s < G.transSecStart
    · rw [if_pos hs, if_pos hs]
      -- older data lies below the new log sectors, uncovered sectors before the log
      by_cases hcov : ∃ a ∈ st.areas, a.Has s
      · obtain ⟨a, ha, has⟩ := hcov
        have hoff := h.areas.off a ha
        rw [logSector_of_has h.areas.disjoint ha has, Option.getD_some]
        obtain ⟨has1, has2⟩ := has
        exact patch_outside _ _ (by omega)
      · have hnone : ∀ a ∈ st.areas, ¬ a.Has s := fun a ha has => hcov ⟨a, ha, has⟩
        rw [logSector_of_not_has hnone, Option.getD_none]
        exact patch_outside _ _ (by omega)
    · rw [if_neg hs, if_neg hs]

theorem getDataStep_spec {base : Nat → Sector G.sectorShift} {st : Vol G.sectorShift}
    (hG : G.Laid) (h : Open G base st) {n i : Nat} (hi : n + i < G.transSecStart) (buf : Bytes) :
    ∃ b, getDataStep st n buf i = some b ∧ ∀ j, (sectorOf b j : Sector G.sectorShift) =
      if j = i ∧ (logSector st.trans.dataSecNum st.areas (n + i)).isSome then view G st (n + i)
      else sectorOf buf j := by
  have hdev := Geom.logEnd_le hG
  rw [view, home, if_pos hi]
  by_cases hcov : ∃ a ∈ st.areas, a.Has (n + i)
  · obtain ⟨a, ha, has⟩ := hcov
    have hlog := logSector_of_has h.areas.disjoint ha has st.trans.dataSecNum
    have hoff := h.areas.off a ha
    have hhi := h.dataHi
    have hcnt := h.secCnt
    obtain ⟨has1, has2⟩ := has
    have hread := st.dev.read_of_le (st.trans.dataSecNum + a.secOff + (n + i - a.secStart)) 1
      (by omega)
    refine ⟨_, by rw [getDataStep, hlog]; simp only [hread, Option.map_some]; rfl, ?_⟩
    intro j
    have hpatch := sectorOf_patch_run (k := G.sectorShift) buf i 1
      (flatten (advance st.dev.med.cur
        (st.trans.dataSecNum + a.secOff + (n + i - a.secStart)))) j
    rw [Nat.one_mul] at hpatch
    rw [hpatch, hlog, Option.getD_some]
    by_cases hj : j = i
    · subst hj
      rw [patch_inside _ _ le_rfl (by omega), sectorOf_flatten, if_pos ⟨rfl, rfl⟩]
      simp only [advance]
      congr 1
      omega
    · rw [patch_outside _ _ (by omega), if_neg (fun hc => hj hc.1)]
  · have hnone : ∀ a ∈ st.areas, ¬ a.Has (n + i) := fun a ha has => hcov ⟨a, ha, has⟩
    have hlog := logSector_of_not_has hnone st.trans.dataSecNum
    refine ⟨buf, by simp only [getDataStep, hlog], ?_⟩
    intro j
    rw [hlog, if_neg (by simp)]

theorem tpsFsTransGetData_spec {base : Nat → Sector G.sectorShift} {st : Vol G.sectorShift}
    (hG : G.Laid) (h : Open G base st) {n c : Nat} (hc : n + c ≤ G.transSecStart) :
    ∃ b, tpsFsTransGetData st n c = some b ∧
      ∀ p < c * G.sectorSize, b p = flatten (view G st) (n * G.sectorSize + p) := by
  have hdev := Geom.logEnd_le hG
  have hstart := Geom.transSecStart_lt_dataStart hG
  have hend := G.dataStart_le_logEnd
  have hcnt := h.secCnt
  have hread := st.dev.read_of_le n c (by omega)
  have hloop : ∀ m ≤ c, ∃ b,
      (List.range m).foldlM (getDataStep st n) (flatten (advance st.dev.med.cur n)) = some b ∧
      ∀ j < c, (sectorOf b j : Sector G.sectorShift) =
        if j < m then view G st (n + j) else st.dev.med.cur (n + j) := by
    intro m
    induction m with
    | zero =>
      intro _
      refine ⟨_, rfl, ?_⟩
      intro j _
      rw [sectorOf_flatten, if_neg (by omega)]
      rfl
    | succ m ih =>
      intro hm
      obtain ⟨b, hb, hsec⟩ := ih (by omega)
      obtain ⟨b', hb', hsec'⟩ := getDataStep_spec hG h (n := n) (i := m) (by omega) b
      refine ⟨b', ?_, ?_⟩
      · rw [List.range_succ, List.foldlM_append, hb]
        simpa using hb'
      · intro j hj
        rw [hsec' j]
        by_cases hjm : j = m
        · subst hjm
          rw [if_pos (by omega : j < j + 1)]
          cases hlog : logSector st.trans.dataSecNum st.areas (n + j) with
          | some x => rw [if_pos ⟨rfl, rfl⟩]
          | none =>
            rw [if_neg (by simp), hsec j hj, if_neg (by omega), view, home, if_pos (by omega), hlog,
              Option.getD_none]
        · rw [if_neg (fun hand => hjm hand.1), hsec j hj]
          by_cases hlt : j < m
          · rw [if_pos hlt, if_pos (by omega)]
          · rw [if_neg hlt, if_neg (by omega)]
  obtain ⟨b, hb, hsec⟩ := hloop c le_rfl
  refine ⟨b, ?_, ?_⟩
  · rw [tpsFsTransGetData, if_neg (by simp [h.status]), hread]
    exact hb
  · intro p hp
    have hbyte := byte_eq_flatten (k := G.sectorShift) (advance (view G st) n) (n := c)
      (fun i hi => by rw [hsec i hi, if_pos hi]; rfl) hp
    rw [hbyte, flatten_advance]
    rfl

def Geom.addr (G : Geom) (blk off : Nat) : Nat := blk * 2 ^ G.blkShift + off

def Geom.homeLen (G : Geom) : Nat := G.transSecStart * G.sectorSize

structure AccessSpec (G : Geom) (addr len : Nat) (acc : Access) : Prop where
  addr_eq : addr = acc.secNum * G.sectorSize + acc.secOff
  len_eq : len = acc.headLen + acc.secCnt * G.sectorSize + acc.tailLen
  head_le : acc.secOff + acc.headLen ≤ G.sectorSize
  head_zero : acc.secOff = 0 → acc.headLen = 0
  tail_lt : acc.tailLen < G.sectorSize
  mid : 0 < acc.secCnt ∨ 0 < acc.tailLen → acc.midSec * G.sectorSize = addr + acc.headLen

theorem secOfAddr_eq {blk off len : Nat} (h : G.addr blk off + len < 2 ^ 64) :
    secOfAddr G blk off len = (G.addr blk off + len) / G.sectorSize := by
  rw [Geom.addr] at h ⊢
  rw [secOfAddr, Nat.shiftLeft_eq, u64_of_lt (n := blk * 2 ^ G.blkShift) (by omega),
    u64_of_lt (n := blk * 2 ^ G.blkShift + off) (by omega), u64_of_lt h,
    Nat.shiftRight_eq_div_pow]
  rfl

theorem addr_mod (hG : G.Laid) (blk off : Nat) :
    G.addr blk off % G.sectorSize = off % G.sectorSize := by
  rw [Geom.addr, ← Geom.secPerBlk_mul hG, ← Nat.mul_assoc, Nat.mul_add_mod_self_right]

theorem access_spec (hG : G.Laid) {blk off len : Nat} (h : G.addr blk off + len < 2 ^ 64) :
    AccessSpec G (G.addr blk off) len (access G blk off len) := by
  have hpos := G.sectorSize_pos
  have hmod := addr_mod hG blk off
  have hmod' : (G.addr blk off + len) % G.sectorSize = (off + len) % G.sectorSize := by
    rw [Nat.add_mod, hmod, ← Nat.add_mod]
  have hsec : secOfAddr G blk off 0 = G.addr blk off / G.sectorSize := secOfAddr_eq (by omega)
  have hsec' := secOfAddr_eq h
  have hq := Nat.div_add_mod' (G.addr blk off) G.sectorSize
  have hq' := Nat.div_add_mod' (G.addr blk off + len) G.sectorSize
  have hr := Nat.mod_lt (G.addr blk off) hpos
  have hr' := Nat.mod_lt (G.addr blk off + len) hpos
  have hle : G.addr blk off / G.sectorSize ≤ (G.addr blk off + len) / G.sectorSize :=
    Nat.div_le_div_right (Nat.le_add_right _ _)
  rw [hmod] at hq hr
  rw [hmod'] at hq' hr'
  simp only [access, hsec, hsec']
  generalize G.addr blk off / G.sectorSize = q at *
  generalize (G.addr blk off + len) / G.sectorSize = q' at *
  generalize off % G.sectorSize = r at *
  generalize (off + len) % G.sectorSize = r' at *
  obtain ⟨d, rfl⟩ := Nat.exists_eq_add_of_le hle
  rw [Nat.add_mul] at hq'
  rw [Nat.add_sub_cancel_left]
  by_cases hr0 : r = 0
  · subst hr0
    simp only [ne_eq, not_true_eq_false, if_false]
    have htail : (if 0 + d * G.sectorSize < len then r' else 0) = r' := by
      split <;> omega
    rw [htail]
    exact ⟨by dsimp only; omega, by dsimp only; omega, by dsimp only; omega, fun _ => rfl, hr',
      fun _ => by dsimp only; omega⟩
  · simp only [ne_eq, hr0, not_false_eq_true, if_true]
    cases d with
    | zero =>
      have hmin : min len (G.sectorSize - r) = len := by omega
      simp only [hmin, Nat.zero_sub, Nat.zero_mul, Nat.add_zero, Nat.lt_irrefl, if_false]
      exact ⟨by dsimp only; omega, by dsimp only; omega, by dsimp only; omega,
        fun h0 => absurd h0 hr0, hpos, by simp⟩
    | succ d =>
      rw [Nat.add_mul, Nat.one_mul] at hq'
      have hmin : min len (G.sectorSize - r) = G.sectorSize - r := by omega
      have hdec : d + 1 - 1 = d := by omega
      simp only [hmin, hdec]
      have htail : (if G.sectorSize - r + d * G.sectorSize < len then r' else 0) = r' := by
        split <;> omega
      rw [htail]
      refine ⟨by dsimp only; omega, by dsimp only; omega, by dsimp only; omega,
        fun h0 => absurd h0 hr0, hr', ?_⟩
      intro _
      dsimp only
      rw [Nat.add_mul, Nat.one_mul]
      omega

namespace AccessSpec

variable {addr len : Nat} {acc : Access}

theorem head_before (h : AccessSpec G addr len acc) (hb : addr + len ≤ G.homeLen)
    (hoff : acc.secOff ≠ 0) : acc.secNum + 1 ≤ G.transSecStart := by
  have haddr := h.addr_eq
  by_contra hlt
  have hmul : G.transSecStart * G.sectorSize ≤ acc.secNum * G.sectorSize :=
    Nat.mul_le_mul_right _ (by omega)
  rw [Geom.homeLen] at hb
  omega

theorem mid_before (h : AccessSpec G addr len acc) (hb : addr + len ≤ G.homeLen)
    (hcnt : 0 < acc.secCnt) : acc.midSec + acc.secCnt ≤ G.transSecStart := by
  have hmid := h.mid (Or.inl hcnt)
  have hlen := h.len_eq
  refine Nat.le_of_mul_le_mul_right (c := G.sectorSize) ?_ G.sectorSize_pos
  rw [Nat.add_mul]
  rw [Geom.homeLen] at hb
  omega

theorem tail_before (h : AccessSpec G addr len acc) (hb : addr + len ≤ G.homeLen)
    (htail : 0 < acc.tailLen) : acc.midSec + acc.secCnt + 1 ≤ G.transSecStart := by
  have hmid := h.mid (Or.inr htail)
  have hlen := h.len_eq
  by_contra hlt
  have hmul : G.transSecStart * G.sectorSize ≤ (acc.midSec + acc.secCnt) * G.sectorSize :=
    Nat.mul_le_mul_right _ (by omega)
  rw [Nat.add_mul] at hmul
  rw [Geom.homeLen] at hb
  omega

end AccessSpec

theorem homeLen_lt (hG : G.Laid) : G.homeLen < 2 ^ 64 := by
  have h1 := Geom.logEnd_le hG
  have h2 := Geom.transSecStart_lt_dataStart hG
  have h3 := G.dataStart_le_logEnd
  have hmul : G.transSecStart * G.sectorSize ≤ G.secCnt * G.sectorSize :=
    Nat.mul_le_mul_right _ (by omega)
  exact lt_of_le_of_lt hmul hG.dev_lt

theorem Open.sectorBuf {base : Nat → Sector G.sectorShift} {st : Vol G.sectorShift}
    (h : Open G base st) (buf : Bytes) : Open G base { st with sectorBuf := buf } :=
  ⟨h.secCnt, h.status, h.dataLo, h.dataHi, h.areas, h.areaCnt, h.cur⟩

theorem tpsFsTransRead_spec {base : Nat → Sector G.sectorShift} {st : Vol G.sectorShift}
    (hG : G.Laid) (h : Open G base st) {blk off len : Nat}
    (hb : G.addr blk off + len ≤ G.homeLen) (buff : Bytes) :
    ∃ out buf, tpsFsTransRead G blk off buff len st =
        (.errNone, out, { st with sectorBuf := buf }) ∧
      ∀ i < len, out i = flatten (view G st) (G.addr blk off + i) := by
  have hacc := access_spec hG (lt_of_le_of_lt hb (homeLen_lt hG))
  have haddr := hacc.addr_eq
  have hlen := hacc.len_eq
  rw [tpsFsTransRead]
  generalize access G blk off len = acc at *
  -- the head
  have hhead : ∃ out buf, (if acc.secOff ≠ 0 then
        (tpsFsTransGetData st acc.secNum 1).map (fun b =>
          let secBuf := patch st.sectorBuf 0 G.sectorSize b
          (patch buff 0 acc.headLen (advance secBuf acc.secOff), { st with sectorBuf := secBuf }))
      else some (buff, st)) = some (out, { st with sectorBuf := buf }) ∧
      ∀ i < acc.headLen, out i = flatten (view G st) (G.addr blk off + i) := by
    by_cases hoff : acc.secOff = 0
    · refine ⟨buff, st.sectorBuf, by rw [if_neg (by simpa using hoff)], ?_⟩
      rw [hacc.head_zero hoff]
      intro i hi
      omega
    · obtain ⟨b, hget, hbyte⟩ := tpsFsTransGetData_spec hG h (hacc.head_before hb hoff)
      refine ⟨_, _, by rw [if_pos hoff, hget]; rfl, ?_⟩
      intro i hi
      have hle := hacc.head_le
      rw [patch_inside _ _ (Nat.zero_le _) (by omega), advance,
        patch_inside _ _ (Nat.zero_le _) (by omega), hbyte _ (by omega)]
      congr 1
      omega
  obtain ⟨out, buf, hhead, hheadByte⟩ := hhead
  simp only [hhead]
  have hst : Open G base { st with sectorBuf := buf } := h.sectorBuf buf
  -- the whole sectors
  have hmid : ∃ out', (if 0 < acc.secCnt then
        (tpsFsTransGetData { st with sectorBuf := buf } acc.midSec acc.secCnt).map (fun b =>
          patch out acc.headLen (acc.secCnt * G.sectorSize) b)
      else some out) = some out' ∧
      ∀ i < acc.headLen + acc.secCnt * G.sectorSize,
        out' i = flatten (view G st) (G.addr blk off + i) := by
    by_cases hcnt : 0 < acc.secCnt
    · obtain ⟨b, hget, hbyte⟩ := tpsFsTransGetData_spec hG hst (hacc.mid_before hb hcnt)
      refine ⟨patch out acc.headLen (acc.secCnt * G.sectorSize) b,
        by rw [if_pos hcnt, hget]; rfl, ?_⟩
      intro i hi
      by_cases hlt : i < acc.headLen
      · rw [patch_outside _ _ (by omega), hheadByte i hlt]
      · have hmid := hacc.mid (Or.inl hcnt)
        rw [patch_inside _ _ (by omega) hi, hbyte _ (by omega)]
        change flatten (view G st) _ = _
        congr 1
        omega
    · refine ⟨out, by rw [if_neg hcnt], ?_⟩
      have hzero : acc.secCnt = 0 := by omega
      rw [hzero, Nat.zero_mul, Nat.add_zero]
      exact hheadByte
  obtain ⟨out', hmid, hmidByte⟩ := hmid
  simp only [hmid]
  -- the tail
  by_cases htail : 0 < acc.tailLen
  · obtain ⟨b, hget, hbyte⟩ := tpsFsTransGetData_spec hG hst (hacc.tail_before hb htail)
    refine ⟨_, _, by rw [if_pos htail, hget], ?_⟩
    intro i hi
    by_cases hlt : i < acc.headLen + acc.secCnt * G.sectorSize
    · rw [patch_outside _ _ (by omega), hmidByte i hlt]
    · have hm := hacc.mid (Or.inr htail)
      have htl := hacc.tail_lt
      rw [patch_inside _ _ (by omega) (by omega), patch_inside _ _ (Nat.zero_le _) (by omega),
        hbyte _ (by omega)]
      change flatten (view G st) _ = _
      rw [Nat.add_mul]
      congr 1
      omega
  · refine ⟨out', buf, by rw [if_neg htail], ?_⟩
    intro i hi
    exact hmidByte i (by omega)

def accessRuns (acc : Access) : List (Nat × Nat) :=
  (if acc.secOff ≠ 0 then [(acc.secNum, 1)] else []) ++
    (if 0 < acc.secCnt then [(acc.midSec, acc.secCnt)] else []) ++
    (if 0 < acc.tailLen then [(acc.midSec + acc.secCnt, 1)] else [])

def runsLen (runs : List (Nat × Nat)) : Nat := (runs.map Prod.snd).sum

theorem runsLen_append (runs runs' : List (Nat × Nat)) :
    runsLen (runs ++ runs') = runsLen runs + runsLen runs' := by
  simp [runsLen]

structure Wrote (G : Geom) (base : Nat → Sector G.sectorShift) (runs : List (Nat × Nat))
    (f : Bytes → Bytes) (st st' : Vol G.sectorShift) : Prop where
  opened : Open G base st'
  keeps : Keeps G st st'
  foot : (st'.areas, st'.trans.dataSecCnt) =
    runs.foldl recordRun (st.areas, st.trans.dataSecCnt)
  cnt : st'.trans.dataSecCnt = st.trans.dataSecCnt + runsLen runs
  bytes : flatten (view G st') = f (flatten (view G st))

def patchAt (addr len : Nat) (src : Bytes) : Bytes → Bytes := fun d => patch d addr len src

namespace Wrote

variable {base : Nat → Sector G.sectorShift} {st st' st'' : Vol G.sectorShift}

theorem refl (h : Open G base st) : Wrote G base [] id st st :=
  ⟨h, Keeps.refl st, rfl, rfl, rfl⟩

theorem none (h : Open G base st) (addr : Nat) (src : Bytes) :
    Wrote G base [] (patchAt addr 0 src) st st :=
  ⟨h, Keeps.refl st, rfl, rfl, (patch_zero _ _ _).symm⟩

theorem comp {runs runs' : List (Nat × Nat)} {f f' : Bytes → Bytes}
    (h : Wrote G base runs f st st') (h' : Wrote G base runs' f' st' st'') :
    Wrote G base (runs ++ runs') (f' ∘ f) st st'' where
  opened := h'.opened
  keeps := h.keeps.then h'.keeps
  foot := by rw [h'.foot, h.foot, List.foldl_append]
  cnt := by rw [h'.cnt, h.cnt, runsLen_append, Nat.add_assoc]
  bytes := by rw [h'.bytes, h.bytes, Function.comp]

theorem append {runs runs' : List (Nat × Nat)} {addr addr' len len' : Nat} {src : Bytes}
    (h : Wrote G base runs (patchAt addr len src) st st')
    (h' : Wrote G base runs' (patchAt addr' len' (advance src len)) st' st'')
    (haddr : len' = 0 ∨ addr' = addr + len) :
    Wrote G base (runs ++ runs') (patchAt addr (len + len') src) st st'' := by
  have hfun : patchAt addr' len' (advance src len) ∘ patchAt addr len src =
      patchAt addr (len + len') src := by
    funext d
    simp only [Function.comp, patchAt]
    rcases haddr with rfl | rfl
    · rw [patch_zero, Nat.add_zero]
    · exact patch_patch_advance _ _ _ _ _
  rw [← hfun]
  exact h.comp h'

end Wrote

theorem tpsFsTransPutData_wrote {base : Nat → Sector G.sectorShift} {st : Vol G.sectorShift}
    (hG : G.Laid) (h : Open G base st) {buf : Bytes} {n c : Nat} (hc : 0 < c)
    (hsmall : st.trans.dataSecCnt + c < 2 ^ 32) (hbefore : n + c ≤ G.transSecStart)
    (hok : (tpsFsTransPutData G buf n c st).1 = .errNone) :
    tpsFsTransPutData G buf n c st = (.errNone, putState buf n c st) ∧
      Wrote G base [(n, c)] (patchAt (n * G.sectorSize) (c * G.sectorSize) buf) st
        (putState buf n c st) := by
  have hover := (tpsFsTransPutData_ok_iff hG h.secCnt).mp hok
  have heq := tpsFsTransPutData_eq buf hG h.secCnt hover (n := n)
  have hfit := not_putOverflows_iff.mp hover
  refine ⟨heq, h.put hc hsmall hbefore hfit.1 hfit.2, Keeps.put hfit.1, rfl, ?_, ?_⟩
  · simp only [putState, recordRun, u32_of_lt hsmall]
    simp [runsLen]
  · rw [view_putState hG h buf hc hsmall hbefore, flatten_patch, flatten_sectorOf]
    rfl

theorem toBufWrite_ok_iff {r : TpsResult × Vol G.sectorShift} :
    (toBufWrite r).1 = .errNone ↔ r.1 = .errNone := by
  obtain ⟨e, st⟩ := r
  cases e <;> simp [toBufWrite]

def RunsFit (G : Geom) (dataSecNum : Nat) : List (Nat × Nat) → List SecArea × Nat → Prop
  | [], _ => True
  | r :: rs, p => ¬ putOverflows G dataSecNum p.1.length p.2 r.2 ∧
      RunsFit G dataSecNum rs (recordRun p r)

theorem RunsFit_append {dataSecNum : Nat} {rs rs' : List (Nat × Nat)} {p : List SecArea × Nat} :
    RunsFit G dataSecNum (rs ++ rs') p ↔
      RunsFit G dataSecNum rs p ∧ RunsFit G dataSecNum rs' (rs.foldl recordRun p) := by
  induction rs generalizing p with
  | nil => simp [RunsFit]
  | cons r rs ih => simp only [List.cons_append, RunsFit, ih, List.foldl_cons, and_assoc]

theorem modifySector_wrote {base : Nat → Sector G.sectorShift} {st st' : Vol G.sectorShift}
    (hG : G.Laid) (h : Open G base st) {sec off len : Nat} {src : Bytes}
    (hsmall : st.trans.dataSecCnt + 1 < 2 ^ 32) (hbefore : sec + 1 ≤ G.transSecStart)
    (hlen : off + len ≤ G.sectorSize)
    (hok : modifySector G sec off len src st = (.errNone, st')) :
    Wrote G base [(sec, 1)] (patchAt (sec * G.sectorSize + off) len src) st st' := by
  obtain ⟨b, hget, hbyte⟩ := tpsFsTransGetData_spec hG h hbefore
  simp only [modifySector, hget] at hok
  generalize hbuf : patch (patch st.sectorBuf 0 G.sectorSize b) off len src = secBuf at hok
  have hst := h.sectorBuf secBuf
  have hputOk := toBufWrite_ok_iff.mp (congrArg Prod.fst hok)
  obtain ⟨heq, hw⟩ := tpsFsTransPutData_wrote hG hst (n := sec) Nat.one_pos hsmall hbefore hputOk
  simp only [heq, toBufWrite, Prod.mk.injEq, true_and] at hok
  subst hok
  refine ⟨hw.opened, ⟨rfl, rfl, rfl, rfl, rfl, rfl, rfl, rfl, hw.keeps.dev⟩, hw.foot, hw.cnt, ?_⟩
  rw [hw.bytes, Nat.one_mul, ← hbuf]
  unfold patchAt
  apply patch_window
  · intro j hj
    rw [patch_inside _ _ (Nat.zero_le _) (by omega), hbyte _ (by omega)]
    rfl
  · exact hlen

theorem modifySector_ok_iff {base : Nat → Sector G.sectorShift} {st : Vol G.sectorShift}
    (hG : G.Laid) (h : Open G base st) {sec off len : Nat} {src : Bytes}
    (hbefore : sec + 1 ≤ G.transSecStart) :
    (modifySector G sec off len src st).1 = .errNone ↔
      ¬ putOverflows G st.trans.dataSecNum st.areas.length st.trans.dataSecCnt 1 := by
  obtain ⟨b, hget, -⟩ := tpsFsTransGetData_spec hG h hbefore
  simp only [modifySector, hget, toBufWrite_ok_iff]
  exact tpsFsTransPutData_ok_iff hG h.secCnt

theorem unaligned_spec {base : Nat → Sector G.sectorShift} {st : Vol G.sectorShift}
    (hG : G.Laid) (h : Open G base st) {p : Prop} [Decidable p] {sec : Nat} (off len : Nat) {src : Bytes}
    (hbefore : p → sec + 1 ≤ G.transSecStart) (hlen : off + len ≤ G.sectorSize)
    (hnone : ¬ p → len = 0) :
    ((if p then modifySector G sec off len src st else (.errNone, st)).1 = .errNone ↔
      RunsFit G st.trans.dataSecNum (if p then [(sec, 1)] else [])
        (st.areas, st.trans.dataSecCnt)) ∧
    ∀ st', st.trans.dataSecCnt + runsLen (if p then [(sec, 1)] else []) < 2 ^ 32 →
      (if p then modifySector G sec off len src st else (.errNone, st)) = (.errNone, st') →
      Wrote G base (if p then [(sec, 1)] else []) (patchAt (sec * G.sectorSize + off) len src)
        st st' := by
  by_cases hp : p
  · simp only [if_pos hp]
    refine ⟨?_, ?_⟩
    · rw [modifySector_ok_iff hG h (hbefore hp)]
      simp [RunsFit]
    · intro st' hsmall hok
      exact modifySector_wrote hG h hsmall (hbefore hp) hlen hok
  · simp only [if_neg hp]
    refine ⟨by simp [RunsFit], ?_⟩
    intro st' _ hok
    simp only [Prod.mk.injEq, true_and] at hok
    subst hok
    rw [hnone hp]
    exact Wrote.none h _ _

theorem aligned_spec {base : Nat → Sector G.sectorShift} {st : Vol G.sectorShift}
    (hG : G.Laid) (h : Open G base st) {n c : Nat} {buf : Bytes}
    (hbefore : 0 < c → n + c ≤ G.transSecStart) :
    ((if 0 < c then toBufWrite (tpsFsTransPutData G buf n c st)
        else (.errNone, st)).1 = .errNone ↔
      RunsFit G st.trans.dataSecNum (if 0 < c then [(n, c)] else [])
        (st.areas, st.trans.dataSecCnt)) ∧
    ∀ st', st.trans.dataSecCnt + runsLen (if 0 < c then [(n, c)] else []) < 2 ^ 32 →
      (if 0 < c then toBufWrite (tpsFsTransPutData G buf n c st)
        else (.errNone, st)) = (.errNone, st') →
      Wrote G base (if 0 < c then [(n, c)] else [])
        (patchAt (n * G.sectorSize) (c * G.sectorSize) buf) st st' := by
  by_cases hc : 0 < c
  · simp only [if_pos hc]
    refine ⟨?_, ?_⟩
    · rw [toBufWrite_ok_iff, tpsFsTransPutData_ok_iff hG h.secCnt]
      simp [RunsFit]
    · intro st' hsmall hok
      obtain ⟨heq, hw⟩ := tpsFsTransPutData_wrote hG h hc (by simpa [runsLen] using hsmall)
        (hbefore hc) (toBufWrite_ok_iff.mp (congrArg Prod.fst hok))
      simp only [heq, toBufWrite, Prod.mk.injEq, true_and] at hok
      subst hok
      exact hw
  · have hzero : c = 0 := by omega
    simp only [if_neg hc]
    refine ⟨by simp [RunsFit], ?_⟩
    intro st' _ hok
    simp only [Prod.mk.injEq, true_and] at hok
    subst hok
    rw [hzero, Nat.zero_mul]
    exact Wrote.none h _ _

theorem tpsFsTransWrite_spec {base : Nat → Sector G.sectorShift} {st : Vol G.sectorShift}
    (hG : G.Laid) (h : Open G base st) {blk off len : Nat} {buff : Bytes}
    (hb : G.addr blk off + len ≤ G.homeLen)
    (hsmall : st.trans.dataSecCnt + runsLen (accessRuns (access G blk off len)) < 2 ^ 32) :
    ((tpsFsTransWrite G blk off buff len st).1 = .errNone ↔
      RunsFit G st.trans.dataSecNum (accessRuns (access G blk off len))
        (st.areas, st.trans.dataSecCnt)) ∧
    ∀ st', tpsFsTransWrite G blk off buff len st = (.errNone, st') →
      Wrote G base (accessRuns (access G blk off len)) (patchAt (G.addr blk off) len buff)
        st st' := by
  have hacc := access_spec hG (lt_of_le_of_lt hb (homeLen_lt hG))
  have haddr := hacc.addr_eq
  have hlen := hacc.len_eq
  rw [tpsFsTransWrite]
  generalize access G blk off len = acc at *
  simp only [accessRuns, runsLen_append] at hsmall
  obtain ⟨hfit1, hwrote1⟩ := unaligned_spec hG h (p := acc.secOff ≠ 0) _ _
    (hacc.head_before hb) hacc.head_le (fun hp => hacc.head_zero (by simpa using hp))
  rw [← haddr] at hwrote1
  simp only [accessRuns, RunsFit_append, andThen_fst_ok, andThen_eq_ok]
  rw [← hfit1]
  -- the later parts start from the states the earlier ones leave
  cases hr1 : (if acc.secOff ≠ 0 then modifySector G acc.secNum acc.secOff acc.headLen buff st
      else (.errNone, st)) with
  | mk e1 st1 =>
    by_cases he1 : e1 = .errNone
    · subst he1
      have hw1 := hwrote1 st1 (by omega) hr1
      obtain ⟨hfit2, hwrote2⟩ := aligned_spec hG hw1.opened (n := acc.midSec) (c := acc.secCnt)
        (hacc.mid_before hb)
      rw [hw1.keeps.dataSecNum, hw1.foot] at hfit2
      rw [andThen]
      simp only [true_and]
      rw [← hfit2]
      cases hr2 : (if 0 < acc.secCnt then
          toBufWrite (tpsFsTransPutData G (advance buff acc.headLen) acc.midSec acc.secCnt st1)
          else (.errNone, st1)) with
      | mk e2 st2 =>
        by_cases he2 : e2 = .errNone
        · subst he2
          have hw2 := hwrote2 st2 (by rw [hw1.cnt]; omega) hr2
          have hw12 := hw1.append hw2 (by
            rcases Nat.eq_zero_or_pos acc.secCnt with hz | hp
            · exact Or.inl (by rw [hz, Nat.zero_mul])
            · exact Or.inr (hacc.mid (Or.inl hp)))
          have htl := hacc.tail_lt
          obtain ⟨hfit3, hwrote3⟩ := unaligned_spec hG hw2.opened (p := 0 < acc.tailLen)
            0 acc.tailLen (hacc.tail_before hb) (by omega) (by omega)
          rw [hw12.keeps.dataSecNum, hw12.foot] at hfit3
          refine ⟨by simpa using hfit3, ?_⟩
          rintro st' ⟨st2', ⟨st1', h1, h2⟩, h3⟩
          simp only [Prod.mk.injEq, true_and] at h1
          subst h1
          rw [hr2] at h2
          simp only [Prod.mk.injEq, true_and] at h2
          subst h2
          have hw3 := hwrote3 st' (by rw [hw2.cnt, hw1.cnt]; omega) h3
          have hall := hw12.append hw3 (by
            rcases Nat.eq_zero_or_pos acc.tailLen with hz | hp
            · exact Or.inl hz
            · refine Or.inr ?_
              rw [Nat.add_mul, hacc.mid (Or.inr hp)]
              omega)
          rw [← hlen] at hall
          exact hall
        · refine ⟨by simp [he2], ?_⟩
          rintro st' ⟨st2', ⟨st1', h1, h2⟩, h3⟩
          simp only [Prod.mk.injEq, true_and] at h1
          subst h1
          rw [hr2] at h2
          simp only [Prod.mk.injEq] at h2
          exact absurd h2.1 he2
    · refine ⟨by simp [he1], ?_⟩
      rintro st' ⟨st2', ⟨st1', h1, h2⟩, h3⟩
      simp only [Prod.mk.injEq] at h1
      exact absurd h1.1 he1

def TransWrite.Inside (G : Geom) (w : TransWrite) : Prop := G.addr w.blk w.off + w.len ≤ G.homeLen

def TransWrite.runs (G : Geom) (w : TransWrite) : List (Nat × Nat) :=
  accessRuns (access G w.blk w.off w.len)

def overlay (G : Geom) (ws : List TransWrite) (d : Bytes) : Bytes :=
  ws.foldl (fun d w => patch d (G.addr w.blk w.off) w.len w.buff) d

def loggedSecs (G : Geom) (ws : List TransWrite) : Nat := runsLen (ws.flatMap (TransWrite.runs G))

def recordedAreas (G : Geom) (ws : List TransWrite) : List SecArea :=
  ((ws.flatMap (TransWrite.runs G)).foldl recordRun ([], 0)).1

theorem loggedSecs_cons (w : TransWrite) (ws : List TransWrite) :
    loggedSecs G (w :: ws) = runsLen (w.runs G) + loggedSecs G ws := by
  rw [loggedSecs, List.flatMap_cons, runsLen_append, loggedSecs]

theorem transWrites_spec {base : Nat → Sector G.sectorShift} (hG : G.Laid)
    {ws : List TransWrite} {st : Vol G.sectorShift} (h : Open G base st)
    (hin : ∀ w ∈ ws, w.Inside G) (hsmall : st.trans.dataSecCnt + loggedSecs G ws < 2 ^ 32) :
    ((transWrites G ws st).1 = .errNone ↔
      RunsFit G st.trans.dataSecNum (ws.flatMap (TransWrite.runs G))
        (st.areas, st.trans.dataSecCnt)) ∧
    ∀ st', transWrites G ws st = (.errNone, st') →
      Wrote G base (ws.flatMap (TransWrite.runs G)) (overlay G ws) st st' := by
  induction ws generalizing st with
  | nil =>
    refine ⟨by simp [transWrites, RunsFit], ?_⟩
    intro st' hok
    simp only [transWrites, Prod.mk.injEq, true_and] at hok
    subst hok
    exact Wrote.refl h
  | cons w ws ih =>
    rw [loggedSecs_cons] at hsmall
    obtain ⟨hfit, hwrote⟩ := tpsFsTransWrite_spec hG h (hin w List.mem_cons_self)
      (by rw [← TransWrite.runs]; omega)
    rw [List.flatMap_cons, RunsFit_append, transWrites, andThen_fst_ok]
    rw [← TransWrite.runs] at hfit hwrote
    rw [← hfit]
    cases hr : tpsFsTransWrite G w.blk w.off w.buff w.len st with
    | mk e st1 =>
      by_cases he : e = .errNone
      · subst he
        have hone := hwrote st1 hr
        obtain ⟨hfit', hwrote'⟩ := ih hone.opened
          (fun w' hw' => hin w' (List.mem_cons_of_mem _ hw')) (by rw [hone.cnt]; omega)
        rw [hone.keeps.dataSecNum, hone.foot] at hfit'
        refine ⟨by simpa using hfit', ?_⟩
        intro st' hok
        exact hone.comp (hwrote' st' hok)
      · refine ⟨by simp [he], ?_⟩
        intro st' hok
        rw [andThen_eq_ok] at hok
        obtain ⟨st1', h1, -⟩ := hok
        simp only [Prod.mk.injEq] at h1
        exact absurd h1.1 he

theorem transWrites_append (ws ws' : List TransWrite) (st : Vol G.sectorShift) :
    transWrites G (ws ++ ws') st = andThen (transWrites G ws st) (transWrites G ws') := by
  induction ws generalizing st with
  | nil => rfl
  | cons w ws ih =>
    rw [List.cons_append, transWrites, transWrites]
    cases hw : tpsFsTransWrite G w.blk w.off w.buff w.len st with
    | mk e st1 => cases e <;> simp [andThen, ih]

end SylixOS.TpsTrans
