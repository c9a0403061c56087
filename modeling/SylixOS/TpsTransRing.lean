import SylixOS.TpsTransCommit
import SylixOS.SerialRing

/-! The header ring on disk and the search for its newest header. Slot
`i` holds the header of the transactions with serial numbers `i` modulo
the ring size; the search of `tspFsCheckTrans` finds the newest one in
every ring that consecutive commits can leave. -/

namespace SylixOS.TpsTrans
open SylixOS.ByteBuffer SylixOS.SectorDevice SylixOS.SerialRing

variable {G : Geom}

def Geom.slotPerSec (G : Geom) : Nat := 2 ^ (G.sectorShift - Geom.tranShift)

theorem Geom.slotPerSec_pos (G : Geom) : 0 < G.slotPerSec := Nat.two_pow_pos _

theorem slotCnt_eq (G : Geom) : G.slotCnt = G.transSecCnt * G.slotPerSec := by
  rw [Geom.slotCnt, Nat.shiftLeft_eq, Geom.slotPerSec]

theorem slotPerSec_ge (hG : G.Valid) : 8 ≤ G.slotPerSec := by
  have hshift := hG.sectorShift_ge
  have hpow : 2 ^ 3 ≤ 2 ^ (G.sectorShift - 6) := Nat.pow_le_pow_right (by omega) (by omega)
  exact hpow

theorem sectorSize_eq_slots (hG : G.Valid) : G.sectorSize = G.slotPerSec * 64 := by
  have hshift := hG.sectorShift_ge
  rw [Geom.sectorSize, Geom.slotPerSec, show (64 : Nat) = 2 ^ 6 from rfl, ← pow_add,
    Geom.tranShift, Nat.sub_add_cancel (by omega)]

theorem slotCnt_ge (hG : G.Valid) : 8 ≤ G.slotCnt := by
  have h1 := slotPerSec_ge hG
  have h2 := hG.transSecCnt_pos
  rw [slotCnt_eq]
  calc 8 ≤ 1 * G.slotPerSec := by omega
    _ ≤ G.transSecCnt * G.slotPerSec := Nat.mul_le_mul_right _ h2

def slotSec (G : Geom) (i : Nat) : Nat := G.transSecStart + i / G.slotPerSec
def slotOff (G : Geom) (i : Nat) : Nat := i % G.slotPerSec * 64

theorem slotOff_le (hG : G.Valid) (i : Nat) : slotOff G i + 64 ≤ G.sectorSize := by
  have hlt := Nat.mod_lt i G.slotPerSec_pos
  rw [slotOff, sectorSize_eq_slots hG]
  omega

theorem slotSec_lt {i : Nat} (h : i < G.slotCnt) : slotSec G i < G.transDataStart := by
  have hdiv : i / G.slotPerSec < G.transSecCnt := by
    rw [Nat.div_lt_iff_lt_mul G.slotPerSec_pos, ← slotCnt_eq]
    exact h
  rw [slotSec, Geom.transDataStart]
  omega

def slotHead (G : Geom) (d : Nat → Sector G.sectorShift) (i : Nat) : TransHead :=
  tpsFsTransUnserial G (sectorByte (d (slotSec G i))) (slotOff G i)

theorem getTransHead_congr {b c : Bytes} {pos pos' : Nat}
    (h : ∀ i < 64, b (pos + i) = c (pos' + i)) : getTransHead b pos = getTransHead c pos' := by
  have hfield : ∀ w o, o + w ≤ 64 → getLE w b (pos + o) = getLE w c (pos' + o) := by
    intro w o ho
    apply getLE_congr
    intro i hi
    rw [Nat.add_assoc, Nat.add_assoc]
    exact h (o + i) (by omega)
  have hfirst := hfield 4 0 (by omega)
  rw [Nat.add_zero, Nat.add_zero] at hfirst
  rw [getTransHead, getTransHead, hfirst, hfield 4 4 (by omega), hfield 8 8 (by omega),
    hfield 8 16 (by omega), hfield 4 24 (by omega), hfield 4 28 (by omega),
    hfield 8 32 (by omega), hfield 8 40 (by omega), hfield 8 48 (by omega),
    hfield 4 56 (by omega), hfield 4 60 (by omega)]

theorem tpsFsTransUnserial_congr {b c : Bytes} {pos pos' : Nat}
    (h : ∀ i < 64, b (pos + i) = c (pos' + i)) :
    tpsFsTransUnserial G b pos = tpsFsTransUnserial G c pos' := by
  rw [tpsFsTransUnserial, tpsFsTransUnserial, getTransHead_congr h]

theorem slotHead_congr (hG : G.Valid) {d : Nat → Sector G.sectorShift} {i : Nat} {b : Bytes}
    (h : ∀ p < G.sectorSize, b p = sectorByte (d (slotSec G i)) p) :
    tpsFsTransUnserial G b (slotOff G i) = slotHead G d i := by
  have hoff := slotOff_le hG i
  exact tpsFsTransUnserial_congr (fun j hj => h _ (by omega))

def Probed {k : Nat} (st st' : Vol k) : Prop :=
  st' = { st with
    transCurSec := st'.transCurSec, transSecOff := st'.transSecOff, secBuff := st'.secBuff }

theorem Probed.refl {k : Nat} (st : Vol k) : Probed st st := rfl

theorem Probed.then {k : Nat} {st st' st'' : Vol k} (h : Probed st st') (h' : Probed st' st'') :
    Probed st st'' := by
  rw [Probed] at h h' ⊢
  rw [h', h]

theorem Probed.dev {k : Nat} {st st' : Vol k} (h : Probed st st') : st'.dev = st.dev := by
  rw [h]

def probe (G : Geom) (i : Nat) (st : Vol G.sectorShift) : Vol G.sectorShift :=
  { st with
    transCurSec := slotSec G i
    transSecOff := slotOff G i
    secBuff := patch st.secBuff 0 G.sectorSize
      (flatten (advance st.dev.med.cur (slotSec G i))) }

theorem slotSec_lt_two_pow (hG : G.Valid) {i : Nat} (hi : i < 2 ^ 64) : slotSec G i < 2 ^ 64 := by
  have h1 := Geom.transSecStart_lt_dataStart hG.laid
  have h2 := G.dataStart_le_logEnd
  have h3 := Geom.logEnd_le hG.laid
  have h4 := hG.dev_lt
  have h5 : 2 ^ 9 ≤ 2 ^ G.sectorShift := Nat.pow_le_pow_right (by omega) hG.sectorShift_ge
  have h6 : G.secCnt * 2 ^ 9 ≤ G.secCnt * 2 ^ G.sectorShift := Nat.mul_le_mul_left _ h5
  have h7 : i / G.slotPerSec ≤ i / 8 := Nat.div_le_div_left (slotPerSec_ge hG) (by omega)
  rw [slotSec]
  omega

theorem tpsFsGetTrans_spec (hG : G.Valid) {i : Nat} (hi : i < 2 ^ 64) (t : TransHead)
    (st : Vol G.sectorShift) :
    (slotSec G i < st.dev.secCnt →
      tpsFsGetTrans G t i st = (slotHead G st.dev.med.cur i, probe G i st)) ∧
    (¬ slotSec G i < st.dev.secCnt → ∃ st', Probed st st' ∧
      tpsFsGetTrans G t i st = ({ t with status := statusUninit }, st')) := by
  have hsec : u64 (G.transSecStart + i >>> (G.sectorShift - Geom.tranShift)) = slotSec G i := by
    rw [Nat.shiftRight_eq_div_pow]
    exact u64_of_lt (slotSec_lt_two_pow hG hi)
  have hoff : (i % 2 ^ (G.sectorShift - Geom.tranShift)) <<< Geom.tranShift = slotOff G i := by
    rw [Nat.shiftLeft_eq]
    rfl
  refine ⟨?_, ?_⟩
  · intro hdev
    have hread := st.dev.read_of_le _ 1 hdev
    simp only [tpsFsGetTrans, hsec, hoff, hread]
    refine Prod.ext ?_ rfl
    refine slotHead_congr hG ?_
    intro p hp
    rw [patch_inside _ _ (Nat.zero_le _) (by omega), Nat.sub_zero]
    have hdiv : p / 2 ^ G.sectorShift = 0 := Nat.div_eq_of_lt hp
    simp only [flatten, advance, hdiv, Nat.add_zero]
  · intro hdev
    have hread : st.dev.read (slotSec G i) 1 = none := if_neg (by omega)
    refine ⟨_, ?_, by simp only [tpsFsGetTrans, hsec, hoff, hread]; rfl⟩
    rfl

def SlotOk (G : Geom) (dev : Dev G.sectorShift) (i : Nat) : Prop :=
  slotSec G i < dev.secCnt ∧ (slotHead G dev.med.cur i).status ≠ statusUninit

theorem tpsFsGetTrans_status (hG : G.Valid) {i : Nat} (hi : i < 2 ^ 64) (t : TransHead)
    (st : Vol G.sectorShift) :
    Probed st (tpsFsGetTrans G t i st).2 ∧
      ((tpsFsGetTrans G t i st).1.status ≠ statusUninit ↔ SlotOk G st.dev i) ∧
      (SlotOk G st.dev i → (tpsFsGetTrans G t i st).1 = slotHead G st.dev.med.cur i) := by
  obtain ⟨hin, hout⟩ := tpsFsGetTrans_spec hG hi t st
  by_cases hdev : slotSec G i < st.dev.secCnt
  · rw [hin hdev]
    exact ⟨rfl, ⟨fun h => ⟨hdev, h⟩, fun h => h.2⟩, fun _ => rfl⟩
  · obtain ⟨st', hprobed, heq⟩ := hout hdev
    rw [heq]
    exact ⟨hprobed, ⟨fun h => absurd rfl h, fun h => absurd h.1 hdev⟩, fun h => absurd h.1 hdev⟩

theorem lookAround_spec (hG : G.Valid) {index : Nat → Nat} (hidx : ∀ j, index j < 2 ^ 64) (n : Nat) :
    ∀ (i : Nat) (t : TransHead) (st : Vol G.sectorShift), t.status = statusUninit →
      ∃ r t' st', lookAround G index n i t st = (r, t', st') ∧ Probed st st' ∧
        ((∃ j, r = some j ∧ i ≤ j ∧ j < i + n ∧ SlotOk G st.dev (index j) ∧
            t' = slotHead G st.dev.med.cur (index j) ∧
            ∀ j', i ≤ j' → j' < j → ¬ SlotOk G st.dev (index j')) ∨
          (r = none ∧ t'.status = statusUninit ∧
            ∀ j, i ≤ j → j < i + n → ¬ SlotOk G st.dev (index j))) := by
  induction n with
  | zero =>
    intro i t st ht
    exact ⟨none, t, st, rfl, Probed.refl st, Or.inr ⟨rfl, ht, fun j h1 h2 => by omega⟩⟩
  | succ n ih =>
    intro i t st ht
    obtain ⟨hprobed, hok, heq⟩ := tpsFsGetTrans_status hG (hidx i) t st
    rw [lookAround]
    cases hget : tpsFsGetTrans G t (index i) st with
    | mk t1 st1 =>
      rw [hget] at hprobed hok heq
      simp only at hprobed hok heq ⊢
      by_cases hvalid : t1.status ≠ statusUninit
      · have hslot := hok.mp hvalid
        refine ⟨some i, t1, st1, if_pos hvalid, hprobed, Or.inl ⟨i, rfl, le_rfl, by omega, hslot,
          heq hslot, fun j h1 h2 => by omega⟩⟩
      · obtain ⟨r, t', st', hrun, hpr, hcases⟩ := ih (i + 1) t1 st1 (by simpa using hvalid)
        have hslot : ¬ SlotOk G st.dev (index i) := fun h => hvalid (hok.mpr h)
        rw [if_neg hvalid]
        rw [hprobed.dev] at hcases
        refine ⟨r, t', st', hrun, hprobed.then hpr, ?_⟩
        rcases hcases with ⟨j, hj, h1, h2, h3, h4, h5⟩ | ⟨hr, hs, hall⟩
        · refine Or.inl ⟨j, hj, by omega, by omega, h3, h4, ?_⟩
          intro j' hj1 hj2
          rcases Nat.eq_or_lt_of_le hj1 with rfl | hlt
          · exact hslot
          · exact h5 j' hlt hj2
        · refine Or.inr ⟨hr, hs, ?_⟩
          intro j hj1 hj2
          rcases Nat.eq_or_lt_of_le hj1 with rfl | hlt
          · exact hslot
          · exact hall j hlt (by omega)

theorem getTransNear_of_ok (hG : G.Valid) {i : Nat} (hi : i < 2 ^ 64) (dir : Nat → Nat → Nat)
    (t : TransHead) {st : Vol G.sectorShift} (hok : SlotOk G st.dev i) :
    ∃ st', getTransNear G dir t i st = (some i, slotHead G st.dev.med.cur i, st') ∧
      Probed st st' := by
  obtain ⟨hprobed, hiff, heq⟩ := tpsFsGetTrans_status hG hi t st
  cases hget : tpsFsGetTrans G t i st with
  | mk t1 st1 =>
    rw [hget] at hprobed hiff heq
    simp only at hprobed hiff heq
    refine ⟨st1, ?_, hprobed⟩
    rw [getTransNear, hget]
    simp only
    rw [if_pos (hiff.mpr hok), heq hok]

theorem getTransNear_of_not_ok (hG : G.Valid) {i : Nat} (hi : i < 2 ^ 64) {dir : Nat → Nat → Nat}
    (hdir : ∀ j, dir i j < 2 ^ 64) (t : TransHead) {st : Vol G.sectorShift}
    (hok : ¬ SlotOk G st.dev i) :
    ∃ r t' st', getTransNear G dir t i st = (r, t', st') ∧ Probed st st' ∧
      ((∃ j, r = some (dir i j) ∧ j < 16 ∧ SlotOk G st.dev (dir i j) ∧
          t' = slotHead G st.dev.med.cur (dir i j) ∧
          ∀ j' < j, ¬ SlotOk G st.dev (dir i j')) ∨
        (r = none ∧ t'.status = statusUninit ∧ ∀ j < 16, ¬ SlotOk G st.dev (dir i j))) := by
  obtain ⟨hprobed, hiff, -⟩ := tpsFsGetTrans_status hG hi t st
  cases hget : tpsFsGetTrans G t i st with
  | mk t1 st1 =>
    rw [hget] at hprobed hiff
    simp only at hprobed hiff
    have hinv : ¬ t1.status ≠ statusUninit := fun h => hok (hiff.mp h)
    obtain ⟨r, t', st', hrun, hpr, hcases⟩ :=
      lookAround_spec hG hdir 16 0 t1 st1 (by simpa using hinv)
    rw [hprobed.dev] at hcases
    rw [getTransNear, hget]
    simp only
    rw [if_neg hinv, hrun]
    rcases hcases with ⟨j, rfl, h1, h2, h3, h4, h5⟩ | ⟨rfl, hs, hall⟩
    · exact ⟨_, t', st', rfl, hprobed.then hpr, Or.inl ⟨j, rfl, by omega, h3, h4,
        fun j' hj' => h5 j' (Nat.zero_le _) hj'⟩⟩
    · exact ⟨none, t', st', rfl, hprobed.then hpr, Or.inr ⟨rfl, hs,
        fun j hj => hall j (Nat.zero_le _) (by omega)⟩⟩

theorem indexDown_eq {i j : Nat} (hi : i < 2 ^ 64) (hj : j ≤ i) : indexDown i j = i - j := by
  rw [indexDown, ← Nat.cast_sub hj, u64OfInt_natCast (by omega)]

theorem indexDown_lt (i j : Nat) : indexDown i j < 2 ^ 64 := by
  rw [indexDown, u64OfInt]
  omega

theorem indexUp_lt (i j : Nat) : indexUp i j < 2 ^ 64 := Nat.mod_lt _ (by norm_num)

def slotSerial (G : Geom) (d : Nat → Sector G.sectorShift) (i : Nat) : Option Nat :=
  if (slotHead G d i).status = statusUninit then none else some (slotHead G d i).serialNum

def Ring (G : Geom) (d : Nat → Sector G.sectorShift) (n : Nat) : Prop :=
  ∀ i < G.slotCnt, slotSerial G d i = ringAt G.slotCnt G.slotPerSec n i

theorem slotCnt_lt (hG : G.Valid) : G.slotCnt < 2 ^ 64 := by
  have hlt := hG.transSecCnt_pos
  have h1 := Geom.logEnd_le hG.laid
  have h2 := G.dataStart_le_logEnd
  have h3 : G.transSecCnt ≤ G.secCnt := by
    rw [Geom.transDataStart] at h2
    omega
  have h4 : G.slotPerSec ≤ 2 ^ G.sectorShift := Nat.pow_le_pow_right (by omega) (by omega)
  have h5 : G.transSecCnt * G.slotPerSec ≤ G.secCnt * 2 ^ G.sectorShift := Nat.mul_le_mul h3 h4
  have h6 := hG.dev_lt
  rw [slotCnt_eq]
  omega

section Search

variable {S : Nat} {dev : Dev G.sectorShift}

theorem slotOk_iff (hG : G.Valid) (hsec : dev.secCnt = G.secCnt) {i : Nat} (hi : i < G.slotCnt) :
    SlotOk G dev i ↔ (slotSerial G dev.med.cur i).isSome := by
  have h1 := slotSec_lt hi
  have h2 := G.dataStart_le_logEnd
  have h3 := Geom.logEnd_le hG.laid
  rw [SlotOk, slotSerial]
  split
  · simp_all
  · rename_i hvalid
    simp only [Option.isSome_some, iff_true]
    exact ⟨by omega, hvalid⟩

theorem slotSerial_of_ok {d : Nat → Sector G.sectorShift} {i : Nat}
    (h : (slotHead G d i).status ≠ statusUninit) :
    slotSerial G d i = some (slotHead G d i).serialNum := if_neg h

theorem ring_before (hG : G.Valid) (hsec : dev.secCnt = G.secCnt)
    (hring : Ring G dev.med.cur (S + 1)) {i : Nat} (hi : i ≤ S % G.slotCnt) :
    SlotOk G dev i ∧
      (slotHead G dev.med.cur i).serialNum + S % G.slotCnt = S + i := by
  have hpos := slotCnt_ge hG
  have hlt := Nat.mod_lt S (by omega : G.slotCnt > 0)
  have hat := hring i (by omega)
  have hok : SlotOk G dev i := by
    rw [slotOk_iff hG hsec (by omega), hat, ringAt_of_le hi]
    rfl
  rw [slotSerial_of_ok hok.2] at hat
  exact ⟨hok, ringAt_before hi hat.symm⟩

theorem ring_behind (hring : Ring G dev.med.cur (S + 1)) {i : Nat} (hi : S % G.slotCnt < i)
    (hN : i < G.slotCnt) (hok : SlotOk G dev i) :
    (slotHead G dev.med.cur i).serialNum + S % G.slotCnt < S := by
  have hat := hring i hN
  rw [slotSerial_of_ok hok.2] at hat
  exact ringAt_behind hi hN hat.symm

theorem getTransNear_down (hG : G.Valid) {st : Vol G.sectorShift}
    (hsec : st.dev.secCnt = G.secCnt) (hring : Ring G st.dev.med.cur (S + 1)) {i : Nat}
    (hlo : S % G.slotCnt ≤ i) (hhi : i < G.slotCnt) (t : TransHead) :
    ∃ r t' st', getTransNear G indexDown t i st = (r, t', st') ∧ Probed st st' ∧
      ((∃ h, r = some h ∧ S % G.slotCnt ≤ h ∧ h ≤ i ∧ SlotOk G st.dev h ∧
          t' = slotHead G st.dev.med.cur h) ∨
        (r = none ∧ t'.status = statusUninit ∧ S % G.slotCnt < i)) := by
  have hN := slotCnt_lt hG
  have hnew := (ring_before hG hsec hring le_rfl).1
  by_cases hok : SlotOk G st.dev i
  · obtain ⟨st', hget, hprobed⟩ := getTransNear_of_ok hG (by omega) indexDown t hok
    exact ⟨_, _, st', hget, hprobed, Or.inl ⟨i, rfl, hlo, le_rfl, hok, rfl⟩⟩
  · have hne : i ≠ S % G.slotCnt := fun h => hok (h ▸ hnew)
    obtain ⟨r, t', st', hget, hprobed, hcases⟩ :=
      getTransNear_of_not_ok hG (by omega) (indexDown_lt i) t hok
    refine ⟨r, t', st', hget, hprobed, ?_⟩
    rcases hcases with ⟨j, hr, hj, hslot, ht, hfirst⟩ | ⟨hr, hs, -⟩
    · have hle : j ≤ i - S % G.slotCnt := by
        by_contra hgt
        refine hfirst (i - S % G.slotCnt) (by omega) ?_
        rw [indexDown_eq (by omega) (by omega), Nat.sub_sub_self hlo]
        exact hnew
      rw [indexDown_eq (by omega) (by omega)] at hr hslot ht
      exact Or.inl ⟨i - j, hr, by omega, by omega, hslot, ht⟩
    · exact Or.inr ⟨hr, hs, by omega⟩

theorem searchTrans_spec (hG : G.Valid) (fuel : Nat) :
    ∀ (lIndex hIndex : Nat) (tS tE tM : TransHead) (st : Vol G.sectorShift),
      st.dev.secCnt = G.secCnt → Ring G st.dev.med.cur (S + 1) →
      lIndex ≤ S % G.slotCnt → S % G.slotCnt ≤ hIndex → hIndex < G.slotCnt →
      hIndex - lIndex < fuel →
      ∃ h tE' tM' st', searchTrans G fuel lIndex hIndex tS tE tM st =
          some (S % G.slotCnt, h, tE', tM', st') ∧ Probed st st' ∧
        (tE'.status = statusUninit ∨ tE'.serialNum ≤ S) := by
  have hN := slotCnt_lt hG
  have hmodle := Nat.mod_le S G.slotCnt
  induction fuel with
  | zero =>
    intro lIndex hIndex tS tE tM st _ _ _ _ _ hfuel
    omega
  | succ fuel ih =>
    intro lIndex hIndex tS tE tM st hsec hring hl hh hhN hfuel
    obtain ⟨hokL, hserL⟩ := ring_before hG hsec hring hl
    obtain ⟨st1, hgetL, hp1⟩ := getTransNear_of_ok hG (by omega) indexUp tS hokL
    have hsec1 : st1.dev.secCnt = G.secCnt := by rw [hp1.dev]; exact hsec
    have hring1 : Ring G st1.dev.med.cur (S + 1) := by rw [hp1.dev]; exact hring
    obtain ⟨rE, tE1, st2, hgetE, hp2, hE⟩ := getTransNear_down hG hsec1 hring1 hh hhN tE
    have hp12 := hp1.then hp2
    rw [searchTrans]
    simp only [hgetL, hgetE]
    rw [hp1.dev] at hE
    generalize htS : slotHead G st.dev.med.cur lIndex = tS1 at hserL ⊢
    -- the end read in this round
    have hEnd : S % G.slotCnt ≤ rE.getD hIndex ∧ rE.getD hIndex ≤ hIndex ∧
        (tE1.status = statusUninit ∨ tE1.serialNum ≤ S) ∧
        (tE1.status ≠ statusUninit → SlotOk G st.dev (rE.getD hIndex) ∧
          tE1 = slotHead G st.dev.med.cur (rE.getD hIndex)) ∧
        (tE1.status = statusUninit → S % G.slotCnt < rE.getD hIndex) := by
      rcases hE with ⟨h, rfl, h1, h2, h3, h4⟩ | ⟨rfl, h1, h2⟩
      · refine ⟨h1, h2, Or.inr ?_, fun _ => ⟨h3, h4⟩, fun hs => absurd hs (h4 ▸ h3.2)⟩
        have hat := hring h (by omega)
        rw [slotSerial_of_ok h3.2] at hat
        rw [h4]
        exact ringAt_le (by omega) hat.symm
      · exact ⟨hh, le_rfl, Or.inl h1, fun hs => absurd h1 hs, fun _ => h2⟩
    obtain ⟨hElo, hEhi, hEold, hEok, hEnone⟩ := hEnd
    clear hE
    generalize rE.getD hIndex = hIdx at *
    by_cases hnewer : tE1.status ≠ statusUninit ∧ tS1.serialNum < tE1.serialNum
    · rw [if_pos hnewer]
      obtain ⟨hslot, hteq⟩ := hEok hnewer.1
      have heq : hIdx = S % G.slotCnt := by
        by_contra hne
        have hbehind := ring_behind hring (by omega) (by omega) hslot
        rw [← hteq] at hbehind
        omega
      rw [heq]
      exact ⟨_, _, _, _, rfl, hp12, hEold⟩
    · rw [if_neg hnewer]
      have hsec2 : st2.dev.secCnt = G.secCnt := by rw [hp12.dev]; exact hsec
      have hring2 : Ring G st2.dev.med.cur (S + 1) := by rw [hp12.dev]; exact hring
      -- the middle read in this round
      have hMid : ∃ rM tM1 st3, getTransNear G indexDown tM ((lIndex + hIdx) / 2) st2 =
            (rM, tM1, st3) ∧ Probed st2 st3 ∧
          rM.getD ((lIndex + hIdx) / 2) ≤ (lIndex + hIdx) / 2 ∧
          lIndex ≤ rM.getD ((lIndex + hIdx) / 2) ∧
          (tM1.status = statusUninit → S % G.slotCnt < rM.getD ((lIndex + hIdx) / 2)) ∧
          (tM1.status ≠ statusUninit → SlotOk G st.dev (rM.getD ((lIndex + hIdx) / 2)) ∧
            tM1 = slotHead G st.dev.med.cur (rM.getD ((lIndex + hIdx) / 2))) ∧
          (S % G.slotCnt < (lIndex + hIdx) / 2 →
            S % G.slotCnt ≤ rM.getD ((lIndex + hIdx) / 2)) ∧
          ((lIndex + hIdx) / 2 ≤ S % G.slotCnt →
            rM.getD ((lIndex + hIdx) / 2) = (lIndex + hIdx) / 2) := by
        rcases Nat.lt_or_ge (S % G.slotCnt) ((lIndex + hIdx) / 2) with hgt | hle
        · obtain ⟨rM, tM1, st3, hget, hp3, hM⟩ :=
            getTransNear_down hG hsec2 hring2 (i := (lIndex + hIdx) / 2) (by omega) (by omega) tM
          rw [hp12.dev] at hM
          refine ⟨rM, tM1, st3, hget, hp3, ?_⟩
          rcases hM with ⟨h, rfl, h1, h2, h3, h4⟩ | ⟨rfl, h1, h2⟩
          · exact ⟨h2, hl.trans h1, fun hs => absurd hs (h4 ▸ h3.2), fun _ => ⟨h3, h4⟩,
              fun _ => h1, fun hc => by omega⟩
          · exact ⟨le_rfl, by simp only [Option.getD_none]; omega, fun _ => h2,
              fun hs => absurd h1 hs, fun _ => by simp only [Option.getD_none]; omega,
              fun _ => rfl⟩
        · have hokM := (ring_before hG hsec2 hring2 hle).1
          obtain ⟨st3, hget, hp3⟩ := getTransNear_of_ok hG (by omega) indexDown tM hokM
          rw [hp12.dev] at hokM hget
          exact ⟨_, _, st3, hget, hp3, le_rfl, by simp only [Option.getD_some]; omega,
            fun hs => absurd hs hokM.2, fun _ => ⟨hokM, rfl⟩, fun hc => by omega, fun _ => rfl⟩
      obtain ⟨rM, tM1, st3, hgetM, hp3, hMhi, hMlo, hMnone, hMok, hMgt, hMle⟩ := hMid
      have hp123 := hp12.then hp3
      have hsec3 : st3.dev.secCnt = G.secCnt := by rw [hp123.dev]; exact hsec
      have hring3 : Ring G st3.dev.med.cur (S + 1) := by rw [hp123.dev]; exact hring
      simp only [hgetM]
      generalize rM.getD ((lIndex + hIdx) / 2) = mIdx at *
      -- the search goes on only with `lIndex < hIdx`
      by_cases hend : mIdx = lIndex
      · rw [if_pos hend]
        have hm : lIndex = S % G.slotCnt := by
          by_contra hne
          rcases Nat.lt_or_ge (S % G.slotCnt) ((lIndex + hIdx) / 2) with hgt | hle
          · have := hMgt hgt
            omega
          · have := hMle hle
            have hhi : hIdx = S % G.slotCnt := by omega
            by_cases hEs : tE1.status = statusUninit
            · have := hEnone hEs
              omega
            · obtain ⟨hslot, hteq⟩ := hEok hEs
              have hser := (ring_before hG hsec hring (i := hIdx) (by omega)).2
              rw [← hteq] at hser
              exact hnewer ⟨hEs, by omega⟩
        rw [hend, hm]
        exact ⟨_, _, _, _, rfl, hp123, hEold⟩
      · rw [if_neg hend]
        by_cases hMs : tM1.status = statusUninit
        · rw [if_pos hMs]
          have hbehind := hMnone hMs
          obtain ⟨h, tE', tM', st', hrun, hpr, hold⟩ := ih lIndex mIdx tS1 tE1 tM1 st3 hsec3 hring3
            hl (by omega) (by omega) (by omega)
          exact ⟨h, tE', tM', st', hrun, hp123.then hpr, hold⟩
        · obtain ⟨hslot, hteq⟩ := hMok hMs
          rw [if_neg hMs]
          by_cases holder : tM1.serialNum < tS1.serialNum
          · rw [if_pos holder]
            have hbehind : S % G.slotCnt < mIdx := by
              by_contra hle
              have hser := (ring_before hG hsec hring (i := mIdx) (by omega)).2
              rw [← hteq] at hser
              omega
            obtain ⟨h, tE', tM', st', hrun, hpr, hold⟩ := ih lIndex mIdx tS1 tE1 tM1 st3 hsec3
              hring3 hl (by omega) (by omega) (by omega)
            exact ⟨h, tE', tM', st', hrun, hp123.then hpr, hold⟩
          · rw [if_neg holder]
            have hbefore : mIdx ≤ S % G.slotCnt := by
              by_contra hgt
              have hser := ring_behind hring (by omega) (by omega) hslot
              rw [← hteq] at hser
              omega
            obtain ⟨h, tE', tM', st', hrun, hpr, hold⟩ := ih mIdx hIdx tS1 tE1 tM1 st3 hsec3
              hring3 hbefore hElo (by omega) (by omega)
            exact ⟨h, tE', tM', st', hrun, hp123.then hpr, hold⟩

end Search

theorem tspFsCheckTrans_newest (hG : G.Valid) {S : Nat} (st : Vol G.sectorShift)
    (hsec : st.dev.secCnt = G.secCnt) (hring : Ring G st.dev.med.cur (S + 1)) :
    ∃ st', Probed st st' ∧ tspFsCheckTrans G st =
      applyNewest G (slotHead G st.dev.med.cur (S % G.slotCnt)) (S % G.slotCnt)
        (probe G (S % G.slotCnt) st') := by
  have hN := slotCnt_lt hG
  have hge := slotCnt_ge hG
  have hlt := Nat.mod_lt S (by omega : G.slotCnt > 0)
  obtain ⟨h, tE, tM, st', hsearch, hprobed, hold⟩ := searchTrans_spec hG G.slotCnt 0
    (G.slotCnt - 1) freshHead freshHead freshHead st hsec hring (Nat.zero_le _) (by omega)
    (by omega) (by omega)
  have hok := (ring_before hG hsec hring le_rfl).1
  have hser := (ring_before hG hsec hring le_rfl).2
  have hget := (tpsFsGetTrans_spec hG (i := S % G.slotCnt) (by omega) tM st').1
    (by rw [hprobed.dev]; exact hok.1)
  rw [hprobed.dev] at hget
  refine ⟨st', hprobed, ?_⟩
  rw [tspFsCheckTrans, hsearch]
  simp only [hget]
  rw [if_neg]
  rintro ⟨h1, h2⟩
  rcases hold with h3 | h3
  · exact h1 h3
  · omega

theorem tspFsCheckTrans_empty (hG : G.Valid) {st : Vol G.sectorShift}
    (hempty : ∀ i < 16, ¬ SlotOk G st.dev i) (hsec : st.dev.secCnt = G.secCnt) :
    ∃ st', Probed st st' ∧ tspFsCheckTrans G st = some (.errNone, probe G 0 st') := by
  have hN := slotCnt_lt hG
  have hge := slotCnt_ge hG
  have hup : ∀ j < 16, indexUp 0 j = j := by
    intro j hj
    rw [indexUp, Nat.zero_add, u64_of_lt (by omega)]
  obtain ⟨r, t', st', hget, hprobed, hcases⟩ := getTransNear_of_not_ok hG (i := 0) (by norm_num)
    (indexUp_lt 0) freshHead (hempty 0 (by omega))
  have hnone : r = none := by
    rcases hcases with ⟨j, -, hj, hslot, -⟩ | ⟨hr, -⟩
    · rw [hup j hj] at hslot
      exact absurd hslot (hempty j hj)
    · exact hr
  subst hnone
  have hsearch : searchTrans G G.slotCnt 0 (G.slotCnt - 1) freshHead freshHead freshHead st =
      some (0, G.slotCnt - 1, freshHead, freshHead, st') := by
    obtain ⟨n, hn⟩ := Nat.exists_eq_add_of_le hge
    rw [hn, show 8 + n = (7 + n) + 1 by omega, searchTrans, hget]
  have hslot : slotSec G 0 < G.secCnt := by
    have h1 := slotSec_lt (G := G) (i := 0) (by omega)
    have h2 := G.dataStart_le_logEnd
    have h3 := Geom.logEnd_le hG.laid
    omega
  have hmid := (tpsFsGetTrans_spec hG (i := 0) (by norm_num) freshHead st').1
    (by rw [hprobed.dev, hsec]; exact hslot)
  have huninit : (slotHead G st'.dev.med.cur 0).status = statusUninit := by
    have hno := hempty 0 (by omega)
    rw [SlotOk, not_and, not_not, hsec] at hno
    rw [hprobed.dev]
    exact hno hslot
  refine ⟨st', hprobed, ?_⟩
  rw [tspFsCheckTrans, hsearch]
  simp only [hmid]
  rw [if_neg (by simp [freshHead]), applyNewest]
  simp only [huninit]
  rw [if_neg (by decide), if_neg (by decide), if_neg (fun h => h rfl)]

end SylixOS.TpsTrans
