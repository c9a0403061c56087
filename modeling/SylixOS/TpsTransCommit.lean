import SylixOS.TpsTransView

/-! Commit of a transaction, access by access: the area list behind the
logged data, the COMMIT header, the copies to their places, the COMPLETE
header. -/

namespace SylixOS.TpsTrans
open SylixOS.ByteBuffer SylixOS.SectorDevice

variable {G : Geom}

def areaPerSec (G : Geom) : Nat := G.sectorSize / 16 - 2

def listSecs (G : Geom) (n : Nat) : Nat := (n + (areaPerSec G - 1)) / areaPerSec G

theorem sectorSize_eq (h9 : 9 ≤ G.sectorShift) : ∃ q, 32 ≤ q ∧ G.sectorSize = 16 * q := by
  obtain ⟨d, hd⟩ := Nat.exists_eq_add_of_le h9
  refine ⟨2 ^ (5 + d), ?_, ?_⟩
  · rw [pow_add]
    have hone : 1 ≤ 2 ^ d := Nat.one_le_two_pow
    omega
  · rw [Geom.sectorSize, hd, show 9 + d = 4 + (5 + d) by omega, pow_add]
    norm_num

theorem areaPerSec_of_shift (h9 : 9 ≤ G.sectorShift) :
    30 ≤ areaPerSec G ∧ G.sectorSize = 16 * (areaPerSec G + 2) := by
  obtain ⟨q, hq, hsize⟩ := sectorSize_eq h9
  rw [areaPerSec, hsize]
  omega

theorem areaPerSec_spec (hG : G.Valid) :
    30 ≤ areaPerSec G ∧ G.sectorSize = 16 * (areaPerSec G + 2) :=
  areaPerSec_of_shift hG.sectorShift_ge

theorem lt_listSecs_iff_of_shift (h9 : 9 ≤ G.sectorShift) (i n : Nat) :
    i < listSecs G n ↔ i * areaPerSec G < n := by
  have hn := (areaPerSec_of_shift h9).1
  rw [listSecs, Nat.lt_iff_add_one_le, Nat.le_div_iff_mul_le (by omega), Nat.add_mul]
  omega

theorem lt_listSecs_iff (hG : G.Valid) (i n : Nat) : i < listSecs G n ↔ i * areaPerSec G < n :=
  lt_listSecs_iff_of_shift hG.sectorShift_ge i n

theorem secAreaSerialLoop_fst (h9 : 9 ≤ G.sectorShift) (as : List SecArea) (t iIndex : Nat)
    (buf : Bytes) : (secAreaSerialLoop G as (16 + 16 * t) iIndex buf).1 =
      iIndex + min as.length (areaPerSec G - t) := by
  obtain ⟨hn, hsize⟩ := areaPerSec_of_shift h9
  induction as generalizing t iIndex buf with
  | nil => simp [secAreaSerialLoop]
  | cons a as ih =>
    rw [secAreaSerialLoop]
    by_cases hroom : t < areaPerSec G
    · rw [if_pos (by omega), show 16 + 16 * t + 16 = 16 + 16 * (t + 1) by omega, ih,
        List.length_cons]
      omega
    · rw [if_neg (by omega), show areaPerSec G - t = 0 by omega, Nat.min_zero, Nat.add_zero]

def SecArea.Fits (a : SecArea) : Prop :=
  a.secStart < 2 ^ 64 ∧ a.secOff < 2 ^ 32 ∧ a.secCnt < 2 ^ 32

theorem getSecArea_congr {b c : Bytes} {pos : Nat} (h : ∀ i < 16, b (pos + i) = c (pos + i)) :
    getSecArea b pos = getSecArea c pos := by
  have h1 : getLE 8 b pos = getLE 8 c pos := getLE_congr 8 (fun i hi => h i (by omega))
  have h2 : getLE 4 b (pos + 8) = getLE 4 c (pos + 8) := by
    apply getLE_congr
    intro i hi
    rw [Nat.add_assoc]
    exact h (8 + i) (by omega)
  have h3 : getLE 4 b (pos + 12) = getLE 4 c (pos + 12) := by
    apply getLE_congr
    intro i hi
    rw [Nat.add_assoc]
    exact h (12 + i) (by omega)
  rw [getSecArea, getSecArea, h1, h2, h3]

theorem getSecArea_putFields {a : SecArea} (ha : a.Fits) (b : Bytes) (pos : Nat) :
    getSecArea (putFields b pos (secAreaFields a)) pos = a := by
  have h := getFields_putFields b pos (secAreaFields a)
  obtain ⟨h1, h2, h3⟩ := ha
  simp only [secAreaFields, List.map_cons, List.map_nil, getFields, List.cons.injEq, and_true,
    Nat.add_assoc] at h
  obtain ⟨e1, e2, e3⟩ := h
  simp only [getSecArea, secAreaFields, e1, e2, e3]
  rw [Nat.mod_eq_of_lt (by omega), Nat.mod_eq_of_lt (by omega), Nat.mod_eq_of_lt (by omega)]

theorem secAreaSerialLoop_spec (hG : G.Valid) (as : List SecArea) (hfit : ∀ a ∈ as, a.Fits)
    (t iIndex : Nat) (buf : Bytes) :
    (secAreaSerialLoop G as (16 + 16 * t) iIndex buf).1 =
        iIndex + min as.length (areaPerSec G - t) ∧
      (∀ p < 16 + 16 * t,
        (secAreaSerialLoop G as (16 + 16 * t) iIndex buf).2 p = buf p) ∧
      ∀ j, ∀ hj : j < as.length, j < areaPerSec G - t →
        getSecArea (secAreaSerialLoop G as (16 + 16 * t) iIndex buf).2
          (16 + 16 * (t + j)) = as[j] := by
  obtain ⟨hn, hsize⟩ := areaPerSec_spec hG
  refine ⟨secAreaSerialLoop_fst hG.sectorShift_ge as t iIndex buf, ?_⟩
  induction as generalizing t iIndex buf with
  | nil =>
    refine ⟨fun p _ => rfl, ?_⟩
    intro j hj
    simp at hj
  | cons a as ih =>
    by_cases hroom : t < areaPerSec G
    · have hpos : 16 + 16 * t < G.sectorSize - 16 := by omega
      obtain ⟨hframe, hget⟩ := ih (fun b hb => hfit b (List.mem_cons_of_mem _ hb)) (t + 1)
        (iIndex + 1) (putFields buf (16 + 16 * t) (secAreaFields a))
      have hnext : 16 + 16 * t + 16 = 16 + 16 * (t + 1) := by omega
      rw [secAreaSerialLoop, if_pos hpos, hnext]
      refine ⟨?_, ?_⟩
      · intro p hp
        rw [hframe p (by omega), putFields_outside _ _ _ (Or.inl hp)]
      · intro j hj hjn
        cases j with
        | zero =>
          rw [Nat.add_zero, List.getElem_cons_zero]
          refine Eq.trans (getSecArea_congr ?_)
            (getSecArea_putFields (hfit a List.mem_cons_self) buf (16 + 16 * t))
          intro i hi
          exact hframe _ (by omega)
        | succ j =>
          rw [List.getElem_cons_succ, show t + (j + 1) = t + 1 + j by omega]
          exact hget j (by simpa using hj) (by omega)
    · have hpos : ¬ 16 + 16 * t < G.sectorSize - 16 := by omega
      rw [secAreaSerialLoop, if_neg hpos]
      refine ⟨fun p _ => rfl, ?_⟩
      intro j _ hjn
      omega

structure ListSector (G : Geom) (areas : List SecArea) (idx : Nat) (b : Bytes) : Prop where
  cnt : getLE 4 b 0 = areas.length
  index : getLE 4 b 4 = idx
  get : ∀ j, ∀ hj : idx + j < areas.length, j < areaPerSec G →
    getSecArea b (16 + 16 * j) = areas[idx + j]

theorem ListSector.congr (hG : G.Valid) {areas : List SecArea} {idx : Nat} {b c : Bytes}
    (h : ListSector G areas idx b) (heq : ∀ p < G.sectorSize, c p = b p) :
    ListSector G areas idx c := by
  obtain ⟨hn, hsize⟩ := areaPerSec_spec hG
  refine ⟨?_, ?_, ?_⟩
  · rw [← h.cnt]
    exact getLE_congr 4 (fun i hi => heq _ (by omega))
  · rw [← h.index]
    exact getLE_congr 4 (fun i hi => heq _ (by omega))
  · intro j hj hjn
    rw [← h.get j hj hjn]
    exact getSecArea_congr (fun i hi => heq _ (by omega))

theorem tpsFsTransSecAreaSerial_spec (hG : G.Valid) {areas : List SecArea}
    (hfit : ∀ a ∈ areas, a.Fits) (hlen : areas.length < 2 ^ 32) (reserved : Nat × Nat)
    {idx : Nat} (hidx : idx < areas.length) (buf : Bytes) :
    (tpsFsTransSecAreaSerial G areas reserved idx buf).1 =
        min areas.length (idx + areaPerSec G) ∧
      ListSector G areas idx (tpsFsTransSecAreaSerial G areas reserved idx buf).2 := by
  obtain ⟨h1, h2, h3⟩ := secAreaSerialLoop_spec hG (areas.drop idx)
    (fun a ha => hfit a (List.mem_of_mem_drop ha)) 0 idx
    (putFields buf 0 [(4, areas.length), (4, idx), (4, reserved.1), (4, reserved.2)])
  have hhead := getFields_putFields buf 0
    [(4, areas.length), (4, idx), (4, reserved.1), (4, reserved.2)]
  simp only [List.map_cons, List.map_nil, getFields, List.cons.injEq, Nat.zero_add] at hhead
  obtain ⟨e1, e2, -⟩ := hhead
  simp only [Nat.mul_zero, Nat.add_zero] at h1 h2 h3
  refine ⟨?_, ?_, ?_, ?_⟩
  · rw [tpsFsTransSecAreaSerial, h1, List.length_drop]
    omega
  · rw [tpsFsTransSecAreaSerial, getLE_congr 4 (fun i hi => h2 _ (by omega)), e1]
    exact Nat.mod_eq_of_lt (by omega)
  · rw [tpsFsTransSecAreaSerial, getLE_congr 4 (fun i hi => h2 _ (by omega)), e2]
    exact Nat.mod_eq_of_lt (by omega)
  · intro j hj hjn
    have hget := h3 j (by rw [List.length_drop]; omega) (by omega)
    rw [Nat.zero_add] at hget
    rw [tpsFsTransSecAreaSerial, hget, List.getElem_drop]

theorem sectorByte_sectorOf {k : Nat} (b : Bytes) {p : Nat} (hp : p < 2 ^ k) :
    sectorByte (sectorOf b 0 : Sector k) p = b p := by
  simp only [sectorByte, sectorOf, Nat.mod_eq_of_lt hp, Nat.zero_mul, Nat.zero_add]

theorem writeAreaList_spec (hG : G.Valid) {areas : List SecArea} (hfit : ∀ a ∈ areas, a.Fits)
    (hlen : areas.length < 2 ^ 32) (fuel : Nat) :
    ∀ (t : Nat) (st : Vol G.sectorShift), st.areas = areas →
      areas.length - t * areaPerSec G ≤ fuel → t ≤ listSecs G areas.length →
      st.trans.dataSecCnt + (listSecs G areas.length - t) < 2 ^ 32 →
      st.trans.dataSecNum + st.trans.dataSecCnt + (listSecs G areas.length - t) ≤ st.dev.secCnt →
      ∃ ios buf, writeAreaList G fuel (min areas.length (t * areaPerSec G)) st =
          (.errNone, { st with
            dev := st.dev.issue ios, sectorBuf := buf
            trans := { st.trans with
              dataSecCnt := st.trans.dataSecCnt + (listSecs G areas.length - t) } }) ∧
        (∀ io ∈ ios, ∃ i < listSecs G areas.length - t, ∃ data,
          io = .write (st.trans.dataSecNum + st.trans.dataSecCnt + i) 1 data ∧
          ListSector G areas ((t + i) * areaPerSec G) (sectorByte (data 0))) ∧
        ∀ i < listSecs G areas.length - t, ListSector G areas ((t + i) * areaPerSec G)
          (sectorByte ((st.dev.med.run ios).cur
            (st.trans.dataSecNum + st.trans.dataSecCnt + i))) := by
  have hn := (areaPerSec_spec hG).1
  induction fuel with
  | zero =>
    intro t st _ hfuel ht _ _
    have hdone : listSecs G areas.length - t = 0 := by
      have hiff := lt_listSecs_iff hG t areas.length
      omega
    refine ⟨[], st.sectorBuf, ?_, by simp, ?_⟩
    · rw [writeAreaList, hdone, Dev.issue_nil, Nat.add_zero]
    · intro i hi
      omega
  | succ fuel ih =>
    intro t st hst hfuel ht hsmall hdev
    by_cases hmore : t * areaPerSec G < areas.length
    · have hlt : t < listSecs G areas.length := (lt_listSecs_iff hG t _).mpr hmore
      have hmin : min areas.length (t * areaPerSec G) = t * areaPerSec G := by omega
      obtain ⟨hidx, hlist⟩ :=
        tpsFsTransSecAreaSerial_spec hG hfit hlen st.areaReserved hmore st.sectorBuf
      have hwr := st.dev.write_of_le
        (tpsFsTransSecAreaSerial G areas st.areaReserved (t * areaPerSec G) st.sectorBuf).2
        (st.trans.dataSecNum + st.trans.dataSecCnt) 1 false (by omega)
      have hnext : t * areaPerSec G + areaPerSec G = (t + 1) * areaPerSec G := by
        rw [Nat.add_mul, Nat.one_mul]
      rw [hnext] at hidx
      rw [hmin, writeAreaList, hst, if_pos hmore]
      simp only [hidx, hwr, Bool.false_eq_true, if_false]
      rw [u32_of_lt (by omega)]
      generalize (tpsFsTransSecAreaSerial G areas st.areaReserved (t * areaPerSec G)
        st.sectorBuf).2 = b at hlist ⊢
      obtain ⟨ios, buf, hrun, hios, hcur⟩ := ih (t + 1)
        { st with
          dev := st.dev.issue
            [.write (st.trans.dataSecNum + st.trans.dataSecCnt) 1 (sectorOf b)]
          sectorBuf := b
          trans := { st.trans with dataSecCnt := st.trans.dataSecCnt + 1 } }
        hst (by omega) hlt (by simp only; omega) (by simp only [Dev.issue_secCnt]; omega)
      simp only [Dev.issue_issue, List.cons_append, List.nil_append, Dev.issue_med] at hrun hios hcur
      have hsum : st.trans.dataSecCnt + 1 + (listSecs G areas.length - (t + 1)) =
          st.trans.dataSecCnt + (listSecs G areas.length - t) := by omega
      rw [hsum] at hrun
      refine ⟨.write (st.trans.dataSecNum + st.trans.dataSecCnt) 1 (sectorOf b) :: ios, buf,
        ?_, ?_, ?_⟩
      · rw [hst] at hrun
        exact hrun
      · intro io hio
        rcases List.mem_cons.mp hio with rfl | hio
        · exact ⟨0, by omega, _, rfl,
            hlist.congr hG (fun p hp => sectorByte_sectorOf b hp)⟩
        · obtain ⟨i, hi, data, rfl, hsec⟩ := hios io hio
          rw [show t + 1 + i = t + (i + 1) by omega] at hsec
          refine ⟨i + 1, by omega, data, ?_, hsec⟩
          rw [show st.trans.dataSecNum + (st.trans.dataSecCnt + 1) + i =
            st.trans.dataSecNum + st.trans.dataSecCnt + (i + 1) by omega]
      · intro i hi
        cases i with
        | zero =>
          refine hlist.congr hG ?_
          intro p hp
          have hkeep : ∀ io ∈ ios, ¬ io.touches (st.trans.dataSecNum + st.trans.dataSecCnt) := by
            intro io hio
            obtain ⟨i, hi, data, rfl, -⟩ := hios io hio
            simp only [Io.touches]
            omega
          have hcurb := Medium.run_cur_of_not_touches
            (st.dev.med.step (.write (st.trans.dataSecNum + st.trans.dataSecCnt) 1 (sectorOf b)))
            hkeep
          rw [Nat.add_zero]
          refine (congrArg (fun v => sectorByte v p) hcurb).trans ?_
          simp only [Medium.step]
          rw [patch_inside _ _ le_rfl (by omega), Nat.sub_self]
          exact sectorByte_sectorOf b hp
        | succ i =>
          have hget := hcur i (by omega)
          rw [show t + 1 + i = t + (i + 1) by omega,
            show st.trans.dataSecNum + (st.trans.dataSecCnt + 1) + i =
              st.trans.dataSecNum + st.trans.dataSecCnt + (i + 1) by omega] at hget
          exact hget
    · have hdone : listSecs G areas.length - t = 0 := by
        have hiff := lt_listSecs_iff hG t areas.length
        omega
      refine ⟨[], st.sectorBuf, ?_, by simp, ?_⟩
      · rw [writeAreaList, hst, if_neg (by omega), hdone, Dev.issue_nil, Nat.add_zero]
        simp only [← hst]
      · intro i hi
        omega

theorem u32OfInt_natCast {n : Nat} (h : n < 2 ^ 32) : u32OfInt (n : Int) = n := by
  rw [u32OfInt]
  omega

theorem u32OfInt_i32OfInt {n : Nat} (h : n < 2 ^ 32) : u32OfInt (i32OfInt n) = n := by
  rw [u32OfInt, i32OfInt, Int.bmod]
  omega

theorem i32OfInt_natCast {n : Nat} (h : n < 2 ^ 31) : i32OfInt (n : Int) = n := by
  rw [i32OfInt, Int.bmod]
  omega

theorem u64OfInt_natCast {n : Nat} (h : n < 2 ^ 64) : u64OfInt (n : Int) = n := by
  rw [u64OfInt]
  omega

theorem copyArea_spec {v : Nat → Sector G.sectorShift} {a : SecArea} {dataSec : Nat}
    (hcnt : a.secCnt ≤ 2 ^ 31) (hbefore : a.secStart + a.secCnt ≤ dataSec)
    (hsize : dataSec + a.secCnt < 2 ^ 64) (fuel : Nat) :
    ∀ (m : Nat) (st : Vol G.sectorShift), m ≤ a.secCnt → a.secCnt - m ≤ fuel →
      dataSec + a.secCnt ≤ st.dev.secCnt →
      (∀ i < a.secCnt, st.dev.med.cur (dataSec + i) = v (a.secStart + i)) →
      ∃ ios buf, copyArea G a dataSec fuel (i32OfInt m) st =
          (.errNone, { st with dev := st.dev.issue ios, sectorBuf := buf }) ∧
        (∀ io ∈ ios, io.Stores v a.Has ∧ ∀ s, io.touches s → a.Has s) ∧
        ∀ s, a.secStart + m ≤ s → s < a.secStart + a.secCnt → (st.dev.med.run ios).cur s = v s := by
  induction fuel with
  | zero =>
    intro m st hm hfuel _ _
    refine ⟨[], st.sectorBuf, by rw [copyArea, Dev.issue_nil], by simp, ?_⟩
    intro s h1 h2
    omega
  | succ fuel ih =>
    intro m st hm hfuel hdev hsrc
    have hm32 : u32OfInt (i32OfInt m) = m := u32OfInt_i32OfInt (by omega)
    by_cases hmore : m < a.secCnt
    · have hj : i32OfInt (m : Int) = m := i32OfInt_natCast (by omega)
      generalize hwr : min (a.secCnt - m) G.secPerBlk = wr
      have hwrpos : 0 < wr ∧ m + wr ≤ a.secCnt := by
        have hspb := G.secPerBlk_pos
        omega
      have hrest : u32OfInt ((a.secCnt : Int) - (m : Int)) = a.secCnt - m := by
        rw [← Nat.cast_sub hm, u32OfInt_natCast (by omega)]
      have hread : st.dev.read (u64OfInt ((dataSec : Int) + (m : Int))) wr =
          some (flatten (advance st.dev.med.cur (dataSec + m))) := by
        rw [← Nat.cast_add, u64OfInt_natCast (by omega)]
        exact st.dev.read_of_le _ _ (by omega)
      generalize hbuf : patch st.sectorBuf 0 (wr * G.sectorSize)
        (flatten (advance st.dev.med.cur (dataSec + m))) = buf
      have hwrite : st.dev.write buf (u64OfInt ((a.secStart : Int) + (m : Int))) wr false =
          some (st.dev.issue [.write (a.secStart + m) wr (sectorOf buf)]) := by
        rw [← Nat.cast_add, u64OfInt_natCast (by omega)]
        exact st.dev.write_of_le buf _ _ false (by omega)
      have hdata : ∀ i < wr, (sectorOf buf i : Sector G.sectorShift) = v (a.secStart + m + i) := by
        intro i hi
        have hrun := sectorOf_patch_run (k := G.sectorShift) st.sectorBuf 0 wr
          (flatten (advance st.dev.med.cur (dataSec + m))) i
        rw [Nat.zero_mul] at hrun
        rw [← hbuf]
        refine hrun.trans ?_
        rw [patch_inside _ _ (Nat.zero_le _) (by omega), sectorOf_flatten, Nat.sub_zero, advance,
          Nat.add_assoc, hsrc (m + i) (by omega), Nat.add_assoc]
      have hstep : ((m : Int) + ((wr : Nat) : Int)) = ((m + wr : Nat) : Int) := by
        rw [Nat.cast_add]
      -- the source lies behind the target, so the copy does not change it
      have hsrc' : ∀ i < a.secCnt,
          (st.dev.issue [.write (a.secStart + m) wr (sectorOf buf)]).med.cur (dataSec + i) =
            v (a.secStart + i) := by
        intro i hi
        rw [← hsrc i hi]
        exact patch_outside _ _ (by omega)
      obtain ⟨ios, buf', hrun, hios, hcur⟩ := ih (m + wr)
        { st with
          dev := st.dev.issue [.write (a.secStart + m) wr (sectorOf buf)], sectorBuf := buf }
        (by omega) (by omega) hdev hsrc'
      rw [copyArea, hm32, if_pos hmore, hj]
      simp only [hrest, hwr, hread, hbuf, hwrite, hstep]
      simp only [Dev.issue_issue, List.cons_append, List.nil_append, Dev.issue_med] at hrun hcur
      refine ⟨_, buf', hrun, ?_, ?_⟩
      · intro io hio
        rcases List.mem_cons.mp hio with rfl | hio
        · refine ⟨?_, ?_⟩
          · intro i hi
            exact ⟨⟨by omega, by omega⟩, hdata i hi⟩
          · intro s hs
            exact ⟨by have := hs.1; omega, by have := hs.2; omega⟩
        · exact hios io hio
      · intro s h1 h2
        by_cases hs : a.secStart + (m + wr) ≤ s
        · exact hcur s hs h2
        · have hstores := (Medium.run_puts (m := (st.dev.med.step
            (.write (a.secStart + m) wr (sectorOf buf)))) (s := s)
            (fun io hio => (hios io hio).1)
            (by
              simp only [Medium.step, patch]
              rw [if_pos (by omega), if_pos (by omega)]
              exact List.mem_cons_self)).1
          rcases hstores with hkeep | ⟨-, hv⟩
          · refine Eq.trans hkeep ?_
            simp only [Medium.step]
            rw [patch_inside _ _ h1 (by omega), hdata _ (by omega)]
            exact congrArg v (by omega)
          · exact hv
    · refine ⟨[], st.sectorBuf, ?_, by simp, ?_⟩
      · rw [copyArea, hm32, if_neg hmore, Dev.issue_nil]
      · intro s h1 h2
        omega

def Covered (areas : List SecArea) (s : Nat) : Prop := ∃ a ∈ areas, a.Has s

def LogHolds (dataSecNum : Nat) (areas : List SecArea) {k : Nat} (d v : Nat → Sector k) : Prop :=
  ∀ a ∈ areas, ∀ i < a.secCnt, d (dataSecNum + a.secOff + i) = v (a.secStart + i)

theorem copyAreas_spec {v : Nat → Sector G.sectorShift} {dataSecNum dataSecCnt : Nat}
    (hlo : G.transDataStart ≤ dataSecNum) (hhi : dataSecNum + dataSecCnt ≤ G.logEnd)
    (hG : G.Valid) (hsmall : dataSecCnt ≤ 2 ^ 31) {as : List SecArea}
    (hok : AreasOk G dataSecCnt as) (st : Vol G.sectorShift)
    (hD : st.trans.dataSecNum = dataSecNum) (hsec : st.dev.secCnt = G.secCnt)
    (hsrc : LogHolds dataSecNum as st.dev.med.cur v) :
    ∃ ios buf, copyAreas G as st =
        (.errNone, { st with dev := st.dev.issue ios, sectorBuf := buf }) ∧
      (∀ io ∈ ios, io.Stores v (Covered as) ∧ ∀ s, io.touches s → Covered as s) ∧
      ∀ s, Covered as s → (st.dev.med.run ios).cur s = v s ∧
        (st.dev.med.run ios).may s = [v s] := by
  have hend := Geom.logEnd_le hG.laid
  have hstart := Geom.transSecStart_lt_dataStart hG.laid
  have hsize : G.secCnt < 2 ^ 64 :=
    lt_of_le_of_lt (Nat.le_mul_of_pos_right _ (Nat.two_pow_pos _)) hG.dev_lt
  induction as generalizing st with
  | nil =>
    refine ⟨[], st.sectorBuf, by rw [copyAreas, Dev.issue_nil], by simp, ?_⟩
    rintro s ⟨a, ha, -⟩
    simp at ha
  | cons a as ih =>
    have hbefore := hok.before a List.mem_cons_self
    have hoff := hok.off a List.mem_cons_self
    obtain ⟨hdisj, hrestd⟩ := List.pairwise_cons.mp hok.disjoint
    have hrest : AreasOk G dataSecCnt as :=
      ⟨fun b hb => hok.pos b (List.mem_cons_of_mem _ hb),
        fun b hb => hok.off b (List.mem_cons_of_mem _ hb),
        fun b hb => hok.before b (List.mem_cons_of_mem _ hb), hrestd⟩
    obtain ⟨ios, buf, hcopy, hios, hcur⟩ := copyArea_spec (v := v) (a := a)
      (by omega) (by omega) (by omega) a.secCnt 0 st
      (Nat.zero_le _) (by omega) (by omega) (hsrc a List.mem_cons_self)
    have hzero : i32OfInt ((0 : Nat) : Int) = 0 := i32OfInt_natCast (by omega)
    rw [hzero] at hcopy
    have hsync := (st.dev.issue ios).sync_of_le a.secStart a.secCnt
      (by rw [Dev.issue_secCnt]; omega)
    rw [Dev.issue_issue] at hsync
    have htouch : ∀ io ∈ ios ++ [.sync a.secStart a.secCnt], ∀ s, io.touches s → a.Has s := by
      intro io hio s hs
      rcases List.mem_append.mp hio with hio | hio
      · exact (hios io hio).2 s hs
      · rw [List.mem_singleton] at hio
        subst hio
        exact hs
    -- the copies stay before the log, so the logged data is still there
    have hsrc' : LogHolds dataSecNum as
        (st.dev.issue (ios ++ [.sync a.secStart a.secCnt])).med.cur v := by
      intro b hb i hi
      rw [← hsrc b (List.mem_cons_of_mem _ hb) i hi]
      refine Medium.run_cur_of_not_touches _ ?_
      intro io hio hs
      have has := (htouch io hio _ hs).2
      omega
    obtain ⟨ios', buf', hcopy', hios', hfin⟩ := ih hrest
      { st with dev := st.dev.issue (ios ++ [.sync a.secStart a.secCnt]), sectorBuf := buf }
      hD hsec hsrc'
    simp only [Dev.issue_issue, Dev.issue_med] at hcopy' hfin
    refine ⟨ios ++ [.sync a.secStart a.secCnt] ++ ios', buf', ?_, ?_, ?_⟩
    · rw [copyAreas, hD, hcopy]
      simp only [hsync]
      exact hcopy'
    · intro io hio
      rcases List.mem_append.mp hio with hio | hio
      · refine ⟨?_, fun s hs => ⟨a, List.mem_cons_self, htouch io hio s hs⟩⟩
        rcases List.mem_append.mp hio with hio | hio
        · have hst := (hios io hio).1
          cases io with
          | write sec cnt data =>
            exact fun i hi => ⟨⟨a, List.mem_cons_self, (hst i hi).1⟩, (hst i hi).2⟩
          | sync sec cnt => trivial
        · rw [List.mem_singleton] at hio
          subst hio
          trivial
      · obtain ⟨hst, htc⟩ := hios' io hio
        refine ⟨?_, ?_⟩
        · cases io with
          | write sec cnt data =>
            intro i hi
            obtain ⟨⟨b, hb, hbs⟩, hv⟩ := hst i hi
            exact ⟨⟨b, List.mem_cons_of_mem _ hb, hbs⟩, hv⟩
          | sync sec cnt => trivial
        · intro s hs
          obtain ⟨b, hb, hbs⟩ := htc s hs
          exact ⟨b, List.mem_cons_of_mem _ hb, hbs⟩
    · rintro s ⟨b, hb, hbs⟩
      rcases List.mem_cons.mp hb with rfl | hb
      · have hapart : ∀ io ∈ ios', ¬ io.touches s := by
          intro io hio hs
          obtain ⟨c, hc, hcs⟩ := (hios' io hio).2 s hs
          exact hdisj c hc s ⟨hbs, hcs⟩
        have hv := hcur s (by rw [Nat.add_zero]; exact hbs.1) hbs.2
        rw [Medium.run_append _ _ ios', Medium.run_cur_of_not_touches _ hapart,
          Medium.run_may_of_not_touches _ hapart, Medium.run_append]
        simp only [Medium.run, List.foldl_cons, List.foldl_nil, Medium.step]
        rw [if_pos ⟨hbs.1, hbs.2⟩]
        exact ⟨hv, by rw [← hv]; rfl⟩
      · rw [Medium.run_append _ _ ios']
        exact hfin s ⟨b, hb, hbs⟩

def headOf (status : Nat) {k : Nat} (st : Vol k) : TransHead :=
  sealHead { st.trans with status := status }

def headBuf (status : Nat) {k : Nat} (st : Vol k) : Bytes :=
  putFields st.secBuff st.transSecOff (transHeadFields (headOf status st))

def headIos (status : Nat) {k : Nat} (st : Vol k) : List (Io k) :=
  [.write st.transCurSec 1 (sectorOf (headBuf status st)), .sync st.transCurSec 1]

def headState (status : Nat) {k : Nat} (st : Vol k) : Vol k :=
  { st with
    dev := st.dev.issue (headIos status st)
    trans := headOf status st
    secBuff := headBuf status st }

theorem writeHead_of_lt {k : Nat} (status : Nat) (st : Vol k)
    (h : st.transCurSec < st.dev.secCnt) : writeHead status st = (true, headState status st) := by
  have hwr := st.dev.write_of_le (headBuf status st) _ 1 true h
  simp only [headBuf, headOf] at hwr
  simp only [writeHead, tpsFsTransSerial, hwr]
  rfl

def listed {k : Nat} (st : Vol k) (iosL : List (Io k)) (buf : Bytes) (n : Nat) : Vol k :=
  { st with
    dev := st.dev.issue
      (iosL ++ [.sync st.trans.dataSecNum (st.trans.dataSecCnt + n)])
    sectorBuf := buf
    trans := { st.trans with dataSecCnt := st.trans.dataSecCnt + n } }

def copied {k : Nat} (st : Vol k) (iosC : List (Io k)) (buf : Bytes) : Vol k :=
  { st with dev := st.dev.issue iosC, sectorBuf := buf }

def finish (G : Geom) {k : Nat} (st : Vol k) : Vol k :=
  { nextSlot G st with
    dataCurSec := nextDataSec G ((nextSlot G st).trans.dataSecNum + (nextSlot G st).trans.dataSecCnt)
    serialNum := u64 ((nextSlot G st).serialNum + 1) }

structure Ready (G : Geom) (v : Nat → Sector G.sectorShift) (st : Vol G.sectorShift) : Prop where
  secCnt : st.dev.secCnt = G.secCnt
  dataLo : G.transDataStart ≤ st.trans.dataSecNum
  dataHi : st.trans.dataSecNum + st.trans.dataSecCnt ≤ G.logEnd
  listHi : st.trans.dataSecNum + st.trans.dataSecCnt + listSecs G st.areas.length ≤ G.secCnt
  small : st.trans.dataSecCnt + listSecs G st.areas.length ≤ 2 ^ 31
  areas : AreasOk G st.trans.dataSecCnt st.areas
  areaCnt : st.areas.length ≤ G.transMaxArea
  slotLo : G.transSecStart ≤ st.transCurSec
  slotHi : st.transCurSec < G.transDataStart
  holds : LogHolds st.trans.dataSecNum st.areas st.dev.med.cur v

structure CommitRun (G : Geom) (v : Nat → Sector G.sectorShift) (st : Vol G.sectorShift)
    (iosL iosC : List (Io G.sectorShift)) (bufL bufC : Bytes) : Prop where
  eq : commitAreas G st = (.errNone, finish G (headState statusComplete
    (copied (headState statusCommit (listed st iosL bufL (listSecs G st.areas.length)))
      iosC bufC)))
  listIos : ∀ io ∈ iosL, ∃ i < listSecs G st.areas.length, ∃ data,
    io = .write (st.trans.dataSecNum + st.trans.dataSecCnt + i) 1 data ∧
    ListSector G st.areas (i * areaPerSec G) (sectorByte (data 0))
  lists : ∀ i < listSecs G st.areas.length, ListSector G st.areas (i * areaPerSec G)
    (sectorByte ((st.dev.med.run iosL).cur (st.trans.dataSecNum + st.trans.dataSecCnt + i)))
  copyIos : ∀ io ∈ iosC, io.Stores v (Covered st.areas) ∧ ∀ s, io.touches s → Covered st.areas s
  done : ∀ s, Covered st.areas s →
    ((headState statusCommit (listed st iosL bufL
      (listSecs G st.areas.length))).dev.med.run iosC).cur s = v s ∧
    ((headState statusCommit (listed st iosL bufL
      (listSecs G st.areas.length))).dev.med.run iosC).may s = [v s]

theorem transMaxArea_lt (hG : G.Valid) : G.transMaxArea < 2 ^ 32 := by
  rw [Geom.transMaxArea, Nat.shiftLeft_eq]
  have hpow : 2 ^ (G.blkShift - 12) ≤ 2 ^ 19 :=
    Nat.pow_le_pow_right (by omega) (by have := hG.blkShift_lt; omega)
  omega

theorem secCnt_lt (hG : G.Valid) : G.secCnt < 2 ^ 64 :=
  lt_of_le_of_lt (Nat.le_mul_of_pos_right _ (Nat.two_pow_pos _)) hG.dev_lt

theorem Ready.fits {v : Nat → Sector G.sectorShift} {st : Vol G.sectorShift} (hG : G.Valid)
    (h : Ready G v st) : ∀ a ∈ st.areas, a.Fits := by
  intro a ha
  have h1 := h.areas.before a ha
  have h2 := h.areas.off a ha
  have h3 := h.small
  have h4 := Geom.transSecStart_lt_dataStart hG.laid
  have h5 := G.dataStart_le_logEnd
  have h6 := Geom.logEnd_le hG.laid
  have h7 := secCnt_lt hG
  exact ⟨by omega, by omega, by omega⟩

theorem Ready.commitRun {v : Nat → Sector G.sectorShift} {st : Vol G.sectorShift} (hG : G.Valid)
    (h : Ready G v st) (hne : st.areas ≠ []) :
    ∃ iosL iosC bufL bufC, CommitRun G v st iosL iosC bufL bufC := by
  have hmax := transMaxArea_lt hG
  have hend := Geom.logEnd_le hG.laid
  have hcnt := h.areaCnt
  have hsec := h.secCnt
  have hhi := h.dataHi
  have hlist := h.listHi
  have hsmall := h.small
  have hstart := Geom.transSecStart_lt_dataStart hG.laid
  have hdata := G.dataStart_le_logEnd
  have hslot := h.slotHi
  have hlo := h.dataLo
  obtain ⟨iosL, bufL, hlist, hiosL, hsecL⟩ := writeAreaList_spec hG (h.fits hG) (by omega)
    st.areas.length 0 st rfl (by omega) (Nat.zero_le _) (by omega) (by omega)
  simp only [Nat.zero_mul, Nat.min_zero, Nat.sub_zero, Nat.zero_add] at hlist hiosL hsecL
  have hsync := (st.dev.issue iosL).sync_of_le st.trans.dataSecNum
    (st.trans.dataSecCnt + listSecs G st.areas.length)
    (by rw [Dev.issue_secCnt]; omega)
  rw [Dev.issue_issue] at hsync
  have hcommit := writeHead_of_lt statusCommit
    (listed st iosL bufL (listSecs G st.areas.length))
    (by simp only [listed, Dev.issue_secCnt]; omega)
  -- neither the list nor the header touches the logged data
  have hholds : LogHolds st.trans.dataSecNum st.areas
      (headState statusCommit (listed st iosL bufL (listSecs G st.areas.length))).dev.med.cur
      v := by
    intro a ha i hi
    have hoff := h.areas.off a ha
    rw [← h.holds a ha i hi]
    simp only [headState, listed, Dev.issue_issue, Dev.issue_med]
    refine Medium.run_cur_of_not_writes _ ?_
    intro io hio hw
    simp only [headIos, List.mem_append, List.mem_cons, List.not_mem_nil, or_false] at hio
    rcases hio with (hio | rfl) | rfl | rfl
    · obtain ⟨j, hj, data, rfl, -⟩ := hiosL io hio
      have hw1 := hw.1
      omega
    · exact hw
    · have hw1 : st.trans.dataSecNum + a.secOff + i < st.transCurSec + 1 := hw.2
      omega
    · exact hw
  obtain ⟨iosC, bufC, hcopy, hiosC, hdone⟩ := copyAreas_spec (v := v) h.dataLo
    (by omega) hG (by omega) h.areas
    (headState statusCommit (listed st iosL bufL (listSecs G st.areas.length))) rfl hsec hholds
  have hcomplete := writeHead_of_lt statusComplete
    (copied (headState statusCommit (listed st iosL bufL (listSecs G st.areas.length)))
      iosC bufC)
    (by simp only [copied, headState, listed, Dev.issue_secCnt]; omega)
  refine ⟨iosL, iosC, bufL, bufC, ?_, hiosL, hsecL, hiosC, hdone⟩
  rw [commitAreas, if_neg (by simpa using hne), hlist]
  simp only [hsync]
  rw [← listed, hcommit]
  simp only
  rw [show (headState statusCommit
    (listed st iosL bufL (listSecs G st.areas.length))).areas = st.areas from rfl, hcopy]
  simp only
  rw [← copied, hcomplete]
  rfl

theorem writeAreaList_room (hG : G.Valid) {areas : List SecArea} (hfit : ∀ a ∈ areas, a.Fits)
    (hlen : areas.length < 2 ^ 32) (fuel : Nat) :
    ∀ (t : Nat) (st : Vol G.sectorShift), st.areas = areas →
      areas.length - t * areaPerSec G ≤ fuel → t ≤ listSecs G areas.length →
      st.trans.dataSecCnt + (listSecs G areas.length - t) < 2 ^ 32 →
      st.trans.dataSecNum + st.trans.dataSecCnt ≤ st.dev.secCnt →
      (writeAreaList G fuel (min areas.length (t * areaPerSec G)) st).1 = .errNone →
      st.trans.dataSecNum + st.trans.dataSecCnt + (listSecs G areas.length - t) ≤
        st.dev.secCnt := by
  have hn := (areaPerSec_spec hG).1
  induction fuel with
  | zero =>
    intro t st _ hfuel _ _ hdev _
    have hiff := lt_listSecs_iff hG t areas.length
    omega
  | succ fuel ih =>
    intro t st hst hfuel ht hsmall hdev hok
    by_cases hmore : t * areaPerSec G < areas.length
    · have hlt : t < listSecs G areas.length := (lt_listSecs_iff hG t _).mpr hmore
      have hmin : min areas.length (t * areaPerSec G) = t * areaPerSec G := by omega
      obtain ⟨hidx, -⟩ :=
        tpsFsTransSecAreaSerial_spec hG hfit hlen st.areaReserved hmore st.sectorBuf
      rw [show t * areaPerSec G + areaPerSec G = (t + 1) * areaPerSec G by
        rw [Nat.add_mul, Nat.one_mul]] at hidx
      rw [hmin, writeAreaList, hst, if_pos hmore] at hok
      by_cases hroom : st.trans.dataSecNum + st.trans.dataSecCnt + 1 ≤ st.dev.secCnt
      · have hwr := st.dev.write_of_le
          (tpsFsTransSecAreaSerial G areas st.areaReserved (t * areaPerSec G) st.sectorBuf).2 _ _
          false hroom
        simp only [hidx, hwr] at hok
        rw [u32_of_lt (by omega)] at hok
        have hrest := ih (t + 1) _ rfl (by rw [Nat.add_mul]; omega) hlt (by dsimp only; omega)
          (by dsimp only [Dev.issue_secCnt]; omega) hok
        simp only [Dev.issue_secCnt] at hrest
        omega
      · have hwr : st.dev.write
            (tpsFsTransSecAreaSerial G areas st.areaReserved (t * areaPerSec G) st.sectorBuf).2
            (st.trans.dataSecNum + st.trans.dataSecCnt) 1 false = none := if_neg hroom
        simp only [hwr] at hok
        cases hok
    · have hiff := lt_listSecs_iff hG t areas.length
      omega

structure LogOk (G : Geom) (st : Vol G.sectorShift) : Prop where
  secCnt : st.dev.secCnt = G.secCnt
  slotLo : G.transSecStart ≤ st.transCurSec
  slotHi : st.transCurSec < G.transDataStart
  dataLo : G.transDataStart ≤ st.dataCurSec
  dataHi : st.dataCurSec + G.transRevDataSec < G.logEnd

theorem tpsFsTransAllocAndInit_some {k time : Nat} {st0 st : Vol k}
    (h : (tpsFsTransAllocAndInit time st0).1 = some st) :
    st = { st0 with
      trans := { st0.trans with
        serialNum := st0.serialNum, dataSecNum := st0.dataCurSec, dataSecCnt := 0
        time := time, status := statusInit }
      areas := [] } := by
  rw [tpsFsTransAllocAndInit] at h
  split at h
  · cases h
  · split at h
    · cases h
    · simpa using h.symm

theorem LogOk.opens {st0 st : Vol G.sectorShift} {time : Nat} (h : LogOk G st0)
    (hopen : (tpsFsTransAllocAndInit time st0).1 = some st) : Open G st0.dev.med.cur st := by
  have hdata := h.dataHi
  rw [tpsFsTransAllocAndInit_some hopen]
  refine ⟨h.secCnt, rfl, h.dataLo, ?_, ?_, Nat.zero_le _, fun _ _ => rfl⟩
  · dsimp only
    omega
  · refine ⟨?_, ?_, ?_, List.Pairwise.nil⟩ <;> simp

theorem view_eq_of_bytes {st : Vol G.sectorShift} {d : Bytes}
    (h : ∀ p < G.homeLen, flatten (view G st) p = d p) {s : Nat} (hs : s < G.transSecStart) :
    view G st s = sectorOf d s := by
  have hs' : (s + 1) * G.sectorSize ≤ G.homeLen := Nat.mul_le_mul_right _ hs
  rw [Nat.add_mul, Nat.one_mul] at hs'
  rw [← sectorOf_flatten (view G st) s]
  refine sectorOf_congr ?_
  intro j hj
  exact h _ (by have := hj; simp only [Geom.sectorSize] at hs'; omega)

theorem overlay_congr {ws : List TransWrite} {d d' : Bytes} {p : Nat} (h : d p = d' p) :
    overlay G ws d p = overlay G ws d' p := by
  induction ws generalizing d d' with
  | nil => exact h
  | cons w ws ih =>
    refine ih ?_
    simp only [patch, h]

theorem overlay_outside {ws : List TransWrite} (hin : ∀ w ∈ ws, w.Inside G) (d : Bytes) {p : Nat}
    (hp : G.homeLen ≤ p) : overlay G ws d p = d p := by
  induction ws generalizing d with
  | nil => rfl
  | cons w ws ih =>
    have hw : G.addr w.blk w.off + w.len ≤ G.homeLen := hin w List.mem_cons_self
    refine (ih (fun w' hw' => hin w' (List.mem_cons_of_mem _ hw')) _).trans ?_
    exact patch_outside _ _ (by omega)

theorem finish_dev {k : Nat} (st : Vol k) : (finish G st).dev = st.dev := by
  simp only [finish, nextSlot]
  split <;> rfl

def CommitRun.final (G : Geom) (st : Vol G.sectorShift) (iosL iosC : List (Io G.sectorShift))
    (bufL bufC : Bytes) : Vol G.sectorShift :=
  finish G (headState statusComplete
    (copied (headState statusCommit (listed st iosL bufL (listSecs G st.areas.length)))
      iosC bufC))

theorem CommitRun.final_med (st : Vol G.sectorShift) (iosL iosC : List (Io G.sectorShift))
    (bufL bufC : Bytes) : ∃ iosH iosH', (CommitRun.final G st iosL iosC bufL bufC).dev.med =
      (((st.dev.med.run iosL).run iosH).run iosC).run iosH' ∧
      (headState statusCommit (listed st iosL bufL (listSecs G st.areas.length))).dev.med =
        (st.dev.med.run iosL).run iosH ∧
      ∀ io ∈ iosH ++ iosH', ∀ s, io.writes s → s = st.transCurSec := by
  refine ⟨.sync st.trans.dataSecNum (st.trans.dataSecCnt + listSecs G st.areas.length) ::
    headIos statusCommit (listed st iosL bufL (listSecs G st.areas.length)), headIos statusComplete
      (copied (headState statusCommit (listed st iosL bufL (listSecs G st.areas.length)))
        iosC bufC), ?_, ?_, ?_⟩
  · rw [final, finish_dev]
    simp only [headState, copied, listed, Dev.issue_med, Medium.run_append]
    rfl
  · simp only [headState, listed, Dev.issue_med, Medium.run_append]
    rfl
  · intro io hio s hs
    simp only [headIos, List.cons_append, List.nil_append, List.mem_cons, List.not_mem_nil,
      or_false] at hio
    rcases hio with rfl | rfl | rfl | rfl | rfl
    · exact hs.elim
    · have h1 : st.transCurSec ≤ s := hs.1
      have h2 : s < st.transCurSec + 1 := hs.2
      omega
    · exact hs.elim
    · have h1 : st.transCurSec ≤ s := hs.1
      have h2 : s < st.transCurSec + 1 := hs.2
      omega
    · exact hs.elim

theorem CommitRun.final_cur {v : Nat → Sector G.sectorShift} {st : Vol G.sectorShift}
    {iosL iosC : List (Io G.sectorShift)} {bufL bufC : Bytes} (hG : G.Valid) (h : Ready G v st)
    (hrun : CommitRun G v st iosL iosC bufL bufC) {s : Nat}
    (hs : s < G.transSecStart ∨ G.logEnd ≤ s ∧
      st.trans.dataSecNum + st.trans.dataSecCnt + listSecs G st.areas.length ≤ s) :
    (Covered st.areas s → (final G st iosL iosC bufL bufC).dev.med.cur s = v s) ∧
      (¬ Covered st.areas s →
        (final G st iosL iosC bufL bufC).dev.med.cur s = st.dev.med.cur s) := by
  have hstart := Geom.transSecStart_lt_dataStart hG.laid
  have hend := G.dataStart_le_logEnd
  have hlo := h.dataLo
  have hslot := h.slotHi
  have hslot' := h.slotLo
  obtain ⟨iosH, iosH', hmed, hmid, hios⟩ := final_med st iosL iosC bufL bufC
  have hH' : ∀ io ∈ iosH', ¬ io.writes s := by
    intro io hio hw
    have heq := hios io (List.mem_append_right _ hio) s hw
    omega
  have hH : ∀ io ∈ iosH, ¬ io.writes s := by
    intro io hio hw
    have heq := hios io (List.mem_append_left _ hio) s hw
    omega
  have hL : ∀ io ∈ iosL, ¬ io.writes s := by
    intro io hio hw
    obtain ⟨j, hj, data, rfl, -⟩ := hrun.listIos io hio
    have hw1 := hw.1
    have hw2 := hw.2
    omega
  refine ⟨?_, ?_⟩
  · intro hcov
    have hdone := (hrun.done s hcov).1
    rw [hmid] at hdone
    rw [hmed, Medium.run_cur_of_not_writes _ hH', hdone]
  · intro hcov
    have hC : ∀ io ∈ iosC, ¬ io.touches s := fun io hio ht => hcov ((hrun.copyIos io hio).2 s ht)
    rw [hmed, Medium.run_cur_of_not_writes _ hH', Medium.run_cur_of_not_touches _ hC,
      Medium.run_cur_of_not_writes _ hH, Medium.run_cur_of_not_writes _ hL]

theorem CommitRun.final_cur_data {v : Nat → Sector G.sectorShift} {st : Vol G.sectorShift}
    {iosL iosC : List (Io G.sectorShift)} {bufL bufC : Bytes} (hG : G.Valid) (h : Ready G v st)
    (hrun : CommitRun G v st iosL iosC bufL bufC) {s : Nat} (hs : G.transDataStart ≤ s) :
    (final G st iosL iosC bufL bufC).dev.med.cur s = (st.dev.med.run iosL).cur s := by
  have hstart := Geom.transSecStart_lt_dataStart hG.laid
  have hslot := h.slotHi
  obtain ⟨iosH, iosH', hmed, -, hios⟩ := final_med st iosL iosC bufL bufC
  have hH' : ∀ io ∈ iosH', ¬ io.writes s := by
    intro io hio hw
    have heq := hios io (List.mem_append_right _ hio) s hw
    omega
  have hH : ∀ io ∈ iosH, ¬ io.writes s := by
    intro io hio hw
    have heq := hios io (List.mem_append_left _ hio) s hw
    omega
  have hC : ∀ io ∈ iosC, ¬ io.touches s := by
    intro io hio ht
    obtain ⟨a, ha, -, hhi⟩ := (hrun.copyIos io hio).2 s ht
    have hbefore := h.areas.before a ha
    omega
  rw [hmed, Medium.run_cur_of_not_writes _ hH', Medium.run_cur_of_not_touches _ hC,
    Medium.run_cur_of_not_writes _ hH]

theorem Open.ready {base : Nat → Sector G.sectorShift} {st : Vol G.sectorShift} (hG : G.Valid)
    (h : Open G base st) (hslotLo : G.transSecStart ≤ st.transCurSec)
    (hslotHi : st.transCurSec < G.transDataStart)
    (hlist : st.trans.dataSecNum + st.trans.dataSecCnt + listSecs G st.areas.length ≤ G.secCnt)
    (hsmall : st.trans.dataSecCnt + listSecs G st.areas.length ≤ 2 ^ 31) :
    Ready G (view G st) st := by
  refine ⟨h.secCnt, h.dataLo, h.dataHi, hlist, hsmall, h.areas, h.areaCnt, hslotLo, hslotHi, ?_⟩
  intro a ha i hi
  have hbefore := h.areas.before a ha
  have has : a.Has (a.secStart + i) := ⟨Nat.le_add_right _ _, by omega⟩
  rw [view, home, if_pos (by omega), logSector_of_has h.areas.disjoint ha has, Option.getD_some,
    Nat.add_sub_cancel_left]

theorem cur_eq_view {st : Vol G.sectorShift} {s : Nat} (hs : s < G.transSecStart) (hcov : ¬ Covered st.areas s) :
    st.dev.med.cur s = view G st s := by
  rw [view, home, if_pos hs,
    logSector_of_not_has (fun a ha has => hcov ⟨a, ha, has⟩), Option.getD_none]

end SylixOS.TpsTrans
