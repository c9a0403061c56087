import SylixOS.TpsTransHead

/-! Reading the area list back, last sector first. -/

namespace SylixOS.TpsTrans
open SylixOS.ByteBuffer SylixOS.SectorDevice

variable {G : Geom}

theorem secAreaUnserialLoop_spec (hG : G.Valid) (buf : Bytes) (n t j : Nat) :
    (secAreaUnserialLoop G buf n (16 + 16 * t))[j]? =
      if j < n ∧ t + j < areaPerSec G then some (getSecArea buf (16 + 16 * (t + j))) else none := by
  obtain ⟨hn, hsize⟩ := areaPerSec_spec hG
  induction n generalizing t j with
  | zero => simp [secAreaUnserialLoop]
  | succ n ih =>
    rw [secAreaUnserialLoop]
    by_cases hroom : t < areaPerSec G
    · rw [if_pos (by omega), show 16 + 16 * t + 16 = 16 + 16 * (t + 1) by omega]
      cases j with
      | zero => rw [List.getElem?_cons_zero, if_pos (by omega), Nat.add_zero]
      | succ j =>
        rw [List.getElem?_cons_succ, ih (t + 1) j, show t + 1 + j = t + (j + 1) by omega]
        refine if_congr ?_ rfl rfl
        omega
    · rw [if_neg (by omega), if_neg (by omega), List.getElem?_nil]

theorem tpsFsTransSecAreaUnserial_spec (hG : G.Valid) {areas : List SecArea} {idx : Nat}
    {buf : Bytes} (h : ListSector G areas idx buf) (arr : Nat → SecArea) :
    ∃ reserved arr', tpsFsTransSecAreaUnserial G arr buf = (areas.length, idx, reserved, arr') ∧
      ∀ j, ∀ hj : j < areas.length, idx ≤ j →
        (idx + areaPerSec G ≤ j → arr j = areas[j]) → arr' j = areas[j] := by
  refine ⟨_, _, by rw [tpsFsTransSecAreaUnserial, h.cnt, h.index], ?_⟩
  intro j hj hidx hbehind
  have hget := secAreaUnserialLoop_spec hG buf (areas.length - idx) 0 (j - idx)
  rw [Nat.mul_zero, Nat.add_zero, Nat.zero_add] at hget
  rw [setAreas, if_pos hidx, List.getD_eq_getElem?_getD, hget]
  by_cases hin : j < idx + areaPerSec G
  · rw [if_pos (by omega), Option.getD_some, h.get (j - idx) (by omega) (by omega)]
    congr 1
    omega
  · rw [if_neg (by omega), Option.getD_none]
    exact hbehind (by omega)

theorem tpsFsLoadTransData_pass (hG : G.Valid) {areas : List SecArea} {idx cnt : Nat}
    {st : Vol G.sectorShift} (hcnt : st.trans.dataSecCnt = cnt + 1) (hsmall : cnt < 2 ^ 32)
    (hdev : st.trans.dataSecNum + cnt + 1 ≤ st.dev.secCnt) (h64 : st.dev.secCnt < 2 ^ 64)
    (hls : ListSector G areas idx (sectorByte (st.dev.med.cur (st.trans.dataSecNum + cnt))))
    (arr : Nat → SecArea) (fuel : Nat) :
    ∃ buf reserved arr' st', st' = { st with
        sectorBuf := buf, areaReserved := reserved, areas := (List.range areas.length).map arr'
        trans := { st.trans with dataSecCnt := cnt } } ∧
      tpsFsLoadTransData G (fuel + 1) arr st =
        (if 0 < idx then tpsFsLoadTransData G fuel arr' st' else some (.errNone, st')) ∧
      ∀ j, ∀ hj : j < areas.length, idx ≤ j →
        (idx + areaPerSec G ≤ j → arr j = areas[j]) → arr' j = areas[j] := by
  have hread := st.dev.read_of_le _ _ hdev
  have hsec : u64OfInt (((st.trans.dataSecNum + (cnt + 1) : Nat) : Int) - 1) =
      st.trans.dataSecNum + cnt := by
    rw [u64OfInt]
    omega
  have hdec : u32OfInt (((cnt + 1 : Nat) : Int) - 1) = cnt := by
    rw [u32OfInt]
    omega
  have hbuf : ListSector G areas idx (patch st.sectorBuf 0 G.sectorSize
      (flatten (advance st.dev.med.cur (st.trans.dataSecNum + cnt)))) := by
    refine hls.congr hG ?_
    intro p hp
    have hdiv : p / 2 ^ G.sectorShift = 0 := Nat.div_eq_of_lt hp
    rw [patch_inside _ _ (Nat.zero_le _) (by omega), Nat.sub_zero]
    simp only [flatten, advance, hdiv, Nat.add_zero]
  obtain ⟨reserved, arr', hun, harr'⟩ := tpsFsTransSecAreaUnserial_spec hG hbuf arr
  refine ⟨patch st.sectorBuf 0 G.sectorSize
    (flatten (advance st.dev.med.cur (st.trans.dataSecNum + cnt))), reserved, arr', _, rfl, ?_,
    harr'⟩
  rw [tpsFsLoadTransData, hcnt, hsec, hread]
  simp only [hun, hdec]

theorem tpsFsLoadTransData_spec (hG : G.Valid) (areas : List SecArea) (dataSecCnt : Nat)
    (hcnt : dataSecCnt + listSecs G areas.length < 2 ^ 32) (m : Nat) :
    ∀ (fuel : Nat) (arr : Nat → SecArea) (st : Vol G.sectorShift), m < fuel →
      m < listSecs G areas.length → st.trans.dataSecCnt = dataSecCnt + m + 1 →
      st.trans.dataSecNum + (dataSecCnt + m) + 1 ≤ st.dev.secCnt → st.dev.secCnt < 2 ^ 64 →
      (∀ i ≤ m, ListSector G areas (i * areaPerSec G)
        (sectorByte (st.dev.med.cur (st.trans.dataSecNum + (dataSecCnt + i))))) →
      (∀ j, ∀ hj : j < areas.length, (m + 1) * areaPerSec G ≤ j → arr j = areas[j]) →
      ∃ buf reserved, tpsFsLoadTransData G fuel arr st =
        some (.errNone, { st with
          sectorBuf := buf, areaReserved := reserved, areas := areas
          trans := { st.trans with dataSecCnt := dataSecCnt } }) := by
  have hn := (areaPerSec_spec hG).1
  induction m with
  | zero =>
    intro fuel arr st hfuel hm hC hdev h64 hlist harr
    obtain ⟨fuel, rfl⟩ := Nat.exists_eq_add_of_lt hfuel
    obtain ⟨buf, reserved, arr', st', rfl, hload, harr'⟩ :=
      tpsFsLoadTransData_pass hG hC (by omega) hdev h64 (hlist 0 le_rfl) arr (0 + fuel)
    have hareas : (List.range areas.length).map arr' = areas := by
      refine List.ext_getElem (by simp) ?_
      intro j h1 h2
      rw [List.getElem_map, List.getElem_range]
      exact harr' j h2 (by omega) (fun hj => harr j h2 (by omega))
    refine ⟨buf, reserved, ?_⟩
    rw [hload, if_neg (by omega), hareas]
  | succ m ih =>
    intro fuel arr st hfuel hm hC hdev h64 hlist harr
    obtain ⟨fuel, rfl⟩ := Nat.exists_eq_add_of_lt hfuel
    obtain ⟨buf, reserved, arr', st', rfl, hload, harr'⟩ :=
      tpsFsLoadTransData_pass hG hC (by omega) hdev h64 (hlist (m + 1) le_rfl) arr (m + 1 + fuel)
    have hmore : 0 < (m + 1) * areaPerSec G := Nat.mul_pos (by omega) (by omega)
    have hstep : (m + 1) * areaPerSec G + areaPerSec G = (m + 1 + 1) * areaPerSec G := by
      rw [Nat.add_mul (m + 1), Nat.one_mul]
    rw [hload, if_pos hmore]
    obtain ⟨buf', reserved', hrest⟩ := ih (m + 1 + fuel) arr'
      { st with
        sectorBuf := buf, areaReserved := reserved, areas := (List.range areas.length).map arr'
        trans := { st.trans with dataSecCnt := dataSecCnt + (m + 1) } }
      (by omega) (by omega) rfl (by simp only; omega) h64
      (fun i hi => hlist i (by omega))
      (fun j hj hle => harr' j hj hle (fun hj' => harr j hj (by omega)))
    exact ⟨buf', reserved', hrest⟩

end SylixOS.TpsTrans
