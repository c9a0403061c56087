import SylixOS.TpsTransCrash

/-! Mounting after a power loss: the log between transactions, and what
`tspFsCheckTrans` makes of each image a commit can leave. -/

namespace SylixOS.TpsTrans
open SylixOS.ByteBuffer SylixOS.SectorDevice SylixOS.SerialRing

variable {G : Geom}

/-- The log between two transactions: `serialNum` commits are in the ring, all of them
complete, and the next header has its place. -/
structure LogState (G : Geom) (st : Vol G.sectorShift) : Prop where
  secCnt : st.dev.secCnt = G.secCnt
  cur_mem : ∀ s, st.dev.med.cur s ∈ st.dev.med.may s
  durable : ∀ s, G.transSecStart ≤ s → s < G.transDataStart →
    st.dev.med.may s = [st.dev.med.cur s]
  slot : st.transCurSec = slotSec G (st.serialNum % G.slotCnt)
  off : st.transSecOff = slotOff G (st.serialNum % G.slotCnt)
  buf : BufOk G st.dev.med.cur (st.serialNum % G.slotCnt) st.secBuff
  ring : Ring G st.dev.med.cur st.serialNum
  complete : ∀ S, st.serialNum = S + 1 → Completed G S st.dev.med.cur
  dataLo : G.transDataStart ≤ st.dataCurSec
  dataHi : st.dataCurSec + G.transRevDataSec < G.logEnd
  head : HeadOk G st.trans
  serial : st.serialNum < 2 ^ 64

theorem slotSec_mod_lt (hG : G.Valid) (n : Nat) : slotSec G (n % G.slotCnt) < G.transDataStart := by
  have hN := slotCnt_ge hG
  exact slotSec_lt (Nat.mod_lt n (by omega))

theorem LogState.logOk {st : Vol G.sectorShift} (hG : G.Valid) (h : LogState G st) : LogOk G st :=
  ⟨h.secCnt, by rw [h.slot]; exact slotSec_ge _, by rw [h.slot]; exact slotSec_mod_lt hG _,
    h.dataLo, h.dataHi⟩

theorem nextDataSec_spec (hG : G.Valid) {x : Nat} (hx : G.transDataStart ≤ x) :
    G.transDataStart ≤ nextDataSec G x ∧ nextDataSec G x + G.transRevDataSec < G.logEnd := by
  have hrev := hG.rev_lt_dataCnt
  rw [nextDataSec, Geom.logEnd]
  split <;> omega

theorem final_logState {v : Nat → Sector G.sectorShift} {st : Vol G.sectorShift}
    {iosL iosC : List (Io G.sectorShift)} {bufL bufC : Bytes} {n : Nat} (hG : G.Valid)
    (hready : Ready G v st) (harm : Armed G n st) (hrun : CommitRun G v st iosL iosC bufL bufC)
    (hn : n + 1 < 2 ^ 64) :
    LogState G (CommitRun.final G st iosL iosC bufL bufC) ∧
      (CommitRun.final G st iosL iosC bufL bufC).serialNum = n + 1 := by
  have hdev := final_dev st iosL iosC bufL bufC
  have hmed : (CommitRun.final G st iosL iosC bufL bufC).dev.med =
      (((st.dev.med.run (logIos G st iosL)).run
        (headIos statusCommit (beforeCommit G st iosL bufL))).run iosC).run
          (headIos statusComplete (beforeComplete G st iosL iosC bufL bufC)) := by
    rw [hdev, Dev.issue_med, Medium.run_append, Medium.run_append, Medium.run_append]
  have hlo := hready.dataLo
  have hstart := Geom.transSecStart_lt_dataStart hG.laid
  have hsector := (((st.dev.med.run (logIos G st iosL)).run
    (headIos statusCommit (beforeCommit G st iosL bufL))).run iosC).run_sector st.transCurSec
      (sectorOf (headBuf statusComplete (beforeComplete G st iosL iosC bufL bufC)))
  have hslot : (CommitRun.final G st iosL iosC bufL bufC).dev.med.cur st.transCurSec =
      sectorOf (headBuf statusComplete (beforeComplete G st iosL iosC bufL bufC)) 0 ∧
      (CommitRun.final G st iosL iosC bufL bufC).dev.med.may st.transCurSec =
        [sectorOf (headBuf statusComplete (beforeComplete G st iosL iosC bufL bufC)) 0] := by
    rw [hmed]
    exact hsector
  have huncovered : ∀ s, G.transSecStart ≤ s → ∀ io ∈ iosC, ¬ io.touches s := by
    intro s hs io hio ht
    obtain ⟨a, ha, has⟩ := (hrun.copyIos io hio).2 s ht
    have hbefore := hready.areas.before a ha
    have hhi := has.2
    omega
  have hother : ∀ s, G.transSecStart ≤ s → s < G.transDataStart → s ≠ st.transCurSec →
      (CommitRun.final G st iosL iosC bufL bufC).dev.med.may s = st.dev.med.may s ∧
        (CommitRun.final G st iosL iosC bufL bufC).dev.med.cur s = st.dev.med.cur s := by
    intro s h1 h2 hs
    have hH := headIos_not_touches statusCommit (beforeCommit G st iosL bufL) hs
    have hH' := headIos_not_touches statusComplete
      (beforeComplete G st iosL iosC bufL bufC) hs
    have hL := run_logIos_outside hrun (s := s) (by omega)
    rw [hmed, Medium.run_may_of_not_touches _ hH', Medium.run_may_of_not_touches _ (huncovered s h1),
      Medium.run_may_of_not_touches _ hH, Medium.run_cur_of_not_touches _ hH',
      Medium.run_cur_of_not_touches _ (huncovered s h1), Medium.run_cur_of_not_touches _ hH]
    exact hL
  obtain ⟨hcompleted, hpage⟩ := completed_of
    hG hready harm (fun s h1 h2 hs => (hother s h1 h2 hs).2) hslot.1
  obtain ⟨hnext1, hnext2, hnext3⟩ := nextSlot_spec
    (headState statusComplete (beforeComplete G st iosL iosC bufL bufC)) hG hcompleted.ring
    harm.slot harm.off hpage
  have hserial : (CommitRun.final G st iosL iosC bufL bufC).serialNum = n + 1 := by
    have hkeep : (nextSlot G (headState statusComplete
        (beforeComplete G st iosL iosC bufL bufC))).serialNum = n := by
      rw [← harm.next, nextSlot]
      split <;> rfl
    have heq : (CommitRun.final G st iosL iosC bufL bufC).serialNum =
      u64 ((nextSlot G (headState statusComplete
        (beforeComplete G st iosL iosC bufL bufC))).serialNum + 1) := rfl
    rw [heq, hkeep, u64_of_lt hn]
  have htrans : (nextSlot G (headState statusComplete
      (beforeComplete G st iosL iosC bufL bufC))).trans =
      sealHead { st.trans with
        dataSecCnt := st.trans.dataSecCnt + listSecs G st.areas.length
        status := statusComplete } := by
    rw [nextSlot]
    split <;> rfl
  have hok := harm.headOk hready statusComplete (by decide)
  have hdata := nextDataSec_spec hG (x := st.trans.dataSecNum +
    (st.trans.dataSecCnt + listSecs G st.areas.length)) (by omega)
  have hdataCur : (CommitRun.final G st iosL iosC bufL bufC).dataCurSec =
      nextDataSec G (st.trans.dataSecNum +
        (st.trans.dataSecCnt + listSecs G st.areas.length)) := by
    have heq : (CommitRun.final G st iosL iosC bufL bufC).dataCurSec =
      nextDataSec G ((nextSlot G (headState statusComplete
        (beforeComplete G st iosL iosC bufL bufC))).trans.dataSecNum +
        (nextSlot G (headState statusComplete
          (beforeComplete G st iosL iosC bufL bufC))).trans.dataSecCnt) := rfl
    rw [heq, htrans]
    rfl
  refine ⟨⟨?_, ?_, ?_, ?_, ?_, ?_, ?_, ?_, ?_, ?_, ?_, by omega⟩, hserial⟩
  · rw [hdev, Dev.issue_secCnt]
    exact hready.secCnt
  · intro s
    rw [hdev, Dev.issue_med]
    exact Medium.cur_mem_run _ _ (harm.cur_mem s)
  · intro s h1 h2
    by_cases hs : s = st.transCurSec
    · rw [hs, hslot.1, hslot.2]
    · rw [(hother s h1 h2 hs).1, (hother s h1 h2 hs).2]
      exact harm.durable s h1 h2
  · rw [hserial]
    exact hnext1
  · rw [hserial]
    exact hnext2
  · rw [hserial]
    exact hnext3
  · rw [hserial]
    exact hcompleted.ring
  · intro S hS
    have heq : S = n := by omega
    rw [heq]
    exact hcompleted
  · rw [hdataCur]
    exact hdata.1
  · rw [hdataCur]
    exact hdata.2
  · have heq : (CommitRun.final G st iosL iosC bufL bufC).trans = (nextSlot G (headState
      statusComplete (beforeComplete G st iosL iosC bufL bufC))).trans := rfl
    rw [heq, htrans]
    exact ⟨hok.magic, hok.generation, hok.reserved, hok.serialNum, hok.type, hok.status,
      hok.reserved64, hok.time, hok.dataSecNum, hok.dataSecCnt⟩

def mountTrans (G : Geom) (sectorBuf : Bytes) (areaReserved : Nat × Nat)
    (img : Nat → Sector G.sectorShift) : Option (TpsResult × Vol G.sectorShift) :=
  (tpsFsBtreeTransInit G (.boot G.secCnt img) sectorBuf areaReserved).bind (tspFsCheckTrans G)

def mountVol (G : Geom) (sectorBuf : Bytes) (areaReserved : Nat × Nat)
    (img : Nat → Sector G.sectorShift) : Vol G.sectorShift :=
  { dev := .boot G.secCnt img, sectorBuf := sectorBuf, fault := false
    transCurSec := G.transSecStart, transSecOff := 0, secBuff := fun _ => 0
    dataCurSec := G.transDataStart, serialNum := 0
    trans := uninitHead G.generation, areas := [], areaReserved := areaReserved }

theorem mountTrans_eq (hG : G.Valid) (sectorBuf : Bytes) (areaReserved : Nat × Nat)
    (img : Nat → Sector G.sectorShift) : mountTrans G sectorBuf areaReserved img =
      tspFsCheckTrans G (mountVol G sectorBuf areaReserved img) := by
  have h1 := hG.transSecCnt_pos
  have h2 := hG.rev_lt_dataCnt
  rw [mountTrans, tpsFsBtreeTransInit, if_neg (by omega), if_neg (by omega)]
  rfl

theorem uninitHead_headOk (hG : G.Valid) : HeadOk G (uninitHead G.generation) := by
  have hgen := hG.generation_lt
  refine ⟨rfl, rfl, ?_, ?_, ?_, ?_, ?_, ?_, ?_, ?_⟩ <;> simp [uninitHead, transTypeData, statusUninit]

def atSlot (G : Geom) (t : TransHead) (i : Nat) {k : Nat} (st : Vol k) : Vol k :=
  { st with serialNum := t.serialNum, transCurSec := slotSec G i, transSecOff := slotOff G i }

theorem applyNewest_complete {t : TransHead} (ht : t.status = statusComplete) (i : Nat)
    (st : Vol G.sectorShift) : applyNewest G t i st =
      some (.errNone, { nextSlot G (atSlot G t i st) with
        dataCurSec := nextDataSec G (t.dataSecNum + t.dataSecCnt)
        serialNum := u64 ((nextSlot G (atSlot G t i st)).serialNum + 1) }) := by
  have hvalid : t.status ≠ statusUninit := by rw [ht]; decide
  simp only [applyNewest, if_pos hvalid, if_pos ht, Nat.shiftRight_eq_div_pow, Nat.shiftLeft_eq]
  rfl

theorem applyNewest_commit {t : TransHead} (ht : t.status = statusCommit) (i : Nat)
    {st st' : Vol G.sectorShift}
    (hload : tpsFsLoadTransData G t.dataSecCnt
      (fun j => (atSlot G t i st).areas.getD j { secStart := 0, secOff := 0, secCnt := 0 })
      { atSlot G t i st with trans := t } = some (.errNone, st')) :
    applyNewest G t i st = some (commitAreas G st') := by
  have hvalid : t.status ≠ statusUninit := by rw [ht]; decide
  have hne : ¬ t.status = statusComplete := by rw [ht]; decide
  have hpos : (if t.status ≠ statusUninit then
      { st with
        serialNum := t.serialNum
        transCurSec := G.transSecStart + i >>> (G.sectorShift - Geom.tranShift)
        transSecOff := (i % 2 ^ (G.sectorShift - Geom.tranShift)) <<< Geom.tranShift }
      else st) = atSlot G t i st := by
    rw [if_pos hvalid, Nat.shiftRight_eq_div_pow, Nat.shiftLeft_eq]
    rfl
  rw [applyNewest]
  simp only [hpos]
  rw [if_neg hne, if_pos ht, hload]
  rfl

theorem probe_pageOk (hG : G.Valid) (i : Nat) (st : Vol G.sectorShift) :
    PageOk G st.dev.med.cur i (probe G i st).secBuff := by
  intro j hj
  refine slotHead_congr hG ?_
  intro p hp
  have hdiv : p / 2 ^ G.sectorShift = 0 := Nat.div_eq_of_lt hp
  rw [slotSec_eq_iff.mpr hj]
  simp only [probe]
  rw [patch_inside _ _ (Nat.zero_le _) (by omega), Nat.sub_zero]
  simp only [flatten, advance, hdiv, Nat.add_zero]

theorem Ring.newest_serial {S : Nat} {d : Nat → Sector G.sectorShift} (hG : G.Valid)
    (hring : Ring G d (S + 1)) (hvalid : (slotHead G d (S % G.slotCnt)).status ≠ statusUninit) :
    (slotHead G d (S % G.slotCnt)).serialNum = S := by
  have hN := slotCnt_ge hG
  have hat := hring (S % G.slotCnt) (Nat.mod_lt S (by omega))
  rw [slotSerial_of_ok hvalid, ringAt_newest] at hat
  exact Option.some.inj hat

theorem mountTrans_completed (hG : G.Valid) {S : Nat} {img : Nat → Sector G.sectorShift}
    (h : Completed G S img) (hS : S + 1 < 2 ^ 64) (sectorBuf : Bytes) (areaReserved : Nat × Nat) :
    ∃ st, mountTrans G sectorBuf areaReserved img = some (.errNone, st) ∧
      st.dev = .boot G.secCnt img ∧ LogState G st ∧ st.serialNum = S + 1 := by
  obtain ⟨st', hprobed, hcheck⟩ := tspFsCheckTrans_newest hG
    (mountVol G sectorBuf areaReserved img) rfl h.ring
  have hcur : (mountVol G sectorBuf areaReserved img).dev.med.cur = img := rfl
  rw [hcur, applyNewest_complete h.status] at hcheck
  have hdev : st'.dev = .boot G.secCnt img := hprobed.dev
  have hser := h.ring.newest_serial hG (by rw [h.status]; decide)
  have hpage := probe_pageOk hG (S % G.slotCnt) st'
  rw [hdev] at hpage
  generalize hst : atSlot G (slotHead G img (S % G.slotCnt)) (S % G.slotCnt)
    (probe G (S % G.slotCnt) st') = st1 at hcheck
  have hdev1 : st1.dev = .boot G.secCnt img := by rw [← hst]; exact hdev
  have htrans1 : st1.trans = uninitHead G.generation := by
    rw [← hst]
    simp only [atSlot, probe]
    rw [hprobed]
    rfl
  have hser1 : st1.serialNum = S := by rw [← hst]; exact hser
  obtain ⟨h1, h2, h3⟩ := nextSlot_spec st1 (d := img) hG h.ring (by rw [← hst]; rfl)
    (by rw [← hst]; rfl) (by rw [← hst]; exact hpage)
  have hdev2 : (nextSlot G st1).dev = .boot G.secCnt img := by
    rw [← hdev1, nextSlot]
    split <;> rfl
  have htrans2 : (nextSlot G st1).trans = uninitHead G.generation := by
    rw [← htrans1, nextSlot]
    split <;> rfl
  have hser2 : u64 ((nextSlot G st1).serialNum + 1) = S + 1 := by
    have hkeep : (nextSlot G st1).serialNum = S := by
      rw [← hser1, nextSlot]
      split <;> rfl
    rw [hkeep, u64_of_lt hS]
  have hdata := nextDataSec_spec hG (x := (slotHead G img (S % G.slotCnt)).dataSecNum +
    (slotHead G img (S % G.slotCnt)).dataSecCnt) (h.dataLo.trans (Nat.le_add_right _ _))
  refine ⟨_, (mountTrans_eq hG _ _ _).trans hcheck, hdev2, ?_, hser2⟩
  refine ⟨?_, ?_, ?_, ?_, ?_, ?_, ?_, ?_, hdata.1, hdata.2, ?_, hser2 ▸ hS⟩
  · simp only [hdev2]
    rfl
  · intro s
    simp only [hdev2]
    exact List.mem_singleton.mpr rfl
  · intro s _ _
    simp only [hdev2]
    rfl
  · simp only [hser2]
    exact h1
  · simp only [hser2]
    exact h2
  · simp only [hser2, hdev2]
    exact h3
  · simp only [hser2, hdev2]
    exact h.ring
  · intro S' hS'
    simp only [hser2, Nat.add_right_cancel_iff] at hS'
    simp only [hdev2, ← hS']
    exact h
  · simp only [htrans2]
    exact uninitHead_headOk hG

def Clear (G : Geom) (img : Nat → Sector G.sectorShift) : Prop :=
  (∀ i < G.slotCnt, slotSerial G img i = none) →
    ∀ i, G.slotCnt ≤ i → i < 16 → ¬ SlotOk G (.boot G.secCnt img) i

theorem mountTrans_empty (hG : G.Valid) {img : Nat → Sector G.sectorShift} (hring : Ring G img 0)
    (hclear : Clear G img) (sectorBuf : Bytes) (areaReserved : Nat × Nat) :
    ∃ st, mountTrans G sectorBuf areaReserved img = some (.errNone, st) ∧
      st.dev = .boot G.secCnt img ∧ LogState G st ∧ st.serialNum = 0 := by
  have hN := slotCnt_ge hG
  have hempty : ∀ i < 16, ¬ SlotOk G (mountVol G sectorBuf areaReserved img).dev i := by
    intro i hi hok
    rcases Nat.lt_or_ge i G.slotCnt with hlt | hge
    · have hnone := hring i hlt
      rw [slotOk_iff hG rfl hlt] at hok
      have hcur : slotSerial G (mountVol G sectorBuf areaReserved img).dev.med.cur i = none := hnone
      rw [hcur] at hok
      cases hok
    · exact hclear (fun j hj => hring j hj) i hge hi hok
  obtain ⟨st', hprobed, hcheck⟩ := tspFsCheckTrans_empty hG hempty rfl
  have hdev : st'.dev = .boot G.secCnt img := hprobed.dev
  have hpage := probe_pageOk hG 0 st'
  rw [hdev] at hpage
  have hser : (probe G 0 st').serialNum = 0 := by
    simp only [probe]
    rw [hprobed]
    rfl
  have hmod : 0 % G.slotCnt = 0 := Nat.zero_mod _
  have hrev := hG.rev_lt_dataCnt
  have hdataCur : (probe G 0 st').dataCurSec = G.transDataStart := by
    simp only [probe]
    rw [hprobed]
    rfl
  refine ⟨_, (mountTrans_eq hG _ _ _).trans hcheck, hdev, ?_, hser⟩
  refine ⟨?_, ?_, ?_, ?_, ?_, ?_, ?_, ?_, ?_, ?_, ?_, by omega⟩
  · simp only [probe, hdev]
    rfl
  · intro s
    simp only [probe, hdev]
    exact List.mem_singleton.mpr rfl
  · intro s _ _
    simp only [probe, hdev]
    rfl
  · rw [hser, hmod]
    rfl
  · rw [hser, hmod]
    rfl
  · rw [hser, hmod]
    simp only [probe, hdev] at hpage ⊢
    exact hpage.bufOk_empty hG hring
  · rw [hser]
    simp only [probe, hdev]
    exact hring
  · intro S hS
    omega
  · rw [hdataCur]
  · rw [hdataCur, Geom.logEnd]
    omega
  · simp only [probe]
    rw [hprobed]
    exact uninitHead_headOk hG

theorem mountTrans_pending (hG : G.Valid) {hi n sec cnt : Nat} {areas : List SecArea}
    {v img : Nat → Sector G.sectorShift} (hhi : hi ≤ G.secCnt) (h : Pending G hi n sec cnt areas v img)
    (sectorBuf : Bytes) (areaReserved : Nat × Nat) :
    ∃ st iosL iosC bufL bufC, Ready G v st ∧ Armed G n st ∧
      CommitRun G v st iosL iosC bufL bufC ∧ st.dev = .boot G.secCnt img ∧ st.areas = areas ∧
      st.trans.dataSecNum = sec ∧ st.trans.dataSecCnt = cnt ∧
      mountTrans G sectorBuf areaReserved img =
        some (.errNone, CommitRun.final G st iosL iosC bufL bufC) := by
  have hdev64 := secCnt_lt hG
  have hend := Geom.logEnd_le hG.laid
  have hdata := h.dataHi
  have hlist := h.listHi
  have hsmall := h.small
  have hlists : 0 < listSecs G areas.length := by
    rw [lt_listSecs_iff hG, Nat.zero_mul]
    exact List.length_pos_iff.mpr h.ne
  obtain ⟨st', hprobed, hcheck⟩ := tspFsCheckTrans_newest hG
    (mountVol G sectorBuf areaReserved img) rfl h.ring
  have hcur : (mountVol G sectorBuf areaReserved img).dev.med.cur = img := rfl
  have hser := h.ring.newest_serial hG (by rw [h.status]; decide)
  have hpage := probe_pageOk hG (n % G.slotCnt) st'
  have hdev : st'.dev = .boot G.secCnt img := hprobed.dev
  have hnum := h.dataSecNum
  have hcnt := h.dataSecCnt
  have hstatus := h.status
  have hhead := h.head
  rw [hdev] at hpage
  rw [hcur] at hcheck
  generalize slotHead G img (n % G.slotCnt) = t at hcheck hser hnum hcnt hstatus hhead
  obtain ⟨buf, reserved, hload⟩ := tpsFsLoadTransData_spec hG areas cnt
    (by omega) (listSecs G areas.length - 1) t.dataSecCnt
    (fun j => (atSlot G t (n % G.slotCnt) (probe G (n % G.slotCnt) st')).areas.getD j
      { secStart := 0, secOff := 0, secCnt := 0 })
    { atSlot G t (n % G.slotCnt) (probe G (n % G.slotCnt) st') with trans := t }
    (by omega) (by omega) (by simp only; omega)
    (by simp only [atSlot, probe, hdev, Dev.boot]; omega)
    (by simp only [atSlot, probe, hdev, Dev.boot]; omega)
    (by
      intro i hi
      simp only [atSlot, probe, hdev, Dev.boot, Medium.boot, hnum]
      rw [← Nat.add_assoc]
      exact h.lists i (by omega))
    (by
      intro j hj hle
      have hiff := lt_listSecs_iff hG (listSecs G areas.length) areas.length
      rw [Nat.sub_add_cancel hlists] at hle
      omega)
  rw [applyNewest_commit hstatus _ hload] at hcheck
  generalize hst : ({ atSlot G t (n % G.slotCnt) (probe G (n % G.slotCnt) st') with
    trans := { t with dataSecCnt := cnt }, sectorBuf := buf, areaReserved := reserved
    areas := areas } : Vol G.sectorShift) = st at hcheck
  have hdev1 : st.dev = .boot G.secCnt img := by rw [← hst]; exact hdev
  have hareas1 : st.areas = areas := by rw [← hst]
  have hnum1 : st.trans.dataSecNum = sec := by rw [← hst]; exact hnum
  have hcnt1 : st.trans.dataSecCnt = cnt := by rw [← hst]
  have hslot1 : st.transCurSec = slotSec G (n % G.slotCnt) := by rw [← hst]; rfl
  have hready : Ready G v st := by
    refine ⟨by rw [hdev1]; rfl, ?_, ?_, ?_, ?_, ?_, ?_, ?_, ?_, ?_⟩
    · rw [hnum1]
      exact h.dataLo
    · rw [hnum1, hcnt1]
      omega
    · rw [hnum1, hcnt1, hareas1]
      omega
    · rw [hcnt1, hareas1]
      exact hsmall
    · rw [hcnt1, hareas1]
      exact h.ok
    · rw [hareas1]
      exact h.areaCnt
    · rw [hslot1]
      exact slotSec_ge _
    · rw [hslot1]
      exact slotSec_mod_lt hG n
    · rw [hnum1, hareas1, hdev1]
      exact h.holds
  have harm : Armed G n st := by
    refine ⟨hslot1, by rw [← hst]; rfl, ?_, ?_, ?_, ?_, ?_, ?_, ?_⟩
    · rw [hdev1, ← hst]
      exact hpage.bufOk hG h.ring
    · rw [hdev1]
      exact Or.inr h.ring
    · intro s _ _
      rw [hdev1]
      rfl
    · intro s
      rw [hdev1]
      exact List.mem_singleton.mpr rfl
    · rw [← hst]
      exact ⟨hhead.magic, hhead.generation, hhead.reserved, hhead.serialNum, hhead.type,
        hhead.status, hhead.reserved64, hhead.time, hhead.dataSecNum, by simp only; omega⟩
    · rw [← hst]
      exact hser
    · rw [← hst]
      exact hser
  obtain ⟨iosL, iosC, bufL, bufC, hrun⟩ := hready.commitRun hG (by rw [hareas1]; exact h.ne)
  refine ⟨st, iosL, iosC, bufL, bufC, hready, harm, hrun, hdev1, hareas1, hnum1, hcnt1, ?_⟩
  rw [mountTrans_eq hG, hcheck, hrun.eq]
  rfl

structure Settled (G : Geom) (m : Nat) (img : Nat → Sector G.sectorShift) : Prop where
  ring : Ring G img m
  clear : m = 0 → Clear G img
  complete : ∀ S, m = S + 1 → Completed G S img

theorem mountTrans_settled (hG : G.Valid) {m : Nat} {img : Nat → Sector G.sectorShift}
    (h : Settled G m img) (hm : m < 2 ^ 64) (sectorBuf : Bytes) (areaReserved : Nat × Nat) :
    ∃ st, mountTrans G sectorBuf areaReserved img = some (.errNone, st) ∧
      st.dev = .boot G.secCnt img ∧ LogState G st ∧ st.serialNum = m := by
  cases m with
  | zero => exact mountTrans_empty hG h.ring (h.clear rfl) sectorBuf areaReserved
  | succ S => exact mountTrans_completed hG (h.complete S rfl) hm sectorBuf areaReserved

inductive Resolves (G : Geom) (hi m : Nat) (d img : Nat → Sector G.sectorShift) : Prop where
  | settled (hlog : Settled G m img) (hout : ∀ s, OutsideLog G hi s → img s = d s) : Resolves G hi m d img
  | pending {n sec cnt : Nat} {areas : List SecArea} {v : Nat → Sector G.sectorShift}
      (hm : m = n + 1) (hlog : Pending G hi n sec cnt areas v img)
      (hcov : ∀ s, OutsideLog G hi s → Covered areas s → v s = d s)
      (hout : ∀ s, OutsideLog G hi s → ¬ Covered areas s → img s = d s) : Resolves G hi m d img

theorem slotHead_eq_of_heads {d d' : Nat → Sector G.sectorShift}
    (h : ∀ s, G.transSecStart ≤ s → s < G.transDataStart → d' s = d s) {i : Nat}
    (hi : i < G.slotCnt) : slotHead G d' i = slotHead G d i := by
  rw [slotHead, slotHead, h _ (slotSec_ge i) (slotSec_lt hi)]

theorem Ring.of_heads {d d' : Nat → Sector G.sectorShift} {n : Nat} (hring : Ring G d n)
    (h : ∀ s, G.transSecStart ≤ s → s < G.transDataStart → d' s = d s) : Ring G d' n := by
  intro i hi
  rw [← hring i hi, slotSerial, slotSerial, slotHead_eq_of_heads h hi]

theorem Completed.of_heads {d d' : Nat → Sector G.sectorShift} {n : Nat} (hG : G.Valid)
    (hc : Completed G n d)
    (h : ∀ s, G.transSecStart ≤ s → s < G.transDataStart → d' s = d s) : Completed G n d' := by
  have hN := slotCnt_ge hG
  have heq := slotHead_eq_of_heads h (Nat.mod_lt n (by omega))
  exact ⟨hc.ring.of_heads h, by rw [heq]; exact hc.status, by rw [heq]; exact hc.dataLo⟩

theorem Completed.settled {img : Nat → Sector G.sectorShift} {n : Nat} (h : Completed G n img) :
    Settled G (n + 1) img := by
  refine ⟨h.ring, fun hc => by omega, ?_⟩
  intro S hS
  have heq : S = n := by omega
  rw [heq]
  exact h

theorem final_outside {v : Nat → Sector G.sectorShift} {st : Vol G.sectorShift}
    {iosL iosC : List (Io G.sectorShift)} {bufL bufC : Bytes} {hi : Nat} (hG : G.Valid)
    (hready : Ready G v st) (hrun : CommitRun G v st iosL iosC bufL bufC)
    (hfits : st.trans.dataSecNum + st.trans.dataSecCnt + listSecs G st.areas.length ≤ hi)
    {s : Nat} (hs : OutsideLog G hi s) :
    (Covered st.areas s →
      (CommitRun.final G st iosL iosC bufL bufC).dev.med.cur s = v s ∧
        (CommitRun.final G st iosL iosC bufL bufC).dev.med.may s = [v s]) ∧
      (¬ Covered st.areas s →
        (CommitRun.final G st iosL iosC bufL bufC).dev.med.cur s = st.dev.med.cur s ∧
          (CommitRun.final G st iosL iosC bufL bufC).dev.med.may s = st.dev.med.may s) := by
  have hstart := Geom.transSecStart_lt_dataStart hG.laid
  have hlo := hready.dataLo
  have hslotLo := hready.slotLo
  have hslotHi := hready.slotHi
  have hdata := G.dataStart_le_logEnd
  rw [OutsideLog] at hs
  have hne : s ≠ st.transCurSec := by omega
  have hH := headIos_not_touches statusCommit (beforeCommit G st iosL bufL) hne
  have hH' := headIos_not_touches statusComplete
    (beforeComplete G st iosL iosC bufL bufC) hne
  rw [final_dev, Dev.issue_med, Medium.run_append, Medium.run_append, Medium.run_append,
    Medium.run_may_of_not_touches _ hH', Medium.run_cur_of_not_touches _ hH']
  refine ⟨fun hcov => hrun.done s hcov, ?_⟩
  intro hcov
  have hC : ∀ io ∈ iosC, ¬ io.touches s := fun io hio ht => hcov ((hrun.copyIos io hio).2 s ht)
  have hL := run_logIos_outside hrun (s := s) (by omega)
  rw [Medium.run_may_of_not_touches _ hC, Medium.run_cur_of_not_touches _ hC,
    Medium.run_may_of_not_touches _ hH, Medium.run_cur_of_not_touches _ hH]
  exact ⟨hL.2, hL.1⟩

theorem boot_cut {secCnt k : Nat} {img img' : Nat → Sector k}
    (h : (Dev.boot secCnt img).CutBefore (.boot secCnt img) img') : img' = img := by
  have hcut : (Dev.boot secCnt img).med.Cut [] img' := by
    rw [← Dev.cutBefore_issue, Dev.issue_nil]
    exact h
  funext s
  exact List.mem_singleton.mp (hcut.mem_may (s := s) (by simp))

theorem Early.pending {hi n : Nat} {v img img' : Nat → Sector G.sectorShift} {st : Vol G.sectorShift}
    (hG : G.Valid) (hdev : st.dev = .boot G.secCnt img)
    (h : Pending G hi n st.trans.dataSecNum st.trans.dataSecCnt st.areas v img)
    (hearly : Early G st img') :
    Pending G hi n st.trans.dataSecNum st.trans.dataSecCnt st.areas v img' := by
  have hN := slotCnt_ge hG
  have hlo := h.dataLo
  have hsame : ∀ s, s < st.trans.dataSecNum + st.trans.dataSecCnt → img' s = img s := by
    intro s hs
    have hmem := hearly.other s (Or.inl hs)
    rw [hdev] at hmem
    exact List.mem_singleton.mp hmem
  have hheads : ∀ s, G.transSecStart ≤ s → s < G.transDataStart → img' s = img s :=
    fun s _ hs => hsame s (by omega)
  have heq := slotHead_eq_of_heads hheads (Nat.mod_lt n (by omega))
  refine ⟨h.ring.of_heads hheads, ?_, ?_, ?_, ?_, hlo, h.dataHi, h.listHi, h.small, h.ok, h.areaCnt, h.ne,
    ?_, ?_⟩
  · rw [heq]
    exact h.head
  · rw [heq]
    exact h.status
  · rw [heq]
    exact h.dataSecNum
  · rw [heq]
    exact h.dataSecCnt
  · intro i hi
    rcases hearly.lists i hi with hmem | hlist
    · rw [hdev] at hmem
      rw [List.mem_singleton.mp hmem]
      exact h.lists i hi
    · exact hlist
  · intro a ha i hi
    have hoff := h.ok.off a ha
    rw [hsame _ (by omega)]
    exact h.holds a ha i hi

theorem Resolves.mount (hG : G.Valid) {hi m : Nat} {d img : Nat → Sector G.sectorShift}
    (h : Resolves G hi m d img) (hhi : hi ≤ G.secCnt) (hm : m < 2 ^ 64) (sectorBuf : Bytes) (areaReserved : Nat × Nat) :
    ∃ st, mountTrans G sectorBuf areaReserved img = some (.errNone, st) ∧ LogState G st ∧
      st.serialNum = m ∧
      (∀ s, OutsideLog G hi s → st.dev.med.cur s = d s ∧ st.dev.med.may s = [d s]) ∧
      ∀ img', (Dev.boot G.secCnt img).CutBefore st.dev img' → Resolves G hi m d img' := by
  cases h with
  | settled hlog hout =>
    obtain ⟨st, hmount, hdev, hstate, hser⟩ := mountTrans_settled hG hlog hm sectorBuf areaReserved
    refine ⟨st, hmount, hstate, hser, ?_, ?_⟩
    · intro s hs
      rw [hdev, ← hout s hs]
      exact ⟨rfl, rfl⟩
    · intro img' hcut
      rw [hdev] at hcut
      rw [boot_cut hcut]
      exact .settled hlog hout
  | @pending n sec cnt areas v hmn hlog hcov hout =>
    subst hmn
    obtain ⟨st, iosL, iosC, bufL, bufC, hready, harm, hrun, hdev, hareas, hnum, hcnt, hmount⟩ :=
      mountTrans_pending hG hhi hlog sectorBuf areaReserved
    subst hareas hnum hcnt
    obtain ⟨hstate, hser⟩ := final_logState hG hready harm hrun hm
    refine ⟨_, hmount, hstate, hser, ?_, ?_⟩
    · intro s hs
      obtain ⟨h1, h2⟩ := final_outside hG hready hrun hlog.listHi hs
      by_cases hc : Covered st.areas s
      · rw [← hcov s hs hc]
        exact h1 hc
      · have himg := hout s hs hc
        obtain ⟨h3, h4⟩ := h2 hc
        rw [h3, h4, hdev, ← himg]
        exact ⟨rfl, rfl⟩
    · intro img' hcut
      rw [← hdev] at hcut
      have hboot : ∀ s, img' s ∈ st.dev.med.may s → img' s = img s := by
        intro s hmem
        rw [hdev] at hmem
        exact List.mem_singleton.mp hmem
      rcases commit_cut hG hready harm hrun hlog.ne hlog.listHi hcut with
        hearly | ⟨hpend, hpart⟩ | ⟨hcomp, hall⟩
      · refine .pending rfl (hearly.pending hG hdev hlog) hcov ?_
        intro s hs hc
        rw [← hout s hs hc]
        refine hboot s (hearly.other s ?_)
        have hlist := hlog.listHi
        have hlo := hlog.dataLo
        have hstart := Geom.transSecStart_lt_dataStart hG.laid
        rw [OutsideLog] at hs
        omega
      · refine .pending rfl hpend hcov ?_
        intro s hs hc
        rw [← hout s hs hc]
        rcases hpart s hs with hmay | ⟨hc', -⟩
        · exact hboot s hmay
        · exact absurd hc' hc
      · refine .settled hcomp.settled ?_
        intro s hs
        by_cases hc : Covered st.areas s
        · rw [← hcov s hs hc]
          exact (hall s hs).1 hc
        · rw [← hout s hs hc]
          exact hboot s ((hall s hs).2 hc)

end SylixOS.TpsTrans
