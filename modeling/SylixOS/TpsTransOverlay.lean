import SylixOS.TpsTransCommit

/-! What the users of one transaction see: disjoint areas, reads of the overlaid disk, and
after commit the overlay on the disk outside the log. The overflow check of
`__tpsFsTransPutData` leaves out the sectors of the area list, so commit keeps to the log
exactly when data and list together fit. -/

namespace SylixOS.TpsTrans
open SylixOS.ByteBuffer SylixOS.SectorDevice

variable {G : Geom}

def Vol.onDisk {k : Nat} (st : Vol k) (d : Nat → Sector k) : Vol k :=
  { st with dev := { st.dev with med := .boot d } }

structure TransView (G : Geom) (ws : List TransWrite) (adj : Option (List TransWrite))
    (st : Vol G.sectorShift) : Prop where
  disjoint : (transWrites G ws st).2.areas.Pairwise SecArea.Disjoint
  read : ∀ blk off len buff, G.addr blk off + len ≤ G.homeLen →
    ∃ out st', tpsFsTransRead G blk off buff len (transWrites G ws st).2 = (.errNone, out, st') ∧
      ∀ i < len, out i = overlay G ws (flatten st.dev.med.cur) (G.addr blk off + i)
  commit : ∃ st', tpsFsTransCommitAndFree G adj (transWrites G ws st).2 = (.errNone, st') ∧
    ∀ s < G.secCnt, s < G.transSecStart ∨ G.logEnd ≤ s →
      st'.dev.med.cur s = sectorOf (overlay G (ws ++ adj.getD []) (flatten st.dev.med.cur)) s

def LogFits (G : Geom) (dataSecNum : Nat) (ws : List TransWrite) : Prop :=
  dataSecNum + loggedSecs G ws + listSecs G (recordedAreas G ws).length ≤ G.logEnd

theorem flatten_home (d : Nat → Sector G.sectorShift) {p : Nat} (hp : p < G.homeLen) :
    flatten (home G d) p = flatten d p := by
  have hdiv : p / 2 ^ G.sectorShift < G.transSecStart :=
    (Nat.div_lt_iff_lt_mul (Nat.two_pow_pos _)).mpr hp
  simp only [flatten, home, if_pos hdiv]

structure Written (G : Geom) (ws : List TransWrite) (st st' : Vol G.sectorShift) : Prop where
  opened : Open G st.dev.med.cur st'
  keeps : Keeps G st st'
  areas : st'.areas = recordedAreas G ws
  cnt : st'.trans.dataSecCnt = loggedSecs G ws
  bytes : ∀ p < G.homeLen, flatten (view G st') p = overlay G ws (flatten st.dev.med.cur) p

theorem written_of_ok (hG : G.Valid) {st0 st st' : Vol G.sectorShift} {time : Nat}
    (hlog : LogOk G st0) (hopen : (tpsFsTransAllocAndInit time st0).1 = some st)
    {ws : List TransWrite} (hin : ∀ w ∈ ws, w.Inside G) (hsmall : loggedSecs G ws < 2 ^ 32)
    (hok : transWrites G ws st = (.errNone, st')) : Written G ws st st' := by
  have hop := hlog.opens hopen
  have hst := tpsFsTransAllocAndInit_some hopen
  have hcur : st.dev.med.cur = st0.dev.med.cur := by rw [hst]
  have hareas : st.areas = [] := by rw [hst]
  have hcnt : st.trans.dataSecCnt = 0 := by rw [hst]
  rw [← hcur] at hop
  have hw := (transWrites_spec hG hop hin (by omega)).2 st' hok
  refine ⟨hw.opened, hw.keeps, ?_, ?_, ?_⟩
  · have hfoot := congrArg Prod.fst hw.foot
    rw [hareas, hcnt] at hfoot
    exact hfoot
  · rw [hw.cnt, hcnt, Nat.zero_add, loggedSecs]
  · intro p hp
    rw [hw.bytes]
    refine overlay_congr ?_
    have hview : view G st = home G st.dev.med.cur := by
      funext s
      simp only [view, home, hareas]
      rfl
    rw [hview, flatten_home _ hp]

theorem Written.commit (hG : G.Valid) {ws : List TransWrite} {st st' : Vol G.sectorShift}
    (h : Written G ws st st') (hin : ∀ w ∈ ws, w.Inside G)
    (hslotLo : G.transSecStart ≤ st.transCurSec) (hslotHi : st.transCurSec < G.transDataStart)
    (hsmall : loggedSecs G ws + listSecs G (recordedAreas G ws).length ≤ 2 ^ 31)
    (hfits : LogFits G st.trans.dataSecNum ws) :
    ∃ st'', commitAreas G st' = (.errNone, st'') ∧
      ∀ s, s < G.transSecStart ∨ G.logEnd ≤ s →
        st''.dev.med.cur s = sectorOf (overlay G ws (flatten st.dev.med.cur)) s := by
  have hstart := Geom.transSecStart_lt_dataStart hG.laid
  have hend := G.dataStart_le_logEnd
  have hdev := Geom.logEnd_le hG.laid
  have hD := h.keeps.dataSecNum
  have hlo := h.opened.dataLo
  rw [LogFits] at hfits
  -- the contents aimed at, before and behind the log
  have hview : ∀ s < G.transSecStart,
      view G st' s = sectorOf (overlay G ws (flatten st.dev.med.cur)) s :=
    fun s hs => view_eq_of_bytes h.bytes hs
  have hbehind : ∀ s, G.logEnd ≤ s →
      st'.dev.med.cur s = sectorOf (overlay G ws (flatten st.dev.med.cur)) s := by
    intro s hs
    rw [h.opened.cur s (Or.inr hs), ← sectorOf_flatten st.dev.med.cur s]
    refine sectorOf_congr ?_
    intro j _
    refine (overlay_outside hin _ ?_).symm
    have hmul : G.transSecStart * 2 ^ G.sectorShift ≤ s * 2 ^ G.sectorShift :=
      Nat.mul_le_mul_right _ (by omega)
    rw [Geom.homeLen, Geom.sectorSize]
    omega
  by_cases hne : st'.areas = []
  · refine ⟨setStatus statusComplete st', by rw [commitAreas, if_pos (by simp [hne])], ?_⟩
    intro s hs
    rcases hs with hs | hs
    · have hcov : ¬ Covered st'.areas s := by
        rintro ⟨a, ha, -⟩
        simp [hne] at ha
      exact (cur_eq_view hs hcov).trans (hview s hs)
    · exact hbehind s hs
  · have hready : Ready G (view G st') st' := by
      refine h.opened.ready hG (by rw [h.keeps.transCurSec]; exact hslotLo)
        (by rw [h.keeps.transCurSec]; exact hslotHi) ?_ ?_
      · rw [h.cnt, h.areas, hD]
        omega
      · rw [h.cnt, h.areas]
        exact hsmall
    obtain ⟨iosL, iosC, bufL, bufC, hrun⟩ := hready.commitRun hG hne
    refine ⟨_, hrun.eq, ?_⟩
    intro s hs
    have hfinal := hrun.final_cur hG hready (s := s) (by rw [h.cnt, h.areas, hD]; omega)
    by_cases hcov : Covered st'.areas s
    · rcases hs with hs | hs
      · exact (hfinal.1 hcov).trans (hview s hs)
      · obtain ⟨a, ha, -, hhi⟩ := hcov
        have hbefore := h.opened.areas.before a ha
        omega
    · refine (hfinal.2 hcov).trans ?_
      rcases hs with hs | hs
      · exact (cur_eq_view hs hcov).trans (hview s hs)
      · exact hbehind s hs

theorem commit_eq_commitAreas {ws : List TransWrite} {adj : Option (List TransWrite)}
    {st st' : Vol G.sectorShift} (hok : transWrites G (ws ++ adj.getD []) st = (.errNone, st')) :
    ∃ st1, transWrites G ws st = (.errNone, st1) ∧
      tpsFsTransCommitAndFree G adj st1 = commitAreas G st' := by
  rw [transWrites_append, andThen_eq_ok] at hok
  obtain ⟨st1, h1, h2⟩ := hok
  refine ⟨st1, h1, ?_⟩
  cases adj with
  | none =>
    simp only [Option.getD_none, transWrites, Prod.mk.injEq, true_and] at h2
    rw [tpsFsTransCommitAndFree, h2]
  | some ws' =>
    rw [Option.getD_some] at h2
    rw [tpsFsTransCommitAndFree, h2]

theorem loggedSecs_append (ws ws' : List TransWrite) :
    loggedSecs G (ws ++ ws') = loggedSecs G ws + loggedSecs G ws' := by
  simp [loggedSecs, runsLen]

theorem transView_of_fits (hG : G.Valid) {st0 st : Vol G.sectorShift} {time : Nat}
    (hlog : LogOk G st0) (hopen : (tpsFsTransAllocAndInit time st0).1 = some st)
    {ws : List TransWrite} {adj : Option (List TransWrite)}
    (hin : ∀ w ∈ ws ++ adj.getD [], w.Inside G)
    (hok : (transWrites G (ws ++ adj.getD []) st).1 = .errNone)
    (hsmall : loggedSecs G (ws ++ adj.getD []) +
      listSecs G (recordedAreas G (ws ++ adj.getD [])).length ≤ 2 ^ 31)
    (hfits : LogFits G st0.dataCurSec (ws ++ adj.getD [])) : TransView G ws adj st := by
  have hst := tpsFsTransAllocAndInit_some hopen
  cases hall : transWrites G (ws ++ adj.getD []) st with
  | mk e st2 =>
    rw [hall] at hok
    simp only at hok
    subst hok
    obtain ⟨st1, hws, hcommit⟩ := commit_eq_commitAreas hall
    have hlen := loggedSecs_append (G := G) ws (adj.getD [])
    have hw1 := written_of_ok hG hlog hopen
      (fun w hw => hin w (List.mem_append_left _ hw)) (by omega) hws
    have hw2 := written_of_ok hG hlog hopen hin (by omega) hall
    refine ⟨?_, ?_, ?_⟩
    · rw [hws]
      exact hw1.opened.areas.disjoint
    · intro blk off len buff hb
      obtain ⟨out, buf, hread, hbytes⟩ := tpsFsTransRead_spec hG hw1.opened hb buff
      rw [hws]
      refine ⟨out, _, hread, ?_⟩
      intro i hi
      rw [hbytes i hi, hw1.bytes _ (by omega)]
    · obtain ⟨st3, hc, hcur⟩ := hw2.commit hG hin (by rw [hst]; exact hlog.slotLo)
        (by rw [hst]; exact hlog.slotHi) hsmall (by rw [hst]; exact hfits)
      rw [hws, hcommit]
      exact ⟨st3, hc, fun s _ hs => hcur s hs⟩

theorem onDisk_opens {st0 st : Vol G.sectorShift} {time : Nat}
    (hopen : (tpsFsTransAllocAndInit time st0).1 = some st) (d : Nat → Sector G.sectorShift) :
    (tpsFsTransAllocAndInit time (st0.onDisk d)).1 = some (st.onDisk d) := by
  have hst := tpsFsTransAllocAndInit_some hopen
  rw [tpsFsTransAllocAndInit] at hopen ⊢
  by_cases hfault : st0.fault = true
  · rw [if_pos hfault] at hopen
    cases hopen
  · by_cases hstat : st0.trans.status ≠ statusComplete ∧ st0.trans.status ≠ statusUninit
    · rw [if_neg hfault, if_pos hstat] at hopen
      cases hopen
    · have hfault' : ¬ (st0.onDisk d).fault = true := hfault
      have hstat' : ¬ ((st0.onDisk d).trans.status ≠ statusComplete ∧
        (st0.onDisk d).trans.status ≠ statusUninit) := hstat
      rw [if_neg hfault', if_neg hstat', hst]
      rfl

theorem LogOk.onDisk {st : Vol G.sectorShift} (h : LogOk G st) (d : Nat → Sector G.sectorShift) :
    LogOk G (st.onDisk d) :=
  ⟨h.secCnt, h.slotLo, h.slotHi, h.dataLo, h.dataHi⟩

theorem onDisk_ok (hG : G.Valid) {st0 st : Vol G.sectorShift} {time : Nat} (hlog : LogOk G st0)
    (hopen : (tpsFsTransAllocAndInit time st0).1 = some st) {ws : List TransWrite}
    (hin : ∀ w ∈ ws, w.Inside G) (hsmall : loggedSecs G ws < 2 ^ 32)
    (hok : (transWrites G ws st).1 = .errNone) (d : Nat → Sector G.sectorShift) :
    (transWrites G ws (st.onDisk d)).1 = .errNone := by
  have hcnt : st.trans.dataSecCnt = 0 := by rw [tpsFsTransAllocAndInit_some hopen]
  have hop := hlog.opens hopen
  have hopd := (hlog.onDisk d).opens (onDisk_opens hopen d)
  rw [(transWrites_spec hG hop hin (by omega)).1] at hok
  exact (transWrites_spec hG hopd hin (by simp only [Vol.onDisk]; omega)).1.mpr hok

theorem commitAreas_room (hG : G.Valid) {st : Vol G.sectorShift}
    (hfit : ∀ a ∈ st.areas, a.Fits) (hlen : st.areas.length < 2 ^ 32)
    (hsmall : st.trans.dataSecCnt + listSecs G st.areas.length < 2 ^ 32)
    (hdev : st.trans.dataSecNum + st.trans.dataSecCnt ≤ st.dev.secCnt) (hne : st.areas ≠ [])
    (hok : (commitAreas G st).1 = .errNone) :
    st.trans.dataSecNum + st.trans.dataSecCnt + listSecs G st.areas.length ≤ st.dev.secCnt := by
  have hlist : (writeAreaList G st.areas.length 0 st).1 = .errNone := by
    rw [commitAreas, if_neg (by simpa using hne)] at hok
    generalize writeAreaList G st.areas.length 0 st = r at hok
    obtain ⟨e, st'⟩ := r
    cases e <;> first | rfl | cases hok
  have hroom := writeAreaList_room hG hfit hlen st.areas.length 0 st rfl (by omega)
    (Nat.zero_le _) (by omega) hdev (by rwa [Nat.zero_mul, Nat.min_zero])
  rwa [Nat.sub_zero] at hroom

def marked (G : Geom) (n : Nat) : Nat → Sector G.sectorShift := fun s j =>
  if s = G.logEnd ∧ j.val = 0 then UInt8.ofNat (n + 1) else 0

theorem marked_ne (hG : G.Valid) {n : Nat} {areas : List SecArea} {idx : Nat}
    (h : ListSector G areas idx (sectorByte (marked G n G.logEnd))) : areas.length ≠ n := by
  intro hn
  have hcnt := h.cnt
  have hfirst : (sectorByte (marked G n G.logEnd) 0).toNat = (n + 1) % 256 := by
    simp [sectorByte, marked]
  rw [getLE, hfirst, hn] at hcnt
  omega

theorem not_transView_of_not_fits (hG : G.Valid) {st0 st : Vol G.sectorShift} {time : Nat}
    (hlog : LogOk G st0) (hopen : (tpsFsTransAllocAndInit time st0).1 = some st)
    {ws : List TransWrite} {adj : Option (List TransWrite)}
    (hin : ∀ w ∈ ws ++ adj.getD [], w.Inside G)
    (hok : (transWrites G (ws ++ adj.getD []) st).1 = .errNone)
    (hsmall : loggedSecs G (ws ++ adj.getD []) +
      listSecs G (recordedAreas G (ws ++ adj.getD [])).length ≤ 2 ^ 31)
    (hfits : ¬ LogFits G st0.dataCurSec (ws ++ adj.getD [])) :
    ¬ TransView G ws adj
      (st.onDisk (marked G (recordedAreas G (ws ++ adj.getD [])).length)) := by
  intro hview
  generalize hd : marked G (recordedAreas G (ws ++ adj.getD [])).length = d at hview
  have hst := tpsFsTransAllocAndInit_some hopen
  have hokd := onDisk_ok hG hlog hopen hin (by omega) hok d
  cases hall : transWrites G (ws ++ adj.getD []) (st.onDisk d) with
  | mk e st2 =>
    rw [hall] at hokd
    simp only at hokd
    subst hokd
    have hw := written_of_ok hG (hlog.onDisk d) (onDisk_opens hopen d) hin (by omega) hall
    obtain ⟨st1, hws, hcommit⟩ := commit_eq_commitAreas hall
    obtain ⟨st3, hc, hcur⟩ := hview.commit
    rw [hws, hcommit] at hc
    have hD : st2.trans.dataSecNum = st0.dataCurSec := by
      rw [hw.keeps.dataSecNum]
      simp only [Vol.onDisk, hst]
    have hslot : st2.transCurSec = st0.transCurSec := by
      rw [hw.keeps.transCurSec]
      simp only [Vol.onDisk, hst]
    have hhi := hw.opened.dataHi
    have hlo := hw.opened.dataLo
    have hend := G.dataStart_le_logEnd
    have hdev := Geom.logEnd_le hG.laid
    have hsec := hw.opened.secCnt
    have hmax := transMaxArea_lt hG
    have hareaCnt := hw.opened.areaCnt
    have hcnt := hw.cnt
    have hareas := hw.areas
    rw [LogFits] at hfits
    have hne : st2.areas ≠ [] := by
      intro hnil
      have hzero : listSecs G (recordedAreas G (ws ++ adj.getD [])).length = 0 := by
        have hn := (areaPerSec_spec hG).1
        rw [← hareas, hnil, listSecs, List.length_nil]
        exact Nat.div_eq_of_lt (by omega)
      omega
    have hfitAll : ∀ a ∈ st2.areas, a.Fits := by
      intro a ha
      have h1 := hw.opened.areas.before a ha
      have h2 := hw.opened.areas.off a ha
      have h3 := Geom.transSecStart_lt_dataStart hG.laid
      have h4 := secCnt_lt hG
      exact ⟨by omega, by omega, by omega⟩
    rw [← hareas] at hsmall hfits
    have hroom := commitAreas_room hG hfitAll (by omega) (by omega) (by omega) hne (by rw [hc])
    have hready := hw.opened.ready hG (by rw [hslot]; exact hlog.slotLo)
      (by rw [hslot]; exact hlog.slotHi) (by omega) (by omega)
    obtain ⟨iosL, iosC, bufL, bufC, hrun⟩ := hready.commitRun hG hne
    -- the first sector behind the log holds a part of the list
    have heq := hrun.eq
    rw [hc] at heq
    simp only [Prod.mk.injEq, true_and] at heq
    have hlist := hrun.lists (G.logEnd - (st2.trans.dataSecNum + st2.trans.dataSecCnt))
      (by omega)
    rw [show st2.trans.dataSecNum + st2.trans.dataSecCnt +
        (G.logEnd - (st2.trans.dataSecNum + st2.trans.dataSecCnt)) = G.logEnd by omega,
      ← hrun.final_cur_data hG hready (by omega)] at hlist
    have hlast := hcur G.logEnd (by omega) (Or.inr le_rfl)
    rw [heq] at hlast
    rw [CommitRun.final, hlast] at hlist
    have hsame : (sectorOf (overlay G (ws ++ adj.getD [])
        (flatten (st.onDisk d).dev.med.cur)) G.logEnd : Sector G.sectorShift) = d G.logEnd := by
      rw [← sectorOf_flatten d G.logEnd]
      refine sectorOf_congr ?_
      intro j _
      refine overlay_outside hin _ ?_
      have hmul : G.transSecStart * 2 ^ G.sectorShift ≤ G.logEnd * 2 ^ G.sectorShift :=
        Nat.mul_le_mul_right _ (by have := Geom.transSecStart_lt_dataStart hG.laid; omega)
      rw [Geom.homeLen, Geom.sectorSize]
      omega
    rw [hsame, ← hd] at hlist
    exact marked_ne hG hlist (by rw [hareas])

/-- The view holds over every disk exactly when data and list fit into the log. -/
theorem transView_iff_logFits (hG : G.Valid) {st0 st : Vol G.sectorShift} {time : Nat}
    (hlog : LogOk G st0) (hopen : (tpsFsTransAllocAndInit time st0).1 = some st)
    {ws : List TransWrite} {adj : Option (List TransWrite)}
    (hin : ∀ w ∈ ws ++ adj.getD [], w.Inside G)
    (hok : (transWrites G (ws ++ adj.getD []) st).1 = .errNone)
    (hsmall : loggedSecs G (ws ++ adj.getD []) +
      listSecs G (recordedAreas G (ws ++ adj.getD [])).length ≤ 2 ^ 31) :
    (∀ d, TransView G ws adj (st.onDisk d)) ↔
      LogFits G st0.dataCurSec (ws ++ adj.getD []) := by
  constructor
  · intro h
    by_contra hfits
    exact not_transView_of_not_fits hG hlog hopen hin hok hsmall hfits (h _)
  · intro hfits d
    exact transView_of_fits hG (hlog.onDisk d) (onDisk_opens hopen d) hin
      (onDisk_ok hG hlog hopen hin (by omega) hok d) hsmall hfits

def smallGeom : Geom :=
  { sectorShift := 9, blkShift := 12, logStartBlk := 1935, logBlkCnt := 129
    generation := 1, secCnt := 16516 }

theorem smallGeom_valid : smallGeom.Valid := by
  refine ⟨?_, ?_, ?_, ?_, ?_, ?_, ?_, ?_, ?_, ?_⟩ <;> decide

def smallVol : Vol smallGeom.sectorShift :=
  { dev := .boot 16516 (fun _ _ => 0), sectorBuf := fun _ => 0, fault := false
    transCurSec := smallGeom.transSecStart, transSecOff := 0, secBuff := fun _ => 0
    dataCurSec := smallGeom.transDataStart, serialNum := 0
    trans := uninitHead 1, areas := [], areaReserved := (0, 0) }

theorem smallVol_logOk : LogOk smallGeom smallVol := by
  refine ⟨rfl, ?_, ?_, ?_, ?_⟩ <;> decide

def smallOpen : Vol smallGeom.sectorShift :=
  { smallVol with
    trans := { uninitHead 1 with dataSecNum := smallGeom.transDataStart, status := statusInit } }

theorem smallVol_opens : (tpsFsTransAllocAndInit 0 smallVol).1 = some smallOpen := by
  rw [tpsFsTransAllocAndInit, if_neg (by decide), if_neg (by decide)]
  rfl

def crossingWrite : TransWrite := { blk := 10, off := 500, buff := fun _ => 7, len := 20 }

theorem transView_iff_logFits_crossing :
    (∀ d, TransView smallGeom [crossingWrite] none (smallOpen.onDisk d)) ∧
      LogFits smallGeom smallVol.dataCurSec [crossingWrite] := by
  have hfits : LogFits smallGeom smallVol.dataCurSec [crossingWrite] := by
    unfold LogFits
    decide +kernel
  refine ⟨(transView_iff_logFits smallGeom_valid smallVol_logOk smallVol_opens ?_ ?_
    ?_).mpr hfits, hfits⟩
  · intro w hw
    rw [Option.getD_none, List.append_nil, List.mem_singleton] at hw
    subst hw
    unfold TransWrite.Inside
    decide +kernel
  · decide +kernel
  · decide +kernel

def fullWrite : TransWrite := { blk := 10, off := 0, buff := fun _ => 0, len := 1031 * 512 }

/-- The write passes every check and the commit succeeds, but the area list lands in the first
sector behind the log. -/
theorem list_written_behind_log :
    fullWrite.Inside smallGeom ∧
      (transWrites smallGeom [fullWrite] smallOpen).1 = .errNone ∧
      (tpsFsTransCommitAndFree smallGeom none
        (transWrites smallGeom [fullWrite] smallOpen).2).1 = .errNone ∧
      ¬ TransView smallGeom [fullWrite] none smallOpen := by
  refine ⟨by unfold TransWrite.Inside; decide +kernel, by decide +kernel, by decide +kernel, ?_⟩
  intro hview
  obtain ⟨st', hc, hcur⟩ := hview.commit
  have hlist : (tpsFsTransCommitAndFree smallGeom none
      (transWrites smallGeom [fullWrite] smallOpen).2).2.dev.med.cur 16512
        (0 : Fin 512) = 1 := by decide +kernel
  have hdisk : (sectorOf (overlay smallGeom ([fullWrite] ++ Option.getD none [])
      (flatten smallOpen.dev.med.cur)) 16512 : Sector smallGeom.sectorShift)
        (0 : Fin 512) = 0 := by decide +kernel
  rw [hc, hcur 16512 (by decide) (Or.inr (by decide))] at hlist
  exact absurd (hdisk.symm.trans hlist) (by decide)

end SylixOS.TpsTrans
