import SylixOS.TpsTransLoad

/-! Power loss during a commit. Up to the COMMIT header the disk still
holds the state before the transaction; from then on the log holds all of
it, until the COMPLETE header says that every area is in its place. -/

namespace SylixOS.TpsTrans
open SylixOS.ByteBuffer SylixOS.SectorDevice SylixOS.SerialRing

variable {G : Geom}

structure Armed (G : Geom) (n : Nat) (st : Vol G.sectorShift) : Prop where
  slot : st.transCurSec = slotSec G (n % G.slotCnt)
  off : st.transSecOff = slotOff G (n % G.slotCnt)
  buf : BufOk G st.dev.med.cur (n % G.slotCnt) st.secBuff
  ring : Ring G st.dev.med.cur n ∨ Ring G st.dev.med.cur (n + 1)
  durable : ∀ s, G.transSecStart ≤ s → s < G.transDataStart →
    st.dev.med.may s = [st.dev.med.cur s]
  cur_mem : ∀ s, st.dev.med.cur s ∈ st.dev.med.may s
  head : HeadOk G st.trans
  serial : st.trans.serialNum = n
  next : st.serialNum = n

structure Pending (G : Geom) (hi n sec cnt : Nat) (areas : List SecArea)
    (v img : Nat → Sector G.sectorShift) : Prop where
  ring : Ring G img (n + 1)
  head : HeadOk G (slotHead G img (n % G.slotCnt))
  status : (slotHead G img (n % G.slotCnt)).status = statusCommit
  dataSecNum : (slotHead G img (n % G.slotCnt)).dataSecNum = sec
  dataSecCnt : (slotHead G img (n % G.slotCnt)).dataSecCnt = cnt + listSecs G areas.length
  dataLo : G.transDataStart ≤ sec
  dataHi : sec + cnt ≤ G.logEnd
  listHi : sec + cnt + listSecs G areas.length ≤ hi
  small : cnt + listSecs G areas.length ≤ 2 ^ 31
  ok : AreasOk G cnt areas
  areaCnt : areas.length ≤ G.transMaxArea
  ne : areas ≠ []
  lists : ∀ i < listSecs G areas.length, ListSector G areas (i * areaPerSec G)
    (sectorByte (img (sec + cnt + i)))
  holds : LogHolds sec areas img v

structure Completed (G : Geom) (n : Nat) (img : Nat → Sector G.sectorShift) : Prop where
  ring : Ring G img (n + 1)
  status : (slotHead G img (n % G.slotCnt)).status = statusComplete
  dataLo : G.transDataStart ≤ (slotHead G img (n % G.slotCnt)).dataSecNum

def OutsideLog (G : Geom) (hi s : Nat) : Prop := s < G.transSecStart ∨ hi ≤ s

section Commit

variable {v : Nat → Sector G.sectorShift} {st : Vol G.sectorShift}
  {iosL iosC : List (Io G.sectorShift)} {bufL bufC : Bytes} {n hi : Nat}

def logIos (G : Geom) (st : Vol G.sectorShift) (iosL : List (Io G.sectorShift)) :
    List (Io G.sectorShift) :=
  iosL ++ [.sync st.trans.dataSecNum (st.trans.dataSecCnt + listSecs G st.areas.length)]

def beforeCommit (G : Geom) (st : Vol G.sectorShift) (iosL : List (Io G.sectorShift))
    (bufL : Bytes) : Vol G.sectorShift :=
  listed st iosL bufL (listSecs G st.areas.length)

def beforeComplete (G : Geom) (st : Vol G.sectorShift) (iosL iosC : List (Io G.sectorShift))
    (bufL bufC : Bytes) : Vol G.sectorShift :=
  copied (headState statusCommit (beforeCommit G st iosL bufL)) iosC bufC

theorem final_dev (st : Vol G.sectorShift) (iosL iosC : List (Io G.sectorShift))
    (bufL bufC : Bytes) : (CommitRun.final G st iosL iosC bufL bufC).dev =
      st.dev.issue (logIos G st iosL ++ headIos statusCommit (beforeCommit G st iosL bufL) ++
        iosC ++ headIos statusComplete (beforeComplete G st iosL iosC bufL bufC)) := by
  rw [CommitRun.final, finish_dev]
  simp only [headState, copied, listed, Dev.issue_issue, logIos, beforeComplete, beforeCommit]

theorem logIos_puts (hrun : CommitRun G v st iosL iosC bufL bufC) :
    ∀ io ∈ logIos G st iosL, io.Puts (fun s x => ∃ i < listSecs G st.areas.length,
      s = st.trans.dataSecNum + st.trans.dataSecCnt + i ∧
        ListSector G st.areas (i * areaPerSec G) (sectorByte x)) := by
  intro io hio
  rcases List.mem_append.mp hio with hio | hio
  · obtain ⟨i, hi, data, rfl, hlist⟩ := hrun.listIos io hio
    intro j hj
    have hzero : j = 0 := by omega
    subst hzero
    exact ⟨i, hi, rfl, hlist⟩
  · rw [List.mem_singleton] at hio
    subst hio
    trivial

theorem run_logIos_inside (hrun : CommitRun G v st iosL iosC bufL bufC) {s : Nat}
    (hlo : st.trans.dataSecNum ≤ s)
    (hhi : s < st.trans.dataSecNum + st.trans.dataSecCnt + listSecs G st.areas.length) :
    (st.dev.med.run (logIos G st iosL)).may s = [(st.dev.med.run (logIos G st iosL)).cur s] ∧
      (s < st.trans.dataSecNum + st.trans.dataSecCnt →
        (st.dev.med.run (logIos G st iosL)).cur s = st.dev.med.cur s) ∧
      ∀ i, s = st.trans.dataSecNum + st.trans.dataSecCnt + i →
        ListSector G st.areas (i * areaPerSec G)
          (sectorByte ((st.dev.med.run (logIos G st iosL)).cur s)) := by
  have hcur : (st.dev.med.run (logIos G st iosL)).cur s = (st.dev.med.run iosL).cur s := by
    rw [logIos, Medium.run_append]
    rfl
  refine ⟨?_, ?_, ?_⟩
  · rw [hcur, logIos, Medium.run_append]
    simp only [Medium.run, List.foldl_cons, List.foldl_nil, Medium.step]
    rw [if_pos ⟨hlo, by omega⟩]
  · intro hdata
    rw [hcur]
    refine Medium.run_cur_of_not_touches _ ?_
    intro io hio ht
    obtain ⟨i, hi, data, rfl, -⟩ := hrun.listIos io hio
    have h1 := ht.1
    omega
  · rintro i rfl
    rw [hcur]
    exact hrun.lists i (by omega)

theorem run_logIos_outside (hrun : CommitRun G v st iosL iosC bufL bufC) {s : Nat}
    (hs : s < st.trans.dataSecNum ∨
      st.trans.dataSecNum + st.trans.dataSecCnt + listSecs G st.areas.length ≤ s) :
    (st.dev.med.run (logIos G st iosL)).may s = st.dev.med.may s ∧
      (st.dev.med.run (logIos G st iosL)).cur s = st.dev.med.cur s := by
  have hno : ∀ io ∈ logIos G st iosL, ¬ io.touches s := by
    intro io hio ht
    rcases List.mem_append.mp hio with hio | hio
    · obtain ⟨i, hi, data, rfl, -⟩ := hrun.listIos io hio
      have h1 := ht.1
      have h2 := ht.2
      omega
    · rw [List.mem_singleton] at hio
      subst hio
      have h1 := ht.1
      have h2 := ht.2
      omega
  exact ⟨Medium.run_may_of_not_touches _ hno, Medium.run_cur_of_not_touches _ hno⟩

theorem Armed.headOk (hready : Ready G v st) (harm : Armed G n st) (status : Nat)
    (hstatus : status < 2 ^ 32) : HeadOk G { st.trans with
      dataSecCnt := st.trans.dataSecCnt + listSecs G st.areas.length, status := status } := by
  have hsmall := hready.small
  have h := harm.head
  exact ⟨h.magic, h.generation, h.reserved, h.serialNum, h.type, hstatus, h.reserved64, h.time,
    h.dataSecNum, by simp only; omega⟩

theorem commit_ne_uninit : statusCommit ≠ statusUninit := by decide

theorem complete_ne_uninit : statusComplete ≠ statusUninit := by decide

def SameHeads (G : Geom) (st : Vol G.sectorShift) (img : Nat → Sector G.sectorShift) : Prop :=
  ∀ s, G.transSecStart ≤ s → s < G.transDataStart → s ≠ st.transCurSec →
    img s = st.dev.med.cur s

theorem Armed.stored_commit (harm : Armed G n st) {img : Nat → Sector G.sectorShift}
    (hheads : SameHeads G st img)
    (hslot : img st.transCurSec =
      sectorOf (headBuf statusCommit (beforeCommit G st iosL bufL)) 0) :
    Stored G st.dev.med.cur img (n % G.slotCnt)
      (headOf statusCommit (beforeCommit G st iosL bufL)) st.secBuff := by
  refine ⟨?_, ?_⟩
  · rw [← harm.slot, hslot, ← harm.off]
    rfl
  · rw [← harm.slot]
    exact hheads

theorem pending_of (hG : G.Valid) (hready : Ready G v st) (harm : Armed G n st)
    (hrun : CommitRun G v st iosL iosC bufL bufC) (hne : st.areas ≠ [])
    (hfits : st.trans.dataSecNum + st.trans.dataSecCnt + listSecs G st.areas.length ≤ hi)
    {img : Nat → Sector G.sectorShift} (hheads : SameHeads G st img)
    (hslot : img st.transCurSec =
      sectorOf (headBuf statusCommit (beforeCommit G st iosL bufL)) 0)
    (hdata : ∀ s, st.trans.dataSecNum ≤ s →
      s < st.trans.dataSecNum + st.trans.dataSecCnt + listSecs G st.areas.length →
      img s = (st.dev.med.run (logIos G st iosL)).cur s) :
    Pending G hi n st.trans.dataSecNum st.trans.dataSecCnt st.areas v img := by
  have hok := harm.headOk hready statusCommit (by decide)
  have hstored := harm.stored_commit hheads hslot
  have hself : slotHead G img (n % G.slotCnt) = sealHead _ := hstored.slotHead_self hG hok
  refine ⟨hstored.ring hG hok commit_ne_uninit harm.serial harm.buf harm.ring, ?_, ?_, ?_, ?_,
    hready.dataLo, hready.dataHi, hfits, hready.small, hready.areas, hready.areaCnt, hne, ?_, ?_⟩
  · rw [hself]
    exact ⟨hok.magic, hok.generation, hok.reserved, hok.serialNum, hok.type, hok.status,
      hok.reserved64, hok.time, hok.dataSecNum, hok.dataSecCnt⟩
  · rw [hself]
    rfl
  · rw [hself]
    rfl
  · rw [hself]
    rfl
  · intro i hi
    rw [hdata _ (by omega) (by omega)]
    exact (run_logIos_inside hrun (by omega) (by omega)).2.2 i rfl
  · intro a ha i hi
    have hoff := hready.areas.off a ha
    rw [hdata _ (by omega) (by omega), (run_logIos_inside hrun (by omega) (by omega)).2.1 (by omega)]
    exact hready.holds a ha i hi

theorem completed_of (hG : G.Valid) (hready : Ready G v st) (harm : Armed G n st)
    {img : Nat → Sector G.sectorShift} (hheads : SameHeads G st img)
    (hslot : img st.transCurSec =
      sectorOf (headBuf statusComplete (beforeComplete G st iosL iosC bufL bufC)) 0) :
    Completed G n img ∧ PageOk G img (n % G.slotCnt)
      (headBuf statusComplete (beforeComplete G st iosL iosC bufL bufC)) := by
  have hok := harm.headOk hready statusCommit (by decide)
  have hok' := harm.headOk hready statusComplete (by decide)
  -- the disk between the two headers
  generalize hmid : (fun s => if s = st.transCurSec
    then sectorOf (headBuf statusCommit (beforeCommit G st iosL bufL)) 0
    else st.dev.med.cur s) = mid
  have hmidSlot : mid st.transCurSec =
      sectorOf (headBuf statusCommit (beforeCommit G st iosL bufL)) 0 := by
    rw [← hmid]
    exact if_pos rfl
  have hmidHeads : SameHeads G st mid := by
    intro s _ _ hne
    rw [← hmid]
    exact if_neg hne
  have hstored := harm.stored_commit hmidHeads hmidSlot
  have hring := hstored.ring hG hok commit_ne_uninit harm.serial harm.buf harm.ring
  have hpage := hstored.pageOk hG
  rw [← harm.off] at hpage
  have hstored' : Stored G mid img (n % G.slotCnt) (sealHead { st.trans with
      dataSecCnt := st.trans.dataSecCnt + listSecs G st.areas.length, status := statusComplete })
      (headBuf statusCommit (beforeCommit G st iosL bufL)) := by
    refine ⟨?_, ?_⟩
    · rw [← harm.slot, hslot, ← harm.off]
      rfl
    · intro s h1 h2 hne
      rw [← harm.slot] at hne
      rw [hheads s h1 h2 hne, hmidHeads s h1 h2 hne]
  have hself := hstored'.slotHead_self hG hok'
  have hpage' := hstored'.pageOk hG
  refine ⟨⟨hstored'.ring hG hok' complete_ne_uninit harm.serial (hpage.bufOk hG hring)
    (Or.inr hring), ?_, ?_⟩, ?_⟩
  · rw [hself]
    rfl
  · rw [hself]
    exact hready.dataLo
  · rw [← harm.off] at hpage'
    exact hpage'

structure Early (G : Geom) (st : Vol G.sectorShift) (img : Nat → Sector G.sectorShift) : Prop where
  other : ∀ s, s < st.trans.dataSecNum + st.trans.dataSecCnt ∨
    st.trans.dataSecNum + st.trans.dataSecCnt + listSecs G st.areas.length ≤ s →
    img s ∈ st.dev.med.may s
  lists : ∀ i < listSecs G st.areas.length,
    img (st.trans.dataSecNum + st.trans.dataSecCnt + i) ∈
        st.dev.med.may (st.trans.dataSecNum + st.trans.dataSecCnt + i) ∨
      ListSector G st.areas (i * areaPerSec G)
        (sectorByte (img (st.trans.dataSecNum + st.trans.dataSecCnt + i)))

def PartlyCopied (G : Geom) (hi : Nat) (v : Nat → Sector G.sectorShift) (st : Vol G.sectorShift)
    (img : Nat → Sector G.sectorShift) : Prop :=
  ∀ s, OutsideLog G hi s → img s ∈ st.dev.med.may s ∨ Covered st.areas s ∧ img s = v s

def AllCopied (G : Geom) (hi : Nat) (v : Nat → Sector G.sectorShift) (st : Vol G.sectorShift)
    (img : Nat → Sector G.sectorShift) : Prop :=
  ∀ s, OutsideLog G hi s →
    (Covered st.areas s → img s = v s) ∧ (¬ Covered st.areas s → img s ∈ st.dev.med.may s)

theorem AllCopied.partly {img : Nat → Sector G.sectorShift} (h : AllCopied G hi v st img) :
    PartlyCopied G hi v st img := by
  intro s hs
  by_cases hcov : Covered st.areas s
  · exact Or.inr ⟨hcov, (h s hs).1 hcov⟩
  · exact Or.inl ((h s hs).2 hcov)

theorem headIos_not_touches {k : Nat} (status : Nat) (st : Vol k) {s : Nat}
    (hs : s ≠ st.transCurSec) : ∀ io ∈ headIos status st, ¬ io.touches s := by
  intro io hio ht
  simp only [headIos, List.mem_cons, List.not_mem_nil, or_false] at hio
  rcases hio with rfl | rfl
  · have h1 : st.transCurSec ≤ s := ht.1
    have h2 : s < st.transCurSec + 1 := ht.2
    omega
  · have h1 : st.transCurSec ≤ s := ht.1
    have h2 : s < st.transCurSec + 1 := ht.2
    omega

structure LogStored (G : Geom) (st : Vol G.sectorShift) (iosL : List (Io G.sectorShift))
    (m : Medium G.sectorShift) : Prop where
  heads : ∀ s, G.transSecStart ≤ s → s < G.transDataStart → s ≠ st.transCurSec →
    m.may s = [st.dev.med.cur s]
  data : ∀ s, st.trans.dataSecNum ≤ s →
    s < st.trans.dataSecNum + st.trans.dataSecCnt + listSecs G st.areas.length →
    m.may s = [(st.dev.med.run (logIos G st iosL)).cur s]

theorem LogStored.sameHeads {m : Medium G.sectorShift} {img : Nat → Sector G.sectorShift}
    (h : LogStored G st iosL m)
    (himg : ∀ s, G.transSecStart ≤ s → s ≠ st.transCurSec → img s ∈ m.may s) :
    SameHeads G st img := by
  intro s h1 h2 hne
  have hmem := himg s h1 hne
  rw [h.heads s h1 h2 hne] at hmem
  exact List.mem_singleton.mp hmem

theorem LogStored.mono {m m' : Medium G.sectorShift} (h : LogStored G st iosL m)
    (hm : ∀ s, G.transSecStart ≤ s → s ≠ st.transCurSec → m'.may s = m.may s)
    (hready : Ready G v st) (hG : G.Valid) : LogStored G st iosL m' := by
  have hslot := hready.slotHi
  have hlo := hready.dataLo
  have hstart := Geom.transSecStart_lt_dataStart hG.laid
  refine ⟨?_, ?_⟩
  · intro s h1 h2 hne
    rw [hm s h1 hne, h.heads s h1 h2 hne]
  · intro s h1 h2
    rw [hm s (by omega) (by omega), h.data s h1 h2]

theorem logStored_logIos (hready : Ready G v st) (harm : Armed G n st)
    (hrun : CommitRun G v st iosL iosC bufL bufC) :
    LogStored G st iosL (st.dev.med.run (logIos G st iosL)) := by
  have hlo := hready.dataLo
  refine ⟨?_, ?_⟩
  · intro s h1 h2 _
    rw [(run_logIos_outside hrun (by omega)).1, harm.durable s h1 h2]
  · intro s h1 h2
    exact (run_logIos_inside hrun h1 h2).1

theorem commit_cut (hG : G.Valid) (hready : Ready G v st) (harm : Armed G n st)
    (hrun : CommitRun G v st iosL iosC bufL bufC) (hne : st.areas ≠ [])
    (hfits : st.trans.dataSecNum + st.trans.dataSecCnt + listSecs G st.areas.length ≤ hi)
    {img : Nat → Sector G.sectorShift}
    (hcut : st.dev.CutBefore (CommitRun.final G st iosL iosC bufL bufC).dev img) :
    Early G st img ∨
      Pending G hi n st.trans.dataSecNum st.trans.dataSecCnt st.areas v img ∧
        PartlyCopied G hi v st img ∨
      Completed G n img ∧ AllCopied G hi v st img := by
  have hstart := Geom.transSecStart_lt_dataStart hG.laid
  have hlo := hready.dataLo
  have hslotLo := hready.slotLo
  have hslotHi := hready.slotHi
  have hstored := logStored_logIos hready harm hrun
  have hhead := (st.dev.med.run (logIos G st iosL)).run_sector st.transCurSec
    (sectorOf (headBuf statusCommit (beforeCommit G st iosL bufL)))
  -- the medium behind the COMMIT header and behind the copies
  have hstoredH : LogStored G st iosL ((st.dev.med.run (logIos G st iosL)).run
      (headIos statusCommit (beforeCommit G st iosL bufL))) :=
    hstored.mono (fun s _ hs => Medium.run_may_of_not_touches _ (headIos_not_touches _ _ hs))
      hready hG
  have huncovered : ∀ s, G.transSecStart ≤ s → ∀ io ∈ iosC, ¬ io.touches s := by
    intro s hs io hio ht
    obtain ⟨a, ha, has⟩ := (hrun.copyIos io hio).2 s ht
    have hbefore := hready.areas.before a ha
    have hhi := has.2
    omega
  have hstoredC : LogStored G st iosL (((st.dev.med.run (logIos G st iosL)).run
      (headIos statusCommit (beforeCommit G st iosL bufL))).run iosC) :=
    hstoredH.mono (fun s hs _ => Medium.run_may_of_not_touches _ (huncovered s hs)) hready hG
  have houter : ∀ s, OutsideLog G hi s →
      ((st.dev.med.run (logIos G st iosL)).run
        (headIos statusCommit (beforeCommit G st iosL bufL))).may s = st.dev.med.may s := by
    intro s hs
    rw [Medium.run_may_of_not_touches _
      (headIos_not_touches statusCommit (beforeCommit G st iosL bufL)
        (show s ≠ st.transCurSec by rw [OutsideLog] at hs; omega))]
    exact (run_logIos_outside hrun (by rw [OutsideLog] at hs; omega)).1
  have hcopied : ∀ s, OutsideLog G hi s → ∀ x ∈ (((st.dev.med.run (logIos G st iosL)).run
      (headIos statusCommit (beforeCommit G st iosL bufL))).run iosC).may s,
      (Covered st.areas s → x = v s) ∧ (¬ Covered st.areas s → x ∈ st.dev.med.may s) := by
    intro s hs x hx
    refine ⟨?_, ?_⟩
    · intro hcov
      have hdone : (((st.dev.med.run (logIos G st iosL)).run
          (headIos statusCommit (beforeCommit G st iosL bufL))).run iosC).may s = [v s] :=
        (hrun.done s hcov).2
      rw [hdone] at hx
      exact List.mem_singleton.mp hx
    · intro hcov
      rw [Medium.run_may_of_not_touches _
        (fun io hio ht => hcov ((hrun.copyIos io hio).2 s ht)), houter s hs] at hx
      exact hx
  rw [final_dev, Dev.cutBefore_issue] at hcut
  rcases Medium.cut_append hcut with hcut | hcut
  · rcases Medium.cut_append hcut with hcut | hcut
    · rcases Medium.cut_append hcut with hcut | hcut
      · -- before the COMMIT header
        refine Or.inl ⟨?_, ?_⟩
        · intro s hs
          rcases hcut.puts (logIos_puts hrun) (harm.cur_mem s) with hmay | ⟨i, hi, rfl, -⟩
          · exact hmay
          · omega
        · intro i hi
          rcases hcut.puts (logIos_puts hrun) (harm.cur_mem _) with hmay | ⟨j, hj, heq, hlist⟩
          · exact Or.inl hmay
          · have hij : i = j := by omega
            exact Or.inr (hij ▸ hlist)
      · -- in the COMMIT header
        have hother : ∀ s, s ≠ st.transCurSec →
            img s ∈ (st.dev.med.run (logIos G st iosL)).may s :=
          fun s hs => hcut.mem_may (headIos_not_touches _ _ hs)
        rcases hcut.sector with hold | hnew
        · have hall : ∀ s, img s ∈ (st.dev.med.run (logIos G st iosL)).may s := by
            intro s
            by_cases hs : s = st.transCurSec
            · rw [hs]
              exact hold
            · exact hother s hs
          refine Or.inl ⟨?_, ?_⟩
          · intro s hs
            have hmem := hall s
            by_cases hdata : st.trans.dataSecNum ≤ s ∧
                s < st.trans.dataSecNum + st.trans.dataSecCnt + listSecs G st.areas.length
            · obtain ⟨hmay, hcur, -⟩ := run_logIos_inside hrun hdata.1 hdata.2
              rw [hmay, List.mem_singleton, hcur (by omega)] at hmem
              rw [hmem]
              exact harm.cur_mem s
            · rw [(run_logIos_outside hrun (by omega)).1] at hmem
              exact hmem
          · intro i hi
            have hmem := hall (st.trans.dataSecNum + st.trans.dataSecCnt + i)
            obtain ⟨hmay, -, hlist⟩ := run_logIos_inside hrun
              (s := st.trans.dataSecNum + st.trans.dataSecCnt + i) (by omega) (by omega)
            rw [hmay, List.mem_singleton] at hmem
            rw [hmem]
            exact Or.inr (hlist i rfl)
        · refine Or.inr (Or.inl ⟨pending_of hG hready harm hrun hne hfits
            (hstored.sameHeads (fun s _ hs => hother s hs)) hnew ?_, ?_⟩)
          · intro s h1 h2
            have hmem := hother s (by omega)
            rw [hstored.data s h1 h2] at hmem
            exact List.mem_singleton.mp hmem
          · intro s hs
            have hmem := hother s (by rw [OutsideLog] at hs; omega)
            rw [(run_logIos_outside hrun (by rw [OutsideLog] at hs; omega)).1] at hmem
            exact Or.inl hmem
    · -- in the copies
      rw [Medium.run_append] at hcut
      have hother : ∀ s, G.transSecStart ≤ s → img s ∈ ((st.dev.med.run (logIos G st iosL)).run
          (headIos statusCommit (beforeCommit G st iosL bufL))).may s :=
        fun s hs => hcut.mem_may (huncovered s hs)
      have hslot := hother st.transCurSec hslotLo
      rw [show ((st.dev.med.run (logIos G st iosL)).run
        (headIos statusCommit (beforeCommit G st iosL bufL))).may st.transCurSec = _ from hhead.2,
        List.mem_singleton] at hslot
      refine Or.inr (Or.inl ⟨pending_of hG hready harm hrun hne hfits
        (hstoredH.sameHeads (fun s h1 _ => hother s h1)) hslot ?_, ?_⟩)
      · intro s h1 h2
        have hmem := hother s (by omega)
        rw [hstoredH.data s h1 h2] at hmem
        exact List.mem_singleton.mp hmem
      · intro s hs
        have hputs := hcut.puts (fun io hio => (hrun.copyIos io hio).1) (s := s)
          (Medium.cur_mem_run _ _ (Medium.cur_mem_run _ _ (harm.cur_mem s)))
        rw [houter s hs] at hputs
        exact hputs
  · -- in the COMPLETE header
    rw [Medium.run_append, Medium.run_append] at hcut
    have hother : ∀ s, s ≠ st.transCurSec → img s ∈ (((st.dev.med.run (logIos G st iosL)).run
        (headIos statusCommit (beforeCommit G st iosL bufL))).run iosC).may s :=
      fun s hs => hcut.mem_may (headIos_not_touches _ _ hs)
    have hall : AllCopied G hi v st img := fun s hs =>
      hcopied s hs _ (hother s (by rw [OutsideLog] at hs; omega))
    have hheads := hstoredC.sameHeads (fun s _ hs => hother s hs)
    rcases hcut.sector with hold | hnew
    · have hslot : img st.transCurSec ∈ (((st.dev.med.run (logIos G st iosL)).run
          (headIos statusCommit (beforeCommit G st iosL bufL))).run iosC).may st.transCurSec := hold
      rw [Medium.run_may_of_not_touches _ (huncovered _ hslotLo),
        show ((st.dev.med.run (logIos G st iosL)).run
          (headIos statusCommit (beforeCommit G st iosL bufL))).may st.transCurSec = _ from hhead.2,
        List.mem_singleton] at hslot
      refine Or.inr (Or.inl ⟨pending_of hG hready harm hrun hne hfits hheads hslot ?_,
        hall.partly⟩)
      intro s h1 h2
      have hmem := hother s (by omega)
      rw [hstoredC.data s h1 h2] at hmem
      exact List.mem_singleton.mp hmem
    · exact Or.inr (Or.inr ⟨(completed_of hG hready harm hheads hnew).1, hall⟩)

end Commit

end SylixOS.TpsTrans
