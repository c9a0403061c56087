import SylixOS.TpsTransRecovery
import SylixOS.TpsTransOverlay

/-! Crash atomicity over whole histories of the log: transactions that are
committed or rolled back, other writes outside the log, power losses at any
access and the mounts that follow. -/

namespace SylixOS.TpsTrans
open SylixOS.ByteBuffer SylixOS.SectorDevice SylixOS.SerialRing

variable {G : Geom}

theorem tpsFsTransPutData_keeps (buf : Bytes) (n c : Nat) (st : Vol G.sectorShift) :
    Keeps G st (tpsFsTransPutData G buf n c st).2 := by
  rw [tpsFsTransPutData]
  split
  · exact Keeps.refl st
  · rename_i hfit
    rw [not_putOverflows_iff] at hfit
    by_cases hdev : st.trans.dataSecNum + st.trans.dataSecCnt + c ≤ st.dev.secCnt
    · rw [st.dev.write_of_le buf _ _ false hdev]
      exact Keeps.put hfit.1
    · have hwrite : st.dev.write buf (st.trans.dataSecNum + st.trans.dataSecCnt) c false = none :=
        if_neg hdev
      simp only [hwrite]
      exact ⟨rfl, rfl, rfl, rfl, rfl, rfl, rfl, rfl, ⟨[], (Dev.issue_nil _).symm, by simp⟩⟩

theorem toBufWrite_snd {k : Nat} (r : TpsResult × Vol k) : (toBufWrite r).2 = r.2 := by
  obtain ⟨e, st⟩ := r
  cases e <;> rfl

theorem Keeps.andThen {st : Vol G.sectorShift} {r : TpsResult × Vol G.sectorShift}
    {f : Vol G.sectorShift → TpsResult × Vol G.sectorShift} (h : Keeps G st r.2)
    (hf : ∀ st', Keeps G st' (f st').2) : Keeps G st (andThen r f).2 := by
  obtain ⟨e, st'⟩ := r
  cases e
  case errNone => exact h.then (hf st')
  all_goals exact h

theorem modifySector_keeps (sec off len : Nat) (src : Bytes) (st : Vol G.sectorShift) :
    Keeps G st (modifySector G sec off len src st).2 := by
  rw [modifySector]
  split
  · exact Keeps.refl st
  · rename_i b _
    simp only [toBufWrite_snd]
    generalize patch (patch st.sectorBuf 0 G.sectorSize b) off len src = buf
    have hbuf : Keeps G st { st with sectorBuf := buf } :=
      ⟨rfl, rfl, rfl, rfl, rfl, rfl, rfl, rfl, ⟨[], (Dev.issue_nil _).symm, by simp⟩⟩
    exact hbuf.then (tpsFsTransPutData_keeps _ _ _ _)

theorem tpsFsTransWrite_keeps (blk off : Nat) (buff : Bytes) (len : Nat)
    (st : Vol G.sectorShift) : Keeps G st (tpsFsTransWrite G blk off buff len st).2 := by
  rw [tpsFsTransWrite]
  refine Keeps.andThen (Keeps.andThen ?_ ?_) ?_
  · split
    · exact modifySector_keeps _ _ _ _ _
    · exact Keeps.refl st
  · intro st'
    split
    · rw [toBufWrite_snd]
      exact tpsFsTransPutData_keeps _ _ _ _
    · exact Keeps.refl st'
  · intro st'
    split
    · exact modifySector_keeps _ _ _ _ _
    · exact Keeps.refl st'

theorem transWrites_keeps (ws : List TransWrite) (st : Vol G.sectorShift) :
    Keeps G st (transWrites G ws st).2 := by
  induction ws generalizing st with
  | nil => exact Keeps.refl st
  | cons w ws ih => exact (tpsFsTransWrite_keeps _ _ _ _ st).andThen ih

theorem Keeps.ios {st st' : Vol G.sectorShift} (h : Keeps G st st')
    (hlo : G.transDataStart ≤ st.trans.dataSecNum) :
    ∃ ios, st'.dev = st.dev.issue ios ∧
      ∀ s, s < G.transDataStart ∨ G.logEnd ≤ s → ∀ io ∈ ios, ¬ io.touches s := by
  obtain ⟨ios, hdev, hios⟩ := h.dev
  refine ⟨ios, hdev, ?_⟩
  intro s hs io hio ht
  obtain ⟨sec, cnt, data, rfl, h1, h2⟩ := hios io hio
  have h3 := ht.1
  have h4 := ht.2
  omega

structure HeadsKept (G : Geom) (st st' : Vol G.sectorShift) : Prop where
  transCurSec : st'.transCurSec = st.transCurSec
  transSecOff : st'.transSecOff = st.transSecOff
  secBuff : st'.secBuff = st.secBuff
  dataCurSec : st'.dataCurSec = st.dataCurSec
  serialNum : st'.serialNum = st.serialNum
  trans : st'.trans = { st.trans with dataSecCnt := st'.trans.dataSecCnt }
  dev : ∃ ios, st'.dev = st.dev.issue ios ∧
    ∀ s < G.transDataStart, ∀ io ∈ ios, ¬ io.touches s

theorem Keeps.headsKept {st st' : Vol G.sectorShift} (h : Keeps G st st')
    (hlo : G.transDataStart ≤ st.trans.dataSecNum) : HeadsKept G st st' := by
  obtain ⟨ios, hdev, hios⟩ := h.ios hlo
  exact ⟨h.transCurSec, h.transSecOff, h.secBuff, h.dataCurSec, h.serialNum, h.trans,
    ⟨ios, hdev, fun s hs => hios s (Or.inl hs)⟩⟩

theorem HeadsKept.then {st st' st'' : Vol G.sectorShift} (h : HeadsKept G st st')
    (h' : HeadsKept G st' st'') : HeadsKept G st st'' := by
  obtain ⟨ios, hdev, hios⟩ := h.dev
  obtain ⟨ios', hdev', hios'⟩ := h'.dev
  refine ⟨h'.transCurSec.trans h.transCurSec, h'.transSecOff.trans h.transSecOff,
    h'.secBuff.trans h.secBuff, h'.dataCurSec.trans h.dataCurSec,
    h'.serialNum.trans h.serialNum, by rw [h'.trans, h.trans],
    ⟨ios ++ ios', by rw [hdev', hdev, Dev.issue_issue], ?_⟩⟩
  intro s hs io hio
  rcases List.mem_append.mp hio with hio | hio
  · exact hios s hs io hio
  · exact hios' s hs io hio

theorem writeAreaList_kept (fuel : Nat) : ∀ (i : Nat) (st : Vol G.sectorShift),
    G.transDataStart ≤ st.trans.dataSecNum → HeadsKept G st (writeAreaList G fuel i st).2 := by
  induction fuel with
  | zero => exact fun i st hlo => (Keeps.refl st).headsKept hlo
  | succ fuel ih =>
    intro i st hlo
    rw [writeAreaList]
    split
    · generalize tpsFsTransSecAreaSerial G st.areas st.areaReserved i st.sectorBuf = p
      obtain ⟨j, buf⟩ := p
      by_cases hdev : st.trans.dataSecNum + st.trans.dataSecCnt + 1 ≤ st.dev.secCnt
      · simp only [st.dev.write_of_le buf _ _ false hdev]
        refine HeadsKept.then ?_ (ih j _ hlo)
        refine ⟨rfl, rfl, rfl, rfl, rfl, rfl, ⟨_, rfl, ?_⟩⟩
        intro s hs io hio ht
        simp only [Bool.false_eq_true, if_false, List.mem_singleton] at hio
        subst hio
        have h1 := ht.1
        omega
      · have hwrite : st.dev.write buf (st.trans.dataSecNum + st.trans.dataSecCnt) 1 false =
          none := if_neg hdev
        simp only [hwrite]
        exact ⟨rfl, rfl, rfl, rfl, rfl, rfl, ⟨[], (Dev.issue_nil _).symm, by simp⟩⟩
    · exact (Keeps.refl st).headsKept hlo

theorem commitAreas_failed {st : Vol G.sectorShift} (hne : st.areas ≠ [])
    (h : (writeAreaList G st.areas.length 0 st).1 ≠ .errNone) :
    (commitAreas G st).2 = (writeAreaList G st.areas.length 0 st).2 := by
  rw [commitAreas, if_neg (by simpa using hne)]
  generalize writeAreaList G st.areas.length 0 st = r at h
  obtain ⟨e, st'⟩ := r
  cases e
  case errNone => exact absurd rfl h
  all_goals rfl

theorem BufOk.of_heads {d d' : Nat → Sector G.sectorShift} {i : Nat} {b : Bytes}
    (hi : i < G.slotCnt) (hbuf : BufOk G d i b)
    (h : ∀ s, G.transSecStart ≤ s → s < G.transDataStart → d' s = d s) : BufOk G d' i b := by
  refine ⟨?_, hbuf.behind⟩
  intro j hpage hj
  rw [hbuf.before j hpage hj, slotHead_eq_of_heads h (by omega)]

theorem LogState.opened {st0 st : Vol G.sectorShift} {time : Nat} (h : LogState G st0)
    (htime : time < 2 ^ 64) (hG : G.Valid)
    (hopen : (tpsFsTransAllocAndInit time st0).1 = some st) :
    HeadOk G st.trans ∧ st.dev = st0.dev ∧ st.transCurSec = st0.transCurSec ∧
      st.transSecOff = st0.transSecOff ∧ st.secBuff = st0.secBuff ∧
      st.dataCurSec = st0.dataCurSec ∧ st.serialNum = st0.serialNum ∧
      st.trans.serialNum = st0.serialNum ∧ st.trans.dataSecNum = st0.dataCurSec ∧
      st.trans.dataSecCnt = 0 := by
  have hhead := h.head
  have hdata := h.dataHi
  have hend := Geom.logEnd_le hG.laid
  have hdev := secCnt_lt hG
  rw [tpsFsTransAllocAndInit_some hopen]
  refine ⟨⟨hhead.magic, hhead.generation, hhead.reserved, h.serial, hhead.type,
    Nat.two_pow_pos 32, hhead.reserved64, htime, ?_, Nat.two_pow_pos 32⟩, rfl, rfl, rfl, rfl, rfl, rfl, rfl, rfl, rfl⟩
  simp only
  omega

theorem LogState.armed {st0 st st' : Vol G.sectorShift} {time : Nat} (hG : G.Valid)
    (h : LogState G st0) (htime : time < 2 ^ 64)
    (hopen : (tpsFsTransAllocAndInit time st0).1 = some st) (hkeeps : HeadsKept G st st')
    (hcnt : st'.trans.dataSecCnt < 2 ^ 32) : Armed G st0.serialNum st' := by
  obtain ⟨hhead, hdev, hsec, hoff, hbuf, -, hserial, htser, -, -⟩ := h.opened htime hG hopen
  have hN := slotCnt_ge hG
  obtain ⟨ios, hdev', hios⟩ := hkeeps.dev
  rw [hdev] at hdev'
  have hcur : ∀ s, G.transSecStart ≤ s → s < G.transDataStart →
      st'.dev.med.cur s = st0.dev.med.cur s := by
    intro s _ hs
    rw [hdev', Dev.issue_med]
    exact Medium.run_cur_of_not_touches _ (hios s hs)
  refine ⟨?_, ?_, ?_, Or.inl (h.ring.of_heads hcur), ?_, ?_, ?_, ?_, ?_⟩
  · rw [hkeeps.transCurSec, hsec, h.slot]
  · rw [hkeeps.transSecOff, hoff, h.off]
  · rw [hkeeps.secBuff, hbuf]
    exact h.buf.of_heads (Nat.mod_lt _ (by omega)) hcur
  · intro s h1 h2
    rw [hcur s h1 h2, ← h.durable s h1 h2, hdev', Dev.issue_med]
    exact Medium.run_may_of_not_touches _ (hios s h2)
  · intro s
    rw [hdev', Dev.issue_med]
    exact Medium.cur_mem_run _ _ (h.cur_mem s)
  · rw [hkeeps.trans]
    exact ⟨hhead.magic, hhead.generation, hhead.reserved, hhead.serialNum, hhead.type,
      hhead.status, hhead.reserved64, hhead.time, hhead.dataSecNum, hcnt⟩
  · rw [hkeeps.trans]
    exact htser
  · rw [hkeeps.serialNum, hserial]

theorem LogState.keeps {st0 st st' : Vol G.sectorShift} {time : Nat} (hG : G.Valid)
    (h : LogState G st0) (htime : time < 2 ^ 64)
    (hopen : (tpsFsTransAllocAndInit time st0).1 = some st) (hkeeps : HeadsKept G st st')
    {t : TransHead} (ht : HeadOk G t) (areas : List SecArea) :
    LogState G { st' with trans := t, areas := areas } := by
  obtain ⟨-, hdev, hsec, hoff, hbuf, hcurSec, hserial, -, -, -⟩ := h.opened htime hG hopen
  have hN := slotCnt_ge hG
  obtain ⟨ios, hdev', hios⟩ := hkeeps.dev
  rw [hdev] at hdev'
  have hcur : ∀ s, G.transSecStart ≤ s → s < G.transDataStart →
      st'.dev.med.cur s = st0.dev.med.cur s := by
    intro s _ hs
    rw [hdev', Dev.issue_med]
    exact Medium.run_cur_of_not_touches _ (hios s hs)
  have hser : st'.serialNum = st0.serialNum := hkeeps.serialNum.trans hserial
  have hdataCur : st'.dataCurSec = st0.dataCurSec := hkeeps.dataCurSec.trans hcurSec
  refine ⟨?_, ?_, ?_, ?_, ?_, ?_, ?_, ?_, ?_, ?_, ht, ?_⟩ <;> simp only
  · rw [hdev', Dev.issue_secCnt, h.secCnt]
  · intro s
    rw [hdev', Dev.issue_med]
    exact Medium.cur_mem_run _ _ (h.cur_mem s)
  · intro s h1 h2
    rw [hcur s h1 h2, ← h.durable s h1 h2, hdev', Dev.issue_med]
    exact Medium.run_may_of_not_touches _ (hios s h2)
  · rw [hkeeps.transCurSec, hsec, h.slot, hser]
  · rw [hkeeps.transSecOff, hoff, h.off, hser]
  · rw [hkeeps.secBuff, hbuf, hser]
    exact h.buf.of_heads (Nat.mod_lt _ (by omega)) hcur
  · rw [hser]
    exact h.ring.of_heads hcur
  · intro S hS
    rw [hser] at hS
    exact (h.complete S hS).of_heads hG hcur
  · rw [hdataCur]
    exact h.dataLo
  · rw [hdataCur]
    exact h.dataHi
  · rw [hser]
    exact h.serial

theorem LogState.rollBack {st0 st st' : Vol G.sectorShift} {time time' : Nat} (hG : G.Valid)
    (h : LogState G st0) (htime : time < 2 ^ 64) (htime' : time' < 2 ^ 64)
    (hopen : (tpsFsTransAllocAndInit time st0).1 = some st) (hkeeps : HeadsKept G st st') :
    LogState G (transRollBack time' st') := by
  obtain ⟨hhead, -, -, -, -, hcurSec, hserial, -, -, -⟩ := h.opened htime hG hopen
  have hend := Geom.logEnd_le hG.laid
  have hdev64 := secCnt_lt hG
  have hdata := h.dataHi
  refine h.keeps hG htime hopen hkeeps ?_ []
  rw [hkeeps.trans, hkeeps.serialNum, hkeeps.dataCurSec, hserial, hcurSec]
  refine ⟨hhead.magic, hhead.generation, hhead.reserved, h.serial, hhead.type, ?_,
    hhead.reserved64, htime', ?_, Nat.two_pow_pos 32⟩
  · simp only [statusUninit]
    norm_num
  · simp only
    omega

theorem LogState.other {st : Vol G.sectorShift} (hG : G.Valid) (h : LogState G st)
    {ios : List (Io G.sectorShift)}
    (hios : ∀ io ∈ ios, ∀ s, io.touches s → OutsideLog G G.logEnd s) :
    LogState G { st with dev := st.dev.issue ios } := by
  have hN := slotCnt_ge hG
  have hdata := G.dataStart_le_logEnd
  have hno : ∀ s, G.transSecStart ≤ s → s < G.transDataStart → ∀ io ∈ ios, ¬ io.touches s := by
    intro s h1 h2 io hio ht
    have hout := hios io hio s ht
    rw [OutsideLog] at hout
    omega
  have hcur : ∀ s, G.transSecStart ≤ s → s < G.transDataStart →
      (st.dev.med.run ios).cur s = st.dev.med.cur s :=
    fun s h1 h2 => Medium.run_cur_of_not_touches _ (hno s h1 h2)
  refine ⟨h.secCnt, fun s => Medium.cur_mem_run _ _ (h.cur_mem s), ?_, h.slot, h.off,
    h.buf.of_heads (Nat.mod_lt _ (by omega)) hcur, h.ring.of_heads hcur,
    fun S hS => (h.complete S hS).of_heads hG hcur, h.dataLo, h.dataHi, h.head, h.serial⟩
  intro s h1 h2
  simp only [Dev.issue_med]
  rw [hcur s h1 h2, ← h.durable s h1 h2]
  exact Medium.run_may_of_not_touches _ (hno s h1 h2)

structure Commits (G : Geom) (hi : Nat) (st0 : Vol G.sectorShift) (time : Nat)
    (ws : List TransWrite) (adj : Option (List TransWrite)) (st : Vol G.sectorShift) : Prop where
  opened : (tpsFsTransAllocAndInit time st0).1 = some st
  time_lt : time < 2 ^ 64
  inside : ∀ w ∈ ws ++ adj.getD [], w.Inside G
  ok : (transWrites G (ws ++ adj.getD []) st).1 = .errNone
  small : loggedSecs G (ws ++ adj.getD []) +
    listSecs G (recordedAreas G (ws ++ adj.getD [])).length ≤ 2 ^ 31
  fits : st0.dataCurSec + loggedSecs G (ws ++ adj.getD []) +
    listSecs G (recordedAreas G (ws ++ adj.getD [])).length ≤ hi
  serial : st0.serialNum + 1 < 2 ^ 64

theorem LogState.settled_of_heads {st0 : Vol G.sectorShift} (hG : G.Valid) (h : LogState G st0)
    {img : Nat → Sector G.sectorShift}
    (himg : ∀ s < G.transDataStart, img s ∈ st0.dev.med.may s)
    (hclear : Clear G img) : Settled G st0.serialNum img := by
  have hheads : ∀ s, G.transSecStart ≤ s → s < G.transDataStart → img s = st0.dev.med.cur s := by
    intro s h1 h2
    have hmem := himg s h2
    rw [h.durable s h1 h2] at hmem
    exact List.mem_singleton.mp hmem
  exact ⟨h.ring.of_heads hheads, fun _ => hclear,
    fun S hS => (h.complete S hS).of_heads hG hheads⟩

open Classical in
noncomputable def mixed (G : Geom) (hi : Nat) (keep : Nat → Prop)
    (cur other : Nat → Sector G.sectorShift) : Nat → Sector G.sectorShift := fun s =>
  if OutsideLog G hi s ∧ ¬ keep s then other s else cur s

theorem mixed_other {hi : Nat} {keep : Nat → Prop} {cur other : Nat → Sector G.sectorShift} {s : Nat}
    (hs : OutsideLog G hi s) (hkeep : ¬ keep s) : mixed G hi keep cur other s = other s :=
  if_pos ⟨hs, hkeep⟩

theorem mixed_keep {hi : Nat} {keep : Nat → Prop} {cur other : Nat → Sector G.sectorShift} {s : Nat}
    (hkeep : keep s) : mixed G hi keep cur other s = cur s := if_neg (fun hc => hc.2 hkeep)

theorem mixed_image {hi : Nat} {keep : Nat → Prop} {m : Medium G.sectorShift}
    {other : Nat → Sector G.sectorShift} (hcur : ∀ s, m.cur s ∈ m.may s)
    (hother : ∀ s, OutsideLog G hi s → ¬ keep s → other s ∈ m.may s) :
    m.Image (mixed G hi keep m.cur other) := by
  intro s
  rw [mixed]
  split
  · rename_i hs
    exact hother s hs.1 hs.2
  · exact hcur s

def LeadsTo (G : Geom) (hi n : Nat) (ws : List TransWrite) (before : Medium G.sectorShift)
    (img : Nat → Sector G.sectorShift) : Prop :=
  ∃ pre, before.Image pre ∧
    (Resolves G hi n pre img ∨
      Resolves G hi (n + 1) (sectorOf (overlay G ws (flatten pre))) img)

theorem LogState.leadsTo_old {st0 : Vol G.sectorShift} {hi : Nat} (hG : G.Valid)
    (h : LogState G st0) {img : Nat → Sector G.sectorShift}
    (himg : ∀ s, s < G.transDataStart ∨ hi ≤ s → img s ∈ st0.dev.med.may s)
    (hclear : Clear G img) (ws : List TransWrite) :
    LeadsTo G hi st0.serialNum ws st0.dev.med img := by
  have hstart := Geom.transSecStart_lt_dataStart hG.laid
  refine ⟨mixed G hi (fun _ => False) st0.dev.med.cur img, mixed_image h.cur_mem ?_,
    Or.inl (.settled (h.settled_of_heads hG (fun s hs => himg s (Or.inl hs)) hclear) ?_)⟩
  · intro s hs _
    exact himg s (by rw [OutsideLog] at hs; omega)
  · intro s hs
    exact (mixed_other hs (fun hc => hc)).symm

theorem Written.overlay_covered {ws : List TransWrite} {st st' : Vol G.sectorShift}
    (h : Written G ws st st') {s : Nat} (hs : s < G.transSecStart) :
    view G st' s = sectorOf (overlay G ws (flatten st.dev.med.cur)) s :=
  view_eq_of_bytes h.bytes hs

theorem Written.overlay_uncovered {hi : Nat} (hG : G.Valid) (hlog : G.logEnd ≤ hi)
    {ws : List TransWrite} {st st' : Vol G.sectorShift} (h : Written G ws st st')
    (hin : ∀ w ∈ ws, w.Inside G) {s : Nat}
    (hs : OutsideLog G hi s) (hcov : ¬ Covered (recordedAreas G ws) s) :
    (sectorOf (overlay G ws (flatten st.dev.med.cur)) s : Sector G.sectorShift) =
      st.dev.med.cur s := by
  have hstart := Geom.transSecStart_lt_dataStart hG.laid
  have hlo := h.opened.dataLo
  rcases hs with hs | hs
  · rw [← h.overlay_covered hs, ← cur_eq_view hs (by rw [h.areas]; exact hcov)]
    exact h.opened.cur s (Or.inl (by omega))
  · rw [← sectorOf_flatten st.dev.med.cur s]
    refine sectorOf_congr ?_
    intro j _
    refine overlay_outside hin _ ?_
    have hdata := G.dataStart_le_logEnd
    have hmul : G.transSecStart * 2 ^ G.sectorShift ≤ s * 2 ^ G.sectorShift :=
      Nat.mul_le_mul_right _ (by omega)
    rw [Geom.homeLen, Geom.sectorSize]
    omega

theorem Commits.leadsTo_new {st0 st st2 : Vol G.sectorShift} {hi time : Nat} {ws : List TransWrite}
    {adj : Option (List TransWrite)} {img : Nat → Sector G.sectorShift} (hG : G.Valid)
    (hlog : G.logEnd ≤ hi) (h : LogState G st0) (hc : Commits G hi st0 time ws adj st)
    (hw : Written G (ws ++ adj.getD []) st st2)
    (hmay : ∀ s, OutsideLog G hi s → ¬ Covered st2.areas s → img s ∈ st0.dev.med.may s)
    (hres : ∀ d, (∀ s, OutsideLog G hi s → Covered st2.areas s → view G st2 s = d s) →
      (∀ s, OutsideLog G hi s → ¬ Covered st2.areas s → img s = d s) →
      Resolves G hi (st0.serialNum + 1) d img) :
    LeadsTo G hi st0.serialNum (ws ++ adj.getD []) st0.dev.med img := by
  have hdev : st.dev = st0.dev := (h.opened hc.time_lt hG hc.opened).2.1
  have hsmall := hc.small
  generalize hpre : mixed G hi (Covered st2.areas) st0.dev.med.cur img = pre
  have himage : st0.dev.med.Image pre := by
    rw [← hpre]
    exact mixed_image h.cur_mem hmay
  refine ⟨pre, himage, Or.inr (hres _ ?_ ?_)⟩
  · intro s hs hcov
    have hbefore : s < G.transSecStart := by
      obtain ⟨a, ha, has⟩ := hcov
      have hb := hw.opened.areas.before a ha
      exact lt_of_lt_of_le has.2 hb
    rw [hw.overlay_covered hbefore]
    refine sectorOf_congr ?_
    intro j hj
    refine overlay_congr ?_
    have hsame : pre s = st.dev.med.cur s := by
      rw [← hpre, hdev]
      exact mixed_keep hcov
    rw [flatten_at _ _ hj, flatten_at _ _ hj, hsame]
  · intro s hs hcov
    -- the same writes over `pre` record the same areas
    have hokp := onDisk_ok hG (h.logOk hG) hc.opened hc.inside (by omega) hc.ok pre
    cases hall : transWrites G (ws ++ adj.getD []) (st.onDisk pre) with
    | mk e st3 =>
      rw [hall] at hokp
      simp only at hokp
      subst hokp
      have hwp := written_of_ok hG ((h.logOk hG).onDisk pre) (onDisk_opens hc.opened pre)
        hc.inside (by omega) hall
      have hun := hwp.overlay_uncovered hG hlog hc.inside hs (by rw [← hw.areas]; exact hcov)
      have hpres : pre s = img s := by
        rw [← hpre]
        exact mixed_other hs hcov
      exact hpres.symm.trans hun.symm

theorem Commits.spec {st0 st : Vol G.sectorShift} {hi time : Nat} {ws : List TransWrite}
    {adj : Option (List TransWrite)} (hG : G.Valid) (hlog : G.logEnd ≤ hi) (hhi : hi ≤ G.secCnt)
    (h : LogState G st0)
    (hc : Commits G hi st0 time ws adj st) :
    ∃ st', tpsFsTransCommitAndFree G adj (transWrites G ws st).2 = (.errNone, st') ∧
      LogState G st' ∧ ∀ img, st0.dev.CutBefore st'.dev img → Clear G img →
        LeadsTo G hi st0.serialNum (ws ++ adj.getD []) st0.dev.med img := by
  have hok := hc.ok
  have hsmall := hc.small
  have hstart := Geom.transSecStart_lt_dataStart hG.laid
  obtain ⟨hhead, hdev, hsec, -, -, -, -, -, hnum, -⟩ := h.opened hc.time_lt hG hc.opened
  cases hall : transWrites G (ws ++ adj.getD []) st with
  | mk e st2 =>
    rw [hall] at hok
    simp only at hok
    subst hok
    obtain ⟨st1, hws, hcommit⟩ := commit_eq_commitAreas hall
    have hw := written_of_ok hG (h.logOk hG) hc.opened hc.inside (by omega) hall
    have hD : st2.trans.dataSecNum = st0.dataCurSec := hw.keeps.dataSecNum.trans hnum
    obtain ⟨iosW, hdevW, hiosW⟩ := hw.keeps.ios (by rw [hnum]; exact h.dataLo)
    have hkept := hw.keeps.headsKept (by rw [hnum]; exact h.dataLo)
    rw [hdev] at hdevW
    have hsame : ∀ s, s < G.transDataStart ∨ hi ≤ s →
        st2.dev.med.may s = st0.dev.med.may s := by
      intro s hs
      rw [hdevW, Dev.issue_med]
      exact Medium.run_may_of_not_touches _ (hiosW s (by omega))
    have houter : ∀ s, OutsideLog G hi s → st2.dev.med.may s = st0.dev.med.may s :=
      fun s hs => hsame s (by rw [OutsideLog] at hs; omega)
    have hcutW : ∀ img, st0.dev.med.Cut iosW img →
        ∀ s, s < G.transDataStart ∨ hi ≤ s → img s ∈ st0.dev.med.may s :=
      fun img hcut s hs => hcut.mem_may (hiosW s (by omega))
    rw [hws]
    simp only
    rw [hcommit]
    by_cases hne : st2.areas = []
    · refine ⟨setStatus statusComplete st2, by rw [commitAreas, if_pos (by simp [hne])], ?_, ?_⟩
      · refine h.keeps hG hc.time_lt hc.opened hkept ?_ st2.areas
        rw [hw.keeps.trans]
        exact ⟨hhead.magic, hhead.generation, hhead.reserved, hhead.serialNum, hhead.type,
          by simp [statusComplete], hhead.reserved64, hhead.time, hhead.dataSecNum,
          by simp only [hw.cnt]; omega⟩
      · intro img hcut hclear
        have hcut' : st0.dev.CutBefore (st0.dev.issue iosW) img := by
          rw [← hdevW]
          exact hcut
        rw [Dev.cutBefore_issue] at hcut'
        exact h.leadsTo_old hG (hcutW img hcut') hclear _
    · have hfits : st2.trans.dataSecNum + st2.trans.dataSecCnt + listSecs G st2.areas.length ≤
          hi := by
        rw [hD, hw.cnt, hw.areas]
        exact hc.fits
      have hready := hw.opened.ready hG
        (by rw [hw.keeps.transCurSec, hsec]; exact (h.logOk hG).slotLo)
        (by rw [hw.keeps.transCurSec, hsec]; exact (h.logOk hG).slotHi) (by omega)
        (by rw [hw.cnt, hw.areas]; exact hsmall)
      have harm := h.armed hG hc.time_lt hc.opened hkept (by rw [hw.cnt]; omega)
      obtain ⟨iosL, iosC, bufL, bufC, hrun⟩ := hready.commitRun hG hne
      refine ⟨_, hrun.eq, (final_logState hG hready harm hrun hc.serial).1, ?_⟩
      intro img hcut hclear
      have hfinal := final_dev st2 iosL iosC bufL bufC
      have hcut' : st0.dev.CutBefore ((st0.dev.issue iosW).issue (logIos G st2 iosL ++
          headIos statusCommit (beforeCommit G st2 iosL bufL) ++ iosC ++
          headIos statusComplete (beforeComplete G st2 iosL iosC bufL bufC))) img := by
        rw [← hdevW, ← hfinal]
        exact hcut
      rcases hcut'.split with hearly | hlate
      · exact h.leadsTo_old hG (hcutW img hearly) hclear _
      · rw [← hdevW, ← hfinal] at hlate
        rcases commit_cut hG hready harm hrun hne hfits hlate with
          hearly | ⟨hpend, hpart⟩ | ⟨hcomp, hcopied⟩
        · refine h.leadsTo_old hG (fun s hs => ?_) hclear _
          rw [← hsame s hs]
          exact hearly.other s (by have hlo := hready.dataLo; omega)
        · refine hc.leadsTo_new hG hlog h hw ?_ (fun d hcov hout => .pending rfl hpend hcov hout)
          intro s hs hcov
          rcases hpart s hs with hmay | ⟨hcov', -⟩
          · rw [← houter s hs]
            exact hmay
          · exact absurd hcov' hcov
        · refine hc.leadsTo_new hG hlog h hw ?_ (fun d hcov hout => .settled hcomp.settled ?_)
          · intro s hs hcov
            rw [← houter s hs]
            exact (hcopied s hs).2 hcov
          · intro s hs
            by_cases hcov' : Covered st2.areas s
            · rw [← hcov s hs hcov']
              exact (hcopied s hs).1 hcov'
            · exact hout s hs hcov'

/-- One transaction from its opening to its end: rolled back, committed, or rolled back after
a commit that found no room on the device for its area list. -/
inductive Transaction (G : Geom) (st0 : Vol G.sectorShift) : Vol G.sectorShift → Prop where
  | rollBack {st : Vol G.sectorShift} {time time' : Nat} (ws : List TransWrite)
      (hopen : (tpsFsTransAllocAndInit time st0).1 = some st) (htime : time < 2 ^ 64)
      (htime' : time' < 2 ^ 64) : Transaction G st0 (transRollBack time' (transWrites G ws st).2)
  | commit {st : Vol G.sectorShift} {time : Nat} {ws : List TransWrite}
      {adj : Option (List TransWrite)} (h : Commits G G.secCnt st0 time ws adj st) :
      Transaction G st0 (tpsFsTransCommitAndFree G adj (transWrites G ws st).2).2
  | failed {st : Vol G.sectorShift} {time time' : Nat} {ws : List TransWrite}
      {adj : Option (List TransWrite)} (hopen : (tpsFsTransAllocAndInit time st0).1 = some st)
      (htime : time < 2 ^ 64) (htime' : time' < 2 ^ 64)
      (hin : ∀ w ∈ ws ++ adj.getD [], w.Inside G)
      (hok : (transWrites G (ws ++ adj.getD []) st).1 = .errNone)
      (hsmall : loggedSecs G (ws ++ adj.getD []) +
        listSecs G (recordedAreas G (ws ++ adj.getD [])).length ≤ 2 ^ 31)
      (hroom : G.secCnt < st0.dataCurSec + loggedSecs G (ws ++ adj.getD []) +
        listSecs G (recordedAreas G (ws ++ adj.getD [])).length) :
      Transaction G st0
        (transRollBack time' (tpsFsTransCommitAndFree G adj (transWrites G ws st).2).2)

inductive Recovering (G : Geom) (img : Nat → Sector G.sectorShift) :
    (Nat → Sector G.sectorShift) → Prop where
  | start : Recovering G img img
  | cut {img1 img2 : Nat → Sector G.sectorShift} {sectorBuf : Bytes} {areaReserved : Nat × Nat}
      {r : TpsResult} {st : Vol G.sectorShift} (h : Recovering G img img1)
      (hmount : mountTrans G sectorBuf areaReserved img1 = some (r, st))
      (hcut : (Dev.boot G.secCnt img1).CutBefore st.dev img2) : Recovering G img img2

/-- The states of the log: mounted after format, where no header is valid, and then any
sequence of transactions, writes outside the log, and power losses with the mounts that
follow. -/
inductive LogRun (G : Geom) : Vol G.sectorShift → Prop where
  | format {img : Nat → Sector G.sectorShift} {sectorBuf : Bytes} {areaReserved : Nat × Nat}
      {r : TpsResult} {st : Vol G.sectorShift} (hring : Ring G img 0) (hclear : Clear G img)
      (hmount : mountTrans G sectorBuf areaReserved img = some (r, st)) : LogRun G st
  | transaction {st st' : Vol G.sectorShift} (h : LogRun G st) (ht : Transaction G st st') :
      LogRun G st'
  | other {st : Vol G.sectorShift} {ios : List (Io G.sectorShift)} (h : LogRun G st)
      (hios : ∀ io ∈ ios, ∀ s, io.touches s → OutsideLog G G.logEnd s) :
      LogRun G { st with dev := st.dev.issue ios }
  | powerLoss {st st' st'' : Vol G.sectorShift} {img img' : Nat → Sector G.sectorShift}
      {sectorBuf : Bytes} {areaReserved : Nat × Nat} {r : TpsResult} (h : LogRun G st)
      (ht : Transaction G st st') (hcut : st.dev.CutBefore st'.dev img) (hclear : Clear G img)
      (hrec : Recovering G img img')
      (hmount : mountTrans G sectorBuf areaReserved img' = some (r, st'')) : LogRun G st''

theorem Resolves.recovering (hG : G.Valid) {hi m : Nat} {d img img' : Nat → Sector G.sectorShift}
    (h : Resolves G hi m d img) (hhi : hi ≤ G.secCnt) (hm : m < 2 ^ 64)
    (hrec : Recovering G img img') : Resolves G hi m d img' := by
  induction hrec with
  | start => exact h
  | @cut img1 img2 sectorBuf areaReserved r st _ hmount hcut ih =>
    obtain ⟨st', hmount', -, -, -, hcuts⟩ := ih.mount hG hhi hm sectorBuf areaReserved
    rw [hmount] at hmount'
    obtain ⟨-, rfl⟩ := Prod.mk.inj (Option.some.inj hmount')
    exact hcuts img2 hcut

theorem failed_kept {st0 st : Vol G.sectorShift} {time : Nat} {ws : List TransWrite}
    {adj : Option (List TransWrite)} (hG : G.Valid) (h : LogState G st0)
    (hopen : (tpsFsTransAllocAndInit time st0).1 = some st) (htime : time < 2 ^ 64)
    (hin : ∀ w ∈ ws ++ adj.getD [], w.Inside G)
    (hok : (transWrites G (ws ++ adj.getD []) st).1 = .errNone)
    (hsmall : loggedSecs G (ws ++ adj.getD []) +
      listSecs G (recordedAreas G (ws ++ adj.getD [])).length ≤ 2 ^ 31)
    (hroom : G.secCnt < st0.dataCurSec + loggedSecs G (ws ++ adj.getD []) +
      listSecs G (recordedAreas G (ws ++ adj.getD [])).length) :
    HeadsKept G st (tpsFsTransCommitAndFree G adj (transWrites G ws st).2).2 := by
  obtain ⟨-, -, -, -, -, -, -, -, hnum, -⟩ := h.opened htime hG hopen
  cases hall : transWrites G (ws ++ adj.getD []) st with
  | mk e st2 =>
    rw [hall] at hok
    simp only at hok
    subst hok
    obtain ⟨st1, hws, hcommit⟩ := commit_eq_commitAreas hall
    have hw := written_of_ok hG (h.logOk hG) hopen hin (by omega) hall
    have hkept := hw.keeps.headsKept (by rw [hnum]; exact h.dataLo)
    have hD : st2.trans.dataSecNum = st0.dataCurSec := hw.keeps.dataSecNum.trans hnum
    have hhi := hw.opened.dataHi
    have hend := Geom.logEnd_le hG.laid
    have hmax := transMaxArea_lt hG
    have hareaCnt := hw.opened.areaCnt
    rw [← hw.cnt, ← hw.areas, ← hD] at hroom
    rw [← hw.cnt, ← hw.areas] at hsmall
    have hne : st2.areas ≠ [] := by
      intro hnil
      have hzero : ¬ 0 < listSecs G st2.areas.length := by
        rw [lt_listSecs_iff hG, hnil]
        simp
      omega
    have hfits : ∀ a ∈ st2.areas, a.Fits := by
      intro a ha
      have h1 := hw.opened.areas.before a ha
      have h2 := hw.opened.areas.off a ha
      have h3 := Geom.transSecStart_lt_dataStart hG.laid
      have h4 := secCnt_lt hG
      have h5 := G.dataStart_le_logEnd
      exact ⟨by omega, by omega, by omega⟩
    have hfail : (writeAreaList G st2.areas.length 0 st2).1 ≠ .errNone := by
      intro hlist
      have hfit := writeAreaList_room hG hfits (by omega) st2.areas.length 0 st2 rfl (by omega)
        (Nat.zero_le _) (by omega) (by rw [hw.opened.secCnt]; omega)
        (by rwa [Nat.zero_mul, Nat.min_zero])
      rw [hw.opened.secCnt, Nat.sub_zero] at hfit
      omega
    rw [hws]
    simp only
    rw [hcommit, commitAreas_failed hne hfail]
    exact hkept.then (writeAreaList_kept _ _ _ (by rw [hD]; exact h.dataLo))

theorem LogState.spec_kept {st0 st st' : Vol G.sectorShift} {time time' : Nat} (hG : G.Valid)
    (h : LogState G st0) (hopen : (tpsFsTransAllocAndInit time st0).1 = some st)
    (htime : time < 2 ^ 64) (htime' : time' < 2 ^ 64) (hkept : HeadsKept G st st') :
    LogState G (transRollBack time' st') ∧
      ∀ img, st0.dev.CutBefore (transRollBack time' st').dev img → Clear G img →
        ∃ m d, m < 2 ^ 64 ∧ Resolves G G.secCnt m d img := by
  obtain ⟨-, hdev, -, -, -, -, -, -, -, -⟩ := h.opened htime hG hopen
  obtain ⟨ios, hdev', hios⟩ := hkept.dev
  rw [hdev] at hdev'
  refine ⟨h.rollBack hG htime htime' hopen hkept, ?_⟩
  intro img hcut hclear
  have hcut' : st0.dev.CutBefore (st0.dev.issue ios) img := by
    rw [← hdev']
    exact hcut
  rw [Dev.cutBefore_issue] at hcut'
  have hsettled := h.settled_of_heads hG (fun s hs => hcut'.mem_may (hios s hs)) hclear
  exact ⟨_, img, h.serial, .settled hsettled (fun s _ => rfl)⟩

theorem Transaction.spec {st0 st' : Vol G.sectorShift} (hG : G.Valid) (h : LogState G st0)
    (ht : Transaction G st0 st') : LogState G st' ∧
      ∀ img, st0.dev.CutBefore st'.dev img → Clear G img →
        ∃ m d, m < 2 ^ 64 ∧ Resolves G G.secCnt m d img := by
  cases ht with
  | @rollBack st time time' ws hopen htime htime' =>
    obtain ⟨-, -, -, -, -, -, -, -, hnum, -⟩ := h.opened htime hG hopen
    exact h.spec_kept hG hopen htime htime'
      ((transWrites_keeps ws st).headsKept (by rw [hnum]; exact h.dataLo))
  | failed hopen htime htime' hin hok hsmall hroom =>
    exact h.spec_kept hG hopen htime htime' (failed_kept hG h hopen htime hin hok hsmall hroom)
  | commit hc =>
    obtain ⟨st', heq, hstate, hcuts⟩ := hc.spec hG (Geom.logEnd_le hG) le_rfl h
    rw [heq]
    refine ⟨hstate, ?_⟩
    intro img hcut hclear
    obtain ⟨pre, -, hres | hres⟩ := hcuts img hcut hclear
    · exact ⟨_, _, h.serial, hres⟩
    · exact ⟨_, _, hc.serial, hres⟩

theorem LogRun.logState (hG : G.Valid) {st : Vol G.sectorShift} (h : LogRun G st) :
    LogState G st := by
  induction h with
  | @format img sectorBuf areaReserved r st hring hclear hmount =>
    obtain ⟨st', hmount', -, hstate, -⟩ := mountTrans_empty hG hring hclear sectorBuf areaReserved
    rw [hmount] at hmount'
    obtain ⟨-, rfl⟩ := Prod.mk.inj (Option.some.inj hmount')
    exact hstate
  | transaction _ ht ih => exact (ht.spec hG ih).1
  | other _ hios ih => exact ih.other hG hios
  | @powerLoss st st' st'' img img' sectorBuf areaReserved r _ ht hcut hclear hrec hmount ih =>
    obtain ⟨m, d, hm, hres⟩ := (ht.spec hG ih).2 img hcut hclear
    obtain ⟨st1, hmount', hstate, -⟩ :=
      (hres.recovering hG le_rfl hm hrec).mount hG le_rfl hm sectorBuf areaReserved
    rw [hmount] at hmount'
    obtain ⟨-, rfl⟩ := Prod.mk.inj (Option.some.inj hmount')
    exact hstate

def NextSerial (G : Geom) (img : Nat → Sector G.sectorShift) (n : Nat) : Prop :=
  (∀ i < G.slotCnt, ∀ x, slotSerial G img i = some x → x < n) ∧
    (n ≠ 0 → ∃ i < G.slotCnt, slotSerial G img i = some (n - 1))

theorem Ring.nextSerial {img : Nat → Sector G.sectorShift} {n : Nat} (hG : G.Valid)
    (h : Ring G img n) : NextSerial G img n := by
  have hN := slotCnt_ge hG
  refine ⟨?_, ?_⟩
  · intro i hi x hx
    rw [h i hi] at hx
    cases n with
    | zero => cases hx
    | succ S =>
      have hle := ringAt_le hi hx
      omega
  · intro hn
    obtain ⟨S, rfl⟩ := Nat.exists_eq_succ_of_ne_zero hn
    have hlt := Nat.mod_lt S (by omega : G.slotCnt > 0)
    exact ⟨S % G.slotCnt, hlt, (h _ hlt).trans (ringAt_newest S)⟩

theorem Resolves.ring {hi m : Nat} {d img : Nat → Sector G.sectorShift}
    (h : Resolves G hi m d img) :
    Ring G img m := by
  cases h with
  | settled hlog => exact hlog.ring
  | pending hm hlog => rw [hm]; exact hlog.ring

/-- Recovery over `img`, however often it is interrupted, finds the newest header and durably
leaves the contents `d` outside the log. -/
def RecoversTo (G : Geom) (d img : Nat → Sector G.sectorShift) : Prop :=
  ∀ img', Recovering G img img' → ∀ sectorBuf areaReserved, ∃ st,
    mountTrans G sectorBuf areaReserved img' = some (.errNone, st) ∧
      NextSerial G img' st.serialNum ∧
      ∀ s, OutsideLog G G.logEnd s → st.dev.med.cur s = d s ∧ st.dev.med.may s = [d s]

theorem Resolves.recoversTo {m : Nat} {d img : Nat → Sector G.sectorShift} (hG : G.Valid)
    (h : Resolves G G.logEnd m d img) (hm : m < 2 ^ 64) : RecoversTo G d img := by
  intro img' hrec sectorBuf areaReserved
  have hres := h.recovering hG (Geom.logEnd_le hG) hm hrec
  obtain ⟨st, hmount, -, hser, hout, -⟩ := hres.mount hG (Geom.logEnd_le hG) hm sectorBuf
    areaReserved
  exact ⟨st, hmount, by rw [hser]; exact hres.ring.nextSerial hG, hout⟩

def HeadStored (G : Geom) (n : Nat) (img : Nat → Sector G.sectorShift) : Prop :=
  slotSerial G img (n % G.slotCnt) = some n

/-- All or nothing: recovery leaves some content `pre` the disk could have had before commit
`n`, or `pre` with its writes `ws`, the latter whenever its header is stored. -/
def AtomicAt (G : Geom) (n : Nat) (ws : List TransWrite) (before : Medium G.sectorShift)
    (img : Nat → Sector G.sectorShift) : Prop :=
  ∃ pre, before.Image pre ∧
    (RecoversTo G pre img ∧ ¬ HeadStored G n img ∨
      RecoversTo G (sectorOf (overlay G ws (flatten pre))) img)

/-- In every history, every power loss during a transaction that fits into the log is
atomic. -/
theorem commit_atomic (hG : G.Valid) {st0 st : Vol G.sectorShift} {time : Nat}
    {ws : List TransWrite} {adj : Option (List TransWrite)} (hrun : LogRun G st0)
    (hc : Commits G G.logEnd st0 time ws adj st) :
    (tpsFsTransCommitAndFree G adj (transWrites G ws st).2).1 = .errNone ∧
      ∀ img, st0.dev.CutBefore (tpsFsTransCommitAndFree G adj (transWrites G ws st).2).2.dev img →
        Clear G img → AtomicAt G st0.serialNum (ws ++ adj.getD []) st0.dev.med img := by
  have hstate := hrun.logState hG
  have hN := slotCnt_ge hG
  obtain ⟨st', heq, -, hcuts⟩ := hc.spec hG le_rfl (Geom.logEnd_le hG) hstate
  rw [heq]
  refine ⟨rfl, ?_⟩
  intro img hcut hclear
  obtain ⟨pre, himage, hold | hnew⟩ := hcuts img hcut hclear
  · refine ⟨pre, himage, Or.inl ⟨hold.recoversTo hG hstate.serial, ?_⟩⟩
    intro hstored
    have hlt := (hold.ring.nextSerial hG).1 _ (Nat.mod_lt _ (by omega)) _ hstored
    omega
  · exact ⟨pre, himage, Or.inr (hnew.recoversTo hG hc.serial)⟩

def smallMount (img : Nat → Sector smallGeom.sectorShift) : Vol smallGeom.sectorShift :=
  ((mountTrans smallGeom (fun _ => 0) (0, 0) img).map Prod.snd).getD smallVol

def smallBegun (img : Nat → Sector smallGeom.sectorShift) : Vol smallGeom.sectorShift :=
  (tpsFsTransAllocAndInit 0 (smallMount img)).1.getD smallVol

def emptyDisk : Nat → Sector smallGeom.sectorShift := fun _ _ => 0

theorem slotHead_zero {d : Nat → Sector G.sectorShift} {i : Nat}
    (h : d (slotSec G i) = fun _ => 0) : (slotHead G d i).status = statusUninit := by
  rw [slotHead, h]
  exact tpsFsTransUnserial_zero _

theorem smallMount_run {img : Nat → Sector smallGeom.sectorShift}
    (hzero : ∀ s, smallGeom.transSecStart ≤ s → img s = fun _ => 0) :
    LogRun smallGeom (smallMount img) ∧ (smallMount img).dev = .boot 16516 img := by
  have hslot := fun i => slotHead_zero (hzero _ (slotSec_ge i))
  have hring : Ring smallGeom img 0 := fun i _ => if_pos (hslot i)
  have hclear : Clear smallGeom img := fun _ i _ _ hok => hok.2 (hslot i)
  obtain ⟨st, hmount, hdev, -⟩ :=
    mountTrans_empty smallGeom_valid hring hclear (fun _ => 0) (0, 0)
  have heq : smallMount img = st := by rw [smallMount, hmount]; rfl
  rw [heq]
  exact ⟨.format hring hclear hmount, hdev⟩

theorem smallBegun_opens {img : Nat → Sector smallGeom.sectorShift}
    (hsome : (tpsFsTransAllocAndInit 0 (smallMount img)).1.isSome = true) :
    (tpsFsTransAllocAndInit 0 (smallMount img)).1 = some (smallBegun img) := by
  obtain ⟨st, hst⟩ := Option.isSome_iff_exists.mp hsome
  rw [smallBegun, hst]
  rfl

theorem emptyDisk_run : LogRun smallGeom (smallMount emptyDisk) ∧
    (smallMount emptyDisk).dev = .boot 16516 emptyDisk := smallMount_run (fun _ _ => rfl)

theorem emptyDisk_opens :
    (tpsFsTransAllocAndInit 0 (smallMount emptyDisk)).1 = some (smallBegun emptyDisk) :=
  smallBegun_opens (by decide +kernel)

theorem commit_atomic_crossing :
    (tpsFsTransCommitAndFree smallGeom none
        (transWrites smallGeom [crossingWrite] (smallBegun emptyDisk)).2).1 = .errNone ∧
      ∀ img, (smallMount emptyDisk).dev.CutBefore (tpsFsTransCommitAndFree smallGeom none
          (transWrites smallGeom [crossingWrite] (smallBegun emptyDisk)).2).2.dev img →
        Clear smallGeom img →
          AtomicAt smallGeom (smallMount emptyDisk).serialNum [crossingWrite]
            (smallMount emptyDisk).dev.med img := by
  refine commit_atomic smallGeom_valid emptyDisk_run.1
    ⟨emptyDisk_opens, by decide, ?_, ?_, ?_, ?_, ?_⟩
  · intro w hw
    rw [Option.getD_none, List.append_nil, List.mem_singleton] at hw
    subst hw
    unfold TransWrite.Inside
    decide +kernel
  · decide +kernel
  · decide +kernel
  · decide +kernel
  · decide +kernel

def fullCommit : TpsResult × Vol smallGeom.sectorShift :=
  tpsFsTransCommitAndFree smallGeom none
    (transWrites smallGeom [fullWrite] (smallBegun emptyDisk)).2

def fullImage : Nat → Sector smallGeom.sectorShift :=
  ((smallMount emptyDisk).dev.med.run fullCommit.2.dev.ios).cur

/-- With the area list behind the log the sector there is neither as before nor as written. -/
theorem full_commit_not_atomic :
    LogRun smallGeom (smallMount emptyDisk) ∧
      (tpsFsTransAllocAndInit 0 (smallMount emptyDisk)).1 = some (smallBegun emptyDisk) ∧
      fullWrite.Inside smallGeom ∧ fullCommit.1 = .errNone ∧
      (smallMount emptyDisk).dev.CutBefore fullCommit.2.dev fullImage ∧
      ¬ AtomicAt smallGeom (smallMount emptyDisk).serialNum [fullWrite]
        (smallMount emptyDisk).dev.med fullImage := by
  have hinside : fullWrite.Inside smallGeom := by
    unfold TransWrite.Inside
    decide +kernel
  refine ⟨emptyDisk_run.1, emptyDisk_opens, hinside, by decide +kernel, ?_, ?_⟩
  · refine ⟨fullCommit.2.dev.ios, ?_, fullCommit.2.dev.ios, [], (List.append_nil _).symm, ?_⟩
    · rw [emptyDisk_run.2]
      exact (List.nil_append _).symm
    · intro s
      refine Medium.cur_mem_run _ _ ?_
      rw [emptyDisk_run.2]
      exact List.mem_singleton.mpr rfl
  · rintro ⟨pre, himage, hor⟩
    have hpre : pre 16512 (0 : Fin 512) = 0 := by
      have hmem := himage 16512
      rw [emptyDisk_run.2] at hmem
      rw [List.mem_singleton.mp hmem]
      rfl
    have hbyte : (mountTrans smallGeom (fun _ => 0) (0, 0) fullImage).map
        (fun r => r.2.dev.med.cur 16512 (0 : Fin 512)) = some 1 := by decide +kernel
    have hcontra : ∀ d, RecoversTo smallGeom d fullImage → d 16512 (0 : Fin 512) = 1 := by
      intro d hrec
      obtain ⟨st, hmount, -, hout⟩ := hrec fullImage .start (fun _ => 0) (0, 0)
      rw [hmount, Option.map_some, Option.some.injEq] at hbyte
      rw [← (hout 16512 (Or.inr (by decide))).1]
      exact hbyte
    rcases hor with ⟨hrec, -⟩ | hrec
    · have hone := hcontra _ hrec
      rw [hpre] at hone
      exact absurd hone (by decide)
    · have hone := hcontra _ hrec
      have hover : (sectorOf (overlay smallGeom [fullWrite] (flatten pre)) 16512 :
          Sector smallGeom.sectorShift) (0 : Fin 512) = pre 16512 (0 : Fin 512) := by
        refine (overlay_outside ?_ (flatten pre) ?_).trans ?_
        · intro w hw
          rw [List.mem_singleton.mp hw]
          exact hinside
        · decide
        · exact flatten_at pre 16512 (by decide)
      rw [hover, hpre] at hone
      exact absurd hone (by decide)

end SylixOS.TpsTrans
