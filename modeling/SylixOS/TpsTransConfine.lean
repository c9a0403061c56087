import SylixOS.StepRuns
import SylixOS.TpsTransAtomic

/-! Where the log is written. Every access of a transaction has a purpose;
those for log data and headers stay inside the log region, and those for the
area list do exactly when it finds room behind the data. -/

namespace SylixOS.TpsTrans
open SylixOS.ByteBuffer SylixOS.SectorDevice SylixOS.StepRuns

variable {G : Geom} {k : Nat}

/-- Sizes that `tpsFsMount` accepts and the macros of `tpsfs_trans.h` can shift by, with byte
addresses of the log in 64 bits. -/
structure Geom.Sized (G : Geom) : Prop where
  sectorShift_ge : 9 ≤ G.sectorShift
  sector_le_blk : G.sectorShift ≤ G.blkShift
  blkShift_ge : 12 ≤ G.blkShift
  log_lt : (G.logStartBlk + G.logBlkCnt) * 2 ^ G.blkShift < 2 ^ 64

structure Geom.Accepted (G : Geom) : Prop where
  transSecCnt_pos : 0 < G.transSecCnt
  rev_lt_dataCnt : G.transRevDataSec < G.transDataCnt

def Geom.InLog (G : Geom) (s : Nat) : Prop :=
  G.logStartBlk ≤ s / G.secPerBlk ∧ s / G.secPerBlk < G.logStartBlk + G.logBlkCnt

instance (G : Geom) (s : Nat) : Decidable (G.InLog s) := inferInstanceAs (Decidable (_ ∧ _))

theorem Geom.inLog_iff (hS : G.Sized) (s : Nat) :
    G.InLog s ↔ G.transSecStart ≤ s ∧ s < G.logEnd := by
  rw [InLog, logEnd_eq_of_le hS.sector_le_blk, transSecStart, shift_eq_of_le hS.sector_le_blk,
    Nat.le_div_iff_mul_le G.secPerBlk_pos, Nat.div_lt_iff_lt_mul G.secPerBlk_pos]

inductive Purpose where
  | logData
  | areaList
  | header
  | home
  deriving DecidableEq

def accesses (p : Purpose) (d d' : Dev k) : List (Purpose × Io k) :=
  (d'.ios.drop d.ios.length).map (Prod.mk p)

theorem accesses_issue (p : Purpose) (d : Dev k) (ios : List (Io k)) :
    accesses p d (d.issue ios) = ios.map (Prod.mk p) := by
  rw [accesses, Dev.issue_ios, List.drop_left]

def commitAreasTrace (G : Geom) (st : Vol G.sectorShift) : List (Purpose × Io G.sectorShift) :=
  if st.areas.length = 0 then []
  else
    accesses .areaList st.dev (writeAreaList G st.areas.length 0 st).2.dev ++
    match writeAreaList G st.areas.length 0 st with
    | (.errNone, st) =>
      match st.dev.sync st.trans.dataSecNum st.trans.dataSecCnt with
      | none => []
      | some dev =>
        accesses .logData st.dev dev ++
        accesses .header dev (writeHead statusCommit { st with dev := dev }).2.dev ++
        match writeHead statusCommit { st with dev := dev } with
        | (false, _) => []
        | (true, st) =>
          accesses .home st.dev (copyAreas G st.areas st).2.dev ++
          match copyAreas G st.areas st with
          | (.errNone, st) => accesses .header st.dev (writeHead statusComplete st).2.dev
          | _ => []
    | _ => []

def commitTrace (G : Geom) (adjustBP : Option (List TransWrite)) (st : Vol G.sectorShift) :
    List (Purpose × Io G.sectorShift) :=
  match adjustBP with
  | none => commitAreasTrace G st
  | some ws =>
    accesses .logData st.dev (transWrites G ws st).2.dev ++
    match transWrites G ws st with
    | (.errNone, st) => commitAreasTrace G st
    | _ => []

structure Stage (st st' : Vol k) : Prop where
  transCurSec : st'.transCurSec = st.transCurSec
  dataCurSec : st'.dataCurSec = st.dataCurSec
  dataSecNum : st'.trans.dataSecNum = st.trans.dataSecNum
  dev : ∃ ios, st'.dev = st.dev.issue ios

theorem Stage.refl (st : Vol k) : Stage st st := ⟨rfl, rfl, rfl, [], (Dev.issue_nil _).symm⟩

theorem Stage.then {st st' st'' : Vol k} (h : Stage st st') (h' : Stage st' st'') :
    Stage st st'' := by
  obtain ⟨ios, hdev⟩ := h.dev
  obtain ⟨ios', hdev'⟩ := h'.dev
  exact ⟨h'.transCurSec.trans h.transCurSec, h'.dataCurSec.trans h.dataCurSec,
    h'.dataSecNum.trans h.dataSecNum, ios ++ ios', by rw [hdev', hdev, Dev.issue_issue]⟩

theorem Stage.secCnt {st st' : Vol k} (h : Stage st st') : st'.dev.secCnt = st.dev.secCnt := by
  obtain ⟨ios, hdev⟩ := h.dev
  rw [hdev, Dev.issue_secCnt]

theorem Keeps.stage {st st' : Vol G.sectorShift} (h : Keeps G st st') : Stage st st' := by
  obtain ⟨ios, hdev, -⟩ := h.dev
  exact ⟨h.transCurSec, h.dataCurSec, h.dataSecNum, ios, hdev⟩

theorem writeHead_dev (status : Nat) (st : Vol k) : ∃ ios,
    (writeHead status st).2.dev = st.dev.issue ios ∧
      ∀ io ∈ ios, ∀ s, io.writes s → s = st.transCurSec := by
  rw [writeHead]
  generalize tpsFsTransSerial { st.trans with status := status } st.secBuff st.transSecOff = p
  obtain ⟨t, buf⟩ := p
  cases hwrite : st.dev.write buf st.transCurSec 1 true with
  | none =>
    simp only [hwrite]
    exact ⟨[], (Dev.issue_nil _).symm, by simp⟩
  | some dev =>
    simp only [hwrite]
    refine ⟨_, (Dev.write_some hwrite).2, ?_⟩
    intro io hio s hs
    simp only [if_true, List.mem_cons, List.not_mem_nil, or_false] at hio
    rcases hio with rfl | rfl
    · simp only [Io.writes] at hs
      omega
    · exact hs.elim

theorem writeHead_stage (status : Nat) (st : Vol k) : Stage st (writeHead status st).2 := by
  obtain ⟨ios, hdev, -⟩ := writeHead_dev status st
  refine ⟨?_, ?_, ?_, ios, hdev⟩
  all_goals
    rw [writeHead]
    simp only [tpsFsTransSerial]
    split <;> rfl

theorem copyArea_stage (a : SecArea) (dataSec fuel : Nat) (j : Int) (st : Vol G.sectorShift) :
    Stage st (copyArea G a dataSec fuel j st).2 := by
  induction fuel generalizing j st with
  | zero => exact Stage.refl st
  | succ fuel ih =>
    rw [copyArea]
    split
    · simp only
      split
      · exact ⟨rfl, rfl, rfl, [], (Dev.issue_nil _).symm⟩
      · split
        · exact ⟨rfl, rfl, rfl, [], (Dev.issue_nil _).symm⟩
        · rename_i b _ _ dev hwrite
          have hone : Stage st { st with
              dev := dev
              sectorBuf := patch st.sectorBuf 0
                (min (u32OfInt (a.secCnt - j)) G.secPerBlk * G.sectorSize) b } :=
            ⟨rfl, rfl, rfl, _, (Dev.write_some hwrite).2⟩
          exact hone.then (ih _ _)
    · exact Stage.refl st

theorem copyAreas_stage (as : List SecArea) (st : Vol G.sectorShift) :
    Stage st (copyAreas G as st).2 := by
  induction as generalizing st with
  | nil => exact Stage.refl st
  | cons a as ih =>
    have hcopy := copyArea_stage a (st.trans.dataSecNum + a.secOff) a.secCnt 0 st
    rw [copyAreas]
    generalize copyArea G a (st.trans.dataSecNum + a.secOff) a.secCnt 0 st = r at hcopy
    obtain ⟨e, st'⟩ := r
    cases e
    case errNone =>
      cases hsync : st'.dev.sync a.secStart a.secCnt with
      | none =>
        simp only [hsync]
        exact hcopy.then ⟨rfl, rfl, rfl, [], (Dev.issue_nil _).symm⟩
      | some dev =>
        simp only [hsync]
        have hdev : Stage st' { st' with dev := dev } := ⟨rfl, rfl, rfl, _, Dev.sync_some hsync⟩
        exact hcopy.then (hdev.then (ih _))
    all_goals exact hcopy

theorem u32_lt (n : Nat) : u32 n < 2 ^ 32 := Nat.mod_lt n (Nat.two_pow_pos 32)

theorem u32_succ (n i : Nat) : u32 (u32 (n + 1) + i) = u32 (n + (i + 1)) := by
  rw [u32, u32, u32, Nat.mod_add_mod, Nat.add_assoc, Nat.add_comm 1 i]

theorem writeAreaList_dev (h9 : 9 ≤ G.sectorShift) (n fuel : Nat) :
    ∀ (t : Nat) (st : Vol G.sectorShift), st.areas.length = n → st.trans.dataSecCnt < 2 ^ 32 →
      n - t * areaPerSec G ≤ fuel →
      ∃ ios, (writeAreaList G fuel (min n (t * areaPerSec G)) st).2.dev = st.dev.issue ios ∧
        (∀ io ∈ ios, ∃ i < listSecs G n - t, ∃ data,
          io = .write (st.trans.dataSecNum + u32 (st.trans.dataSecCnt + i)) 1 data ∧
          st.trans.dataSecNum + u32 (st.trans.dataSecCnt + i) < st.dev.secCnt) ∧
        ∀ m < listSecs G n - t, (∀ i ≤ m,
          st.trans.dataSecNum + u32 (st.trans.dataSecCnt + i) < st.dev.secCnt) →
          ∃ data, .write (st.trans.dataSecNum + u32 (st.trans.dataSecCnt + m)) 1 data ∈ ios := by
  have hn := (areaPerSec_of_shift h9).1
  induction fuel with
  | zero =>
    intro t st _ _ hfuel
    have hdone : listSecs G n - t = 0 := by
      have hiff := lt_listSecs_iff_of_shift h9 t n
      omega
    refine ⟨[], (Dev.issue_nil _).symm, by simp, ?_⟩
    intro m hm
    omega
  | succ fuel ih =>
    intro t st hlen hcnt hfuel
    by_cases hmore : t * areaPerSec G < n
    · have hlt : t < listSecs G n := (lt_listSecs_iff_of_shift h9 t _).mpr hmore
      have hidx : (tpsFsTransSecAreaSerial G st.areas st.areaReserved (t * areaPerSec G)
          st.sectorBuf).1 = min n ((t + 1) * areaPerSec G) := by
        rw [tpsFsTransSecAreaSerial, show (16 : Nat) = 16 + 16 * 0 from rfl,
          secAreaSerialLoop_fst h9, List.length_drop, hlen, Nat.add_mul]
        omega
      rw [show min n (t * areaPerSec G) = t * areaPerSec G by omega, writeAreaList, hlen,
        if_pos hmore]
      generalize tpsFsTransSecAreaSerial G st.areas st.areaReserved (t * areaPerSec G)
        st.sectorBuf = p at hidx
      obtain ⟨j, buf⟩ := p
      obtain rfl : j = min n ((t + 1) * areaPerSec G) := hidx
      have hfirst : u32 (st.trans.dataSecCnt + 0) = st.trans.dataSecCnt := u32_of_lt hcnt
      cases hwrite : st.dev.write buf (st.trans.dataSecNum + st.trans.dataSecCnt) 1 false with
      | none =>
        simp only [hwrite]
        refine ⟨[], (Dev.issue_nil _).symm, by simp, ?_⟩
        intro m _ hroom
        have hhead := hroom 0 (Nat.zero_le m)
        rw [hfirst] at hhead
        rw [st.dev.write_of_le _ _ _ _ hhead] at hwrite
        cases hwrite
      | some dev =>
        obtain ⟨hroom, rfl⟩ := Dev.write_some hwrite
        simp only [hwrite]
        obtain ⟨ios, hdev, hios, hall⟩ := ih (t + 1)
          { st with
            dev := st.dev.issue [.write (st.trans.dataSecNum + st.trans.dataSecCnt) 1
              (sectorOf buf)]
            sectorBuf := buf
            trans := { st.trans with dataSecCnt := u32 (st.trans.dataSecCnt + 1) } }
          hlen (u32_lt _) (by rw [Nat.add_mul]; omega)
        simp only [u32_succ, Dev.issue_secCnt] at hios hall
        refine ⟨.write (st.trans.dataSecNum + st.trans.dataSecCnt) 1 (sectorOf buf) :: ios,
          ?_, ?_, ?_⟩
        · simp only [Bool.false_eq_true, if_false]
          rw [hdev, Dev.issue_issue]
          rfl
        · intro io hio
          rcases List.mem_cons.mp hio with rfl | hio
          · exact ⟨0, by omega, _, by rw [hfirst], by rw [hfirst]; exact hroom⟩
          · obtain ⟨i, hi, hrest⟩ := hios io hio
            exact ⟨i + 1, by omega, hrest⟩
        · intro m hm hdevs
          cases m with
          | zero => exact ⟨_, by rw [hfirst]; exact List.mem_cons_self⟩
          | succ m =>
            obtain ⟨data, hmem⟩ := hall m (by omega) (fun i hi => hdevs (i + 1) (by omega))
            exact ⟨data, List.mem_cons_of_mem _ hmem⟩
    · have hdone : listSecs G n - t = 0 := by
        have hiff := lt_listSecs_iff_of_shift h9 t n
        omega
      refine ⟨[], ?_, by simp, ?_⟩
      · rw [writeAreaList, hlen, if_neg (by omega), Dev.issue_nil]
      · intro m hm
        omega

theorem writeAreaList_stage (fuel i : Nat) (st : Vol G.sectorShift) :
    Stage st (writeAreaList G fuel i st).2 := by
  induction fuel generalizing i st with
  | zero => exact Stage.refl st
  | succ fuel ih =>
    rw [writeAreaList]
    split
    · generalize tpsFsTransSecAreaSerial G st.areas st.areaReserved i st.sectorBuf = p
      obtain ⟨j, buf⟩ := p
      simp only
      split
      · exact ⟨rfl, rfl, rfl, [], (Dev.issue_nil _).symm⟩
      · rename_i dev hwrite
        have hone : Stage st { st with
            dev := dev, sectorBuf := buf
            trans := { st.trans with dataSecCnt := u32 (st.trans.dataSecCnt + 1) } } :=
          ⟨rfl, rfl, rfl, _, (Dev.write_some hwrite).2⟩
        exact hone.then (ih _ _)
    · exact Stage.refl st

/-- The list of `n` areas behind `cnt` sectors of data fits into the log; a count that
overflows starts again below. -/
def ListFits (G : Geom) (dataSecNum cnt n : Nat) : Prop :=
  dataSecNum + min (cnt + listSecs G n) (2 ^ 32) ≤ G.logEnd

instance (G : Geom) (dataSecNum cnt n : Nat) : Decidable (ListFits G dataSecNum cnt n) :=
  inferInstanceAs (Decidable (_ ≤ _))

theorem list_inLog_iff (hS : G.Sized) {st : Vol G.sectorShift}
    (hlo : G.transSecStart ≤ st.trans.dataSecNum)
    (hhi : st.trans.dataSecNum + st.trans.dataSecCnt ≤ G.logEnd)
    (hcnt : st.trans.dataSecCnt < 2 ^ 32) :
    (∀ x ∈ accesses .areaList st.dev (writeAreaList G st.areas.length 0 st).2.dev,
        ∀ s, x.2.writes s → G.InLog s) ↔
      st.dev.secCnt ≤ G.logEnd ∨ ListFits G st.trans.dataSecNum st.trans.dataSecCnt
        st.areas.length := by
  obtain ⟨ios, hdev, hios, hall⟩ := writeAreaList_dev hS.sectorShift_ge st.areas.length
    st.areas.length 0 st rfl hcnt (Nat.sub_le _ _)
  rw [Nat.zero_mul, Nat.min_zero] at hdev
  simp only [hdev, accesses_issue, List.forall_mem_map, Geom.inLog_iff hS, Nat.sub_zero]
    at hios hall ⊢
  constructor
  · intro hin
    by_contra hout
    rw [not_or, ListFits] at hout
    -- the first sector behind the log takes a part of the list
    generalize hm : G.logEnd - (st.trans.dataSecNum + st.trans.dataSecCnt) = m
    have hpos : ∀ i ≤ m, u32 (st.trans.dataSecCnt + i) = st.trans.dataSecCnt + i :=
      fun i hi => u32_of_lt (by omega)
    obtain ⟨data, hmem⟩ := hall m (by omega) (fun i hi => by rw [hpos i hi]; omega)
    have hlast := (hin _ hmem _ ⟨le_rfl, Nat.lt_succ_self _⟩).2
    rw [hpos m le_rfl] at hlast
    omega
  · intro hfits io hio s hs
    obtain ⟨i, hi, data, rfl, hsec⟩ := hios io hio
    simp only [Io.writes] at hs
    obtain rfl : s = st.trans.dataSecNum + u32 (st.trans.dataSecCnt + i) := by omega
    refine ⟨by omega, ?_⟩
    rcases hfits with hend | hfits
    · omega
    · have hle : u32 (st.trans.dataSecCnt + i) ≤ st.trans.dataSecCnt + i := Nat.mod_le _ _
      have hlt := u32_lt (st.trans.dataSecCnt + i)
      rw [ListFits] at hfits
      omega

structure Logged (G : Geom) (runs : List (Nat × Nat)) (st st' : Vol G.sectorShift) : Prop where
  keeps : Keeps G st st'
  record : (st'.areas, st'.trans.dataSecCnt) =
    runs.foldl recordRun (st.areas, st.trans.dataSecCnt)
  dataHi : st.trans.dataSecNum + st.trans.dataSecCnt ≤ G.logEnd →
    st'.trans.dataSecNum + st'.trans.dataSecCnt ≤ G.logEnd
  small : st.trans.dataSecCnt < 2 ^ 32 → st'.trans.dataSecCnt < 2 ^ 32

theorem Logged.refl (st : Vol G.sectorShift) : Logged G [] st st := ⟨Keeps.refl st, rfl, id, id⟩

theorem Logged.then {runs runs' : List (Nat × Nat)} {st st' st'' : Vol G.sectorShift}
    (h : Logged G runs st st') (h' : Logged G runs' st' st'') :
    Logged G (runs ++ runs') st st'' :=
  ⟨h.keeps.then h'.keeps, by rw [h'.record, h.record, List.foldl_append], h'.dataHi ∘ h.dataHi,
    h'.small ∘ h.small⟩

theorem tpsFsTransPutData_logged {buf : Bytes} {n c : Nat} {st st' : Vol G.sectorShift}
    (hok : tpsFsTransPutData G buf n c st = (.errNone, st')) : Logged G [(n, c)] st st' := by
  have hkeeps := tpsFsTransPutData_keeps buf n c st
  rw [hok] at hkeeps
  rw [tpsFsTransPutData] at hok
  split at hok
  · cases hok
  · rename_i hfit
    rw [not_putOverflows_iff] at hfit
    simp only at hok
    split at hok
    · cases hok
    · obtain ⟨-, rfl⟩ := Prod.mk.inj hok
      have hle : u32 (st.trans.dataSecCnt + c) ≤ st.trans.dataSecCnt + c := Nat.mod_le _ _
      refine ⟨hkeeps, rfl, fun _ => ?_, fun _ => u32_lt _⟩
      simp only
      omega

theorem toBufWrite_eq_ok {r : TpsResult × Vol k} {st : Vol k}
    (h : toBufWrite r = (.errNone, st)) : r = (.errNone, st) := by
  obtain ⟨e, st'⟩ := r
  cases e <;> simp_all [toBufWrite]

theorem modifySector_logged {sec off len : Nat} {src : Bytes} {st st' : Vol G.sectorShift}
    (hok : modifySector G sec off len src st = (.errNone, st')) : Logged G [(sec, 1)] st st' := by
  have hkeeps := modifySector_keeps sec off len src st
  rw [hok] at hkeeps
  rw [modifySector] at hok
  split at hok
  · cases hok
  · have hput := tpsFsTransPutData_logged (toBufWrite_eq_ok hok)
    exact ⟨hkeeps, hput.record, hput.dataHi, hput.small⟩

theorem tpsFsTransWrite_logged {blk off len : Nat} {buff : Bytes} {st st' : Vol G.sectorShift}
    (hok : tpsFsTransWrite G blk off buff len st = (.errNone, st')) :
    Logged G (accessRuns (access G blk off len)) st st' := by
  rw [tpsFsTransWrite, andThen_eq_ok] at hok
  obtain ⟨st2, hok, htail⟩ := hok
  rw [andThen_eq_ok] at hok
  obtain ⟨st1, hhead, hmid⟩ := hok
  have hhead' : Logged G
      (if (access G blk off len).secOff ≠ 0 then [((access G blk off len).secNum, 1)] else [])
      st st1 := by
    split_ifs at hhead ⊢
    · exact modifySector_logged hhead
    · obtain ⟨-, rfl⟩ := Prod.mk.inj hhead
      exact Logged.refl st
  have hmid' : Logged G
      (if 0 < (access G blk off len).secCnt then
        [((access G blk off len).midSec, (access G blk off len).secCnt)] else []) st1 st2 := by
    split_ifs at hmid ⊢
    · exact tpsFsTransPutData_logged (toBufWrite_eq_ok hmid)
    · obtain ⟨-, rfl⟩ := Prod.mk.inj hmid
      exact Logged.refl st1
  have htail' : Logged G
      (if 0 < (access G blk off len).tailLen then
        [((access G blk off len).midSec + (access G blk off len).secCnt, 1)] else []) st2 st' := by
    split_ifs at htail ⊢
    · exact modifySector_logged htail
    · obtain ⟨-, rfl⟩ := Prod.mk.inj htail
      exact Logged.refl st2
  exact (hhead'.then hmid').then htail'

theorem transWrites_logged {ws : List TransWrite} {st st' : Vol G.sectorShift}
    (hok : transWrites G ws st = (.errNone, st')) :
    Logged G (ws.flatMap (TransWrite.runs G)) st st' := by
  induction ws generalizing st with
  | nil =>
    obtain ⟨-, rfl⟩ := Prod.mk.inj hok
    exact Logged.refl st
  | cons w ws ih =>
    rw [transWrites, andThen_eq_ok] at hok
    obtain ⟨st1, hfirst, hrest⟩ := hok
    rw [List.flatMap_cons]
    exact (tpsFsTransWrite_logged hfirst).then (ih hrest)

theorem issue_accesses (p : Purpose) {d d' : Dev k} (h : ∃ ios, d' = d.issue ios) :
    d.issue ((accesses p d d').map Prod.snd) = d' := by
  obtain ⟨ios, rfl⟩ := h
  rw [accesses_issue, List.map_map]
  exact congrArg d.issue (List.map_id ios)

theorem commitAreas_dev (st : Vol G.sectorShift) :
    (commitAreas G st).2.dev = st.dev.issue ((commitAreasTrace G st).map Prod.snd) := by
  rw [commitAreas, commitAreasTrace]
  by_cases hnone : st.areas.length = 0
  · rw [if_pos hnone, if_pos hnone, List.map_nil, Dev.issue_nil]
    rfl
  · have hlist := (writeAreaList_stage st.areas.length 0 st).dev
    rw [if_neg hnone, if_neg hnone, List.map_append, ← Dev.issue_issue, issue_accesses _ hlist]
    clear hlist
    generalize writeAreaList G st.areas.length 0 st = r
    obtain ⟨e, st⟩ := r
    cases e
    case errNone =>
      cases hsync : st.dev.sync st.trans.dataSecNum st.trans.dataSecCnt with
      | none => simp only [hsync, List.map_nil, Dev.issue_nil]
      | some dev =>
        have hcommit := (writeHead_stage statusCommit { st with dev := dev }).dev
        simp only [hsync]
        rw [List.map_append, List.map_append, ← Dev.issue_issue, ← Dev.issue_issue,
          issue_accesses _ ⟨_, Dev.sync_some hsync⟩, issue_accesses _ hcommit]
        clear hcommit
        generalize writeHead statusCommit { st with dev := dev } = r
        obtain ⟨ok, st⟩ := r
        cases ok with
        | false => simp only [List.map_nil, Dev.issue_nil, setStatus]
        | true =>
          have hcopy := (copyAreas_stage st.areas st).dev
          simp only
          rw [List.map_append, ← Dev.issue_issue, issue_accesses _ hcopy]
          clear hcopy
          generalize copyAreas G st.areas st = r
          obtain ⟨e, st⟩ := r
          cases e
          case errNone =>
            have hcomplete := (writeHead_stage statusComplete st).dev
            simp only
            rw [issue_accesses _ hcomplete]
            generalize writeHead statusComplete st = r
            obtain ⟨ok, st⟩ := r
            cases ok with
            | false => rfl
            | true =>
              simp only [nextSlot]
              split <;> rfl
          all_goals exact (Dev.issue_nil _).symm
    all_goals exact (Dev.issue_nil _).symm

theorem tpsFsTransCommitAndFree_dev (adjustBP : Option (List TransWrite))
    (st : Vol G.sectorShift) : (tpsFsTransCommitAndFree G adjustBP st).2.dev =
      st.dev.issue ((commitTrace G adjustBP st).map Prod.snd) := by
  rw [tpsFsTransCommitAndFree.eq_def, commitTrace.eq_def]
  cases adjustBP with
  | none => exact commitAreas_dev st
  | some ws =>
    have hwrites := (transWrites_keeps ws st).stage.dev
    simp only
    rw [List.map_append, ← Dev.issue_issue, issue_accesses _ hwrites]
    generalize transWrites G ws st = r
    obtain ⟨e, st⟩ := r
    cases e
    case errNone => exact commitAreas_dev st
    all_goals exact (Dev.issue_nil _).symm

def LogInside (G : Geom) (x : Purpose × Io k) : Prop :=
  x.1 ≠ .home → ∀ s, x.2.writes s → G.InLog s

theorem logInside_logData (hS : G.Sized) {st st' : Vol G.sectorShift} (h : Keeps G st st')
    (hlo : G.transSecStart ≤ st.trans.dataSecNum) :
    ∀ x ∈ accesses .logData st.dev st'.dev, LogInside G x := by
  obtain ⟨ios, hdev, hios⟩ := h.dev
  rw [hdev, accesses_issue, List.forall_mem_map]
  intro io hio _ s hs
  obtain ⟨sec, cnt, data, rfl, h1, h2⟩ := hios io hio
  simp only [Io.writes] at hs
  rw [Geom.inLog_iff hS]
  omega

theorem logInside_sync {d : Dev k} (sec cnt : Nat) :
    ∀ x ∈ accesses .logData d (d.issue [.sync sec cnt]), LogInside G x := by
  rw [accesses_issue, List.forall_mem_map]
  intro io hio _ s hs
  rw [List.mem_singleton.mp hio] at hs
  exact hs.elim

theorem logInside_header (hS : G.Sized) (status : Nat) (st : Vol k)
    (hlo : G.transSecStart ≤ st.transCurSec) (hhi : st.transCurSec < G.logEnd) :
    ∀ x ∈ accesses .header st.dev (writeHead status st).2.dev, LogInside G x := by
  obtain ⟨ios, hdev, hios⟩ := writeHead_dev status st
  rw [hdev, accesses_issue, List.forall_mem_map]
  intro io hio _ s hs
  rw [hios io hio s hs, Geom.inLog_iff hS]
  exact ⟨hlo, hhi⟩

theorem logInside_home (d d' : Dev k) : ∀ x ∈ accesses .home d d', LogInside G x := by
  rw [accesses, List.forall_mem_map]
  exact fun io _ hne => absurd rfl hne

theorem logInside_areaList (d d' : Dev k) : (∀ x ∈ accesses .areaList d d', LogInside G x) ↔
    ∀ x ∈ accesses .areaList d d', ∀ s, x.2.writes s → G.InLog s := by
  rw [accesses, List.forall_mem_map, List.forall_mem_map]
  simp [LogInside]

theorem commitAreasTrace_inside_iff (hS : G.Sized) {st : Vol G.sectorShift}
    (hcurLo : G.transSecStart ≤ st.transCurSec) (hcurHi : st.transCurSec < G.logEnd)
    (hlo : G.transSecStart ≤ st.trans.dataSecNum)
    (hhi : st.trans.dataSecNum + st.trans.dataSecCnt ≤ G.logEnd)
    (hcnt : st.trans.dataSecCnt < 2 ^ 32) :
    (∀ x ∈ commitAreasTrace G st, LogInside G x) ↔
      st.dev.secCnt ≤ G.logEnd ∨ ListFits G st.trans.dataSecNum st.trans.dataSecCnt
        st.areas.length := by
  rw [← list_inLog_iff hS hlo hhi hcnt, ← logInside_areaList, commitAreasTrace]
  by_cases hnone : st.areas.length = 0
  · rw [if_pos hnone, hnone, writeAreaList]
    simp [accesses]
  · rw [if_neg hnone, List.forall_mem_append]
    refine ⟨And.left, fun hlist => ⟨hlist, ?_⟩⟩
    have hst := writeAreaList_stage (G := G) st.areas.length 0 st
    clear hlist
    generalize writeAreaList G st.areas.length 0 st = r at hst
    obtain ⟨e, st1⟩ := r
    cases e
    case errNone =>
      simp only at hst ⊢
      rw [← hst.transCurSec] at hcurLo hcurHi
      cases hsync : st1.dev.sync st1.trans.dataSecNum st1.trans.dataSecCnt with
      | none => simp
      | some dev =>
        have hhead := writeHead_stage statusCommit { st1 with dev := dev }
        simp only
        rw [List.forall_mem_append, List.forall_mem_append]
        refine ⟨⟨?_, logInside_header hS _ { st1 with dev := dev } hcurLo hcurHi⟩, ?_⟩
        · rw [Dev.sync_some hsync]
          exact logInside_sync _ _
        · generalize writeHead statusCommit { st1 with dev := dev } = r at hhead
          obtain ⟨ok, st2⟩ := r
          cases ok with
          | false => simp
          | true =>
            have hcopy := copyAreas_stage st2.areas st2
            simp only at hhead ⊢
            rw [List.forall_mem_append]
            refine ⟨logInside_home _ _, ?_⟩
            generalize copyAreas G st2.areas st2 = r at hcopy
            obtain ⟨e, st3⟩ := r
            cases e
            case errNone =>
              have hcur : st3.transCurSec = st1.transCurSec :=
                hcopy.transCurSec.trans hhead.transCurSec
              exact logInside_header hS _ st3 (by rw [hcur]; exact hcurLo)
                (by rw [hcur]; exact hcurHi)
            all_goals simp
    all_goals simp

structure LogCursors (G : Geom) (st : Vol G.sectorShift) : Prop where
  secCnt : st.dev.secCnt = G.secCnt
  curLo : G.transSecStart ≤ st.transCurSec
  curHi : st.transCurSec < G.transDataStart
  dataLo : G.transDataStart ≤ st.dataCurSec
  dataHi : st.dataCurSec ≤ G.logEnd

theorem LogCursors.stage {st st' : Vol G.sectorShift} (h : LogCursors G st) (hst : Stage st st') :
    LogCursors G st' := by
  refine ⟨hst.secCnt.trans h.secCnt, ?_, ?_, ?_, ?_⟩
  · rw [hst.transCurSec]
    exact h.curLo
  · rw [hst.transCurSec]
    exact h.curHi
  · rw [hst.dataCurSec]
    exact h.dataLo
  · rw [hst.dataCurSec]
    exact h.dataHi

theorem nextSlot_cursor (hA : G.Accepted) {st : Vol k} (hlo : G.transSecStart ≤ st.transCurSec)
    (hhi : st.transCurSec < G.transDataStart) :
    G.transSecStart ≤ (nextSlot G st).transCurSec ∧
      (nextSlot G st).transCurSec < G.transDataStart := by
  have hpos := hA.transSecCnt_pos
  rw [Geom.transDataStart] at hhi ⊢
  simp only [nextSlot]
  split
  · simp only
    split <;> omega
  · exact ⟨hlo, hhi⟩

theorem nextSlot_dev (st : Vol k) : (nextSlot G st).dev = st.dev := by
  rw [nextSlot]
  split <;> rfl

theorem nextSlot_trans (st : Vol k) : (nextSlot G st).trans = st.trans := by
  rw [nextSlot]
  split <;> rfl

theorem nextDataSec_cursor {x : Nat} (hx : G.transDataStart ≤ x) :
    G.transDataStart ≤ nextDataSec G x ∧ nextDataSec G x ≤ G.logEnd := by
  rw [nextDataSec, Geom.logEnd]
  split <;> omega

theorem LogCursors.commitAreas (hA : G.Accepted) {st : Vol G.sectorShift} (h : LogCursors G st)
    (hlo : G.transDataStart ≤ st.trans.dataSecNum) :
    LogCursors G (commitAreas G st).2 := by
  rw [TpsTrans.commitAreas]
  split
  · exact ⟨h.secCnt, h.curLo, h.curHi, h.dataLo, h.dataHi⟩
  · have hlist := writeAreaList_stage (G := G) st.areas.length 0 st
    generalize writeAreaList G st.areas.length 0 st = r at hlist
    obtain ⟨e, st1⟩ := r
    cases e
    case errNone =>
      cases hsync : st1.dev.sync st1.trans.dataSecNum st1.trans.dataSecCnt with
      | none =>
        simp only [hsync]
        exact h.stage hlist
      | some dev =>
        have hflush : Stage st1 { st1 with dev := dev } := ⟨rfl, rfl, rfl, _, Dev.sync_some hsync⟩
        have hcommit := (hlist.then hflush).then (writeHead_stage statusCommit _)
        simp only [hsync]
        generalize writeHead statusCommit { st1 with dev := dev } = r at hcommit
        obtain ⟨ok, st2⟩ := r
        cases ok with
        | false => exact h.stage ⟨hcommit.transCurSec, hcommit.dataCurSec, hcommit.dataSecNum,
            hcommit.dev⟩
        | true =>
          have hcopy := hcommit.then (copyAreas_stage st2.areas st2)
          simp only
          generalize copyAreas G st2.areas st2 = r at hcopy
          obtain ⟨e, st3⟩ := r
          cases e
          case errNone =>
            have hdone := hcopy.then (writeHead_stage statusComplete st3)
            simp only
            generalize writeHead statusComplete st3 = r at hdone
            obtain ⟨ok, st4⟩ := r
            cases ok with
            | false => exact h.stage ⟨hdone.transCurSec, hdone.dataCurSec, hdone.dataSecNum,
                hdone.dev⟩
            | true =>
              have hfinal := h.stage hdone
              have hcur := nextSlot_cursor hA hfinal.curLo hfinal.curHi
              have hdata := nextDataSec_cursor (G := G)
                (x := st4.trans.dataSecNum + st4.trans.dataSecCnt)
                (by rw [hdone.dataSecNum]; omega)
              refine ⟨?_, hcur.1, hcur.2, ?_, ?_⟩
              · rw [nextSlot_dev]
                exact hfinal.secCnt
              · simp only [nextSlot_trans]
                exact hdata.1
              · simp only [nextSlot_trans]
                exact hdata.2
          all_goals exact h.stage hcopy
    all_goals exact h.stage hlist

structure Txn where
  time : Nat
  writes : List TransWrite
  adjustBP : Option (List TransWrite)

def Txn.allWrites (x : Txn) : List TransWrite := x.writes ++ x.adjustBP.getD []

structure LogTrace (G : Geom) where
  vol : Vol G.sectorShift
  written : List (Purpose × Io G.sectorShift)

/-- One transaction: opened, its writes all accepted, committed with or without success. -/
def txnStep (G : Geom) (t : LogTrace G) (x : Txn) : Option (LogTrace G) :=
  match (tpsFsTransAllocAndInit x.time t.vol).1 with
  | none => none
  | some st =>
    match transWrites G x.writes st with
    | (.errNone, st') =>
      some { vol := (tpsFsTransCommitAndFree G x.adjustBP st').2
             written := t.written ++ accesses .logData st.dev st'.dev ++
               commitTrace G x.adjustBP st' }
    | _ => none

def Confined (G : Geom) (t : LogTrace G) : Prop := ∀ x ∈ t.written, LogInside G x

def recorded (G : Geom) (ws : List TransWrite) : List SecArea × Nat :=
  (ws.flatMap (TransWrite.runs G)).foldl recordRun ([], 0)

def ListRoom (G : Geom) (t : LogTrace G) (x : Txn) : Prop :=
  G.secCnt ≤ G.logEnd ∨ ∀ st, (tpsFsTransAllocAndInit x.time t.vol).1 = some st →
    (transWrites G x.allWrites st).1 = .errNone →
    ListFits G t.vol.dataCurSec (recorded G x.allWrites).2 (recorded G x.allWrites).1.length

theorem listRoom_iff {t : LogTrace G} {x : Txn} {st st' : Vol G.sectorShift}
    (hopen : (tpsFsTransAllocAndInit x.time t.vol).1 = some st)
    (hws : transWrites G x.allWrites st = (.errNone, st')) :
    ListRoom G t x ↔ G.secCnt ≤ G.logEnd ∨
      ListFits G st'.trans.dataSecNum st'.trans.dataSecCnt st'.areas.length := by
  have hlog := transWrites_logged hws
  have hrec : (st'.areas, st'.trans.dataSecCnt) = recorded G x.allWrites := by
    rw [hlog.record, tpsFsTransAllocAndInit_some hopen]
    rfl
  have hnum : st'.trans.dataSecNum = t.vol.dataCurSec := by
    rw [hlog.keeps.dataSecNum, tpsFsTransAllocAndInit_some hopen]
  rw [ListRoom, ← hrec, hnum]
  simp only [hopen, Option.some.injEq, forall_eq', hws, true_imp_iff]

theorem listRoom_of_refused {t : LogTrace G} {x : Txn} {st : Vol G.sectorShift}
    (hopen : (tpsFsTransAllocAndInit x.time t.vol).1 = some st)
    (hws : (transWrites G x.allWrites st).1 ≠ .errNone) : ListRoom G t x := by
  refine Or.inr fun st' hst' hok => absurd hok ?_
  obtain rfl : st = st' := Option.some.inj (hopen.symm.trans hst')
  exact hws

theorem commitAreas_confined (hS : G.Sized) (hA : G.Accepted) {t : LogTrace G} {x : Txn}
    {st st' : Vol G.sectorShift} (h : LogCursors G t.vol)
    (hopen : (tpsFsTransAllocAndInit x.time t.vol).1 = some st)
    (hws : transWrites G x.allWrites st = (.errNone, st')) :
    LogCursors G (commitAreas G st').2 ∧
      ((∀ y ∈ commitAreasTrace G st', LogInside G y) ↔ ListRoom G t x) := by
  have hst := tpsFsTransAllocAndInit_some hopen
  have hlog := transWrites_logged hws
  have hcur : LogCursors G st' := by
    refine LogCursors.stage ?_ hlog.keeps.stage
    rw [hst]
    exact ⟨h.secCnt, h.curLo, h.curHi, h.dataLo, h.dataHi⟩
  have hnum : st'.trans.dataSecNum = t.vol.dataCurSec := by rw [hlog.keeps.dataSecNum, hst]
  have hhi := hlog.dataHi (by rw [hst]; exact h.dataHi)
  have hcnt := hlog.small (by rw [hst]; exact Nat.two_pow_pos 32)
  have hlo := h.dataLo
  have hstart : G.transSecStart ≤ G.transDataStart := Nat.le_add_right _ _
  have hend := G.dataStart_le_logEnd
  have hcurHi := hcur.curHi
  refine ⟨hcur.commitAreas hA (by omega), ?_⟩
  rw [listRoom_iff hopen hws, ← hcur.secCnt]
  exact commitAreasTrace_inside_iff hS hcur.curLo (by omega) (by omega) hhi hcnt

theorem commit_confined (hS : G.Sized) (hA : G.Accepted) {t : LogTrace G} {x : Txn}
    {st st1 : Vol G.sectorShift} (h : LogCursors G t.vol)
    (hopen : (tpsFsTransAllocAndInit x.time t.vol).1 = some st)
    (hws : transWrites G x.writes st = (.errNone, st1)) :
    LogCursors G (tpsFsTransCommitAndFree G x.adjustBP st1).2 ∧
      ((∀ y ∈ commitTrace G x.adjustBP st1, LogInside G y) ↔ ListRoom G t x) := by
  have hall : transWrites G x.allWrites st = transWrites G (x.adjustBP.getD []) st1 := by
    rw [Txn.allWrites, transWrites_append, hws]
    rfl
  rw [tpsFsTransCommitAndFree.eq_def, commitTrace.eq_def]
  cases hadj : x.adjustBP with
  | none =>
    rw [hadj] at hall
    exact commitAreas_confined hS hA h hopen hall
  | some ws =>
    rw [hadj, Option.getD_some] at hall
    have hst := tpsFsTransAllocAndInit_some hopen
    have hlog := transWrites_logged hws
    have hkeeps := transWrites_keeps ws st1
    have hnum : st1.trans.dataSecNum = t.vol.dataCurSec := by rw [hlog.keeps.dataSecNum, hst]
    have hdata := logInside_logData hS hkeeps (by
      rw [hnum]
      exact (Nat.le_add_right _ _).trans h.dataLo)
    simp only
    rw [List.forall_mem_append]
    generalize transWrites G ws st1 = r at hall hdata hkeeps
    obtain ⟨e, st2⟩ := r
    by_cases hok : e = .errNone
    · subst hok
      obtain ⟨hcur, hiff⟩ := commitAreas_confined hS hA h hopen hall
      exact ⟨hcur, ⟨fun hin => hiff.mp hin.2, fun hroom => ⟨hdata, hiff.mpr hroom⟩⟩⟩
    · have hroom : ListRoom G t x := listRoom_of_refused hopen (by rw [hall]; exact hok)
      have hcur : LogCursors G st2 := by
        refine LogCursors.stage ?_ (hlog.keeps.stage.then hkeeps.stage)
        rw [hst]
        exact ⟨h.secCnt, h.curLo, h.curHi, h.dataLo, h.dataHi⟩
      cases e
      case errNone => exact absurd rfl hok
      all_goals exact ⟨hcur, ⟨fun _ => hroom, fun _ => ⟨hdata, by simp⟩⟩⟩

theorem txnStep_spec (hS : G.Sized) (hA : G.Accepted) {t t' : LogTrace G} {x : Txn}
    (h : LogCursors G t.vol) (hstep : txnStep G t x = some t') :
    LogCursors G t'.vol ∧ ∃ new, t'.written = t.written ++ new ∧
      t'.vol.dev = t.vol.dev.issue (new.map Prod.snd) ∧
      ((∀ y ∈ new, LogInside G y) ↔ ListRoom G t x) := by
  rw [txnStep] at hstep
  cases hopen : (tpsFsTransAllocAndInit x.time t.vol).1 with
  | none => simp [hopen] at hstep
  | some st =>
    have hst := tpsFsTransAllocAndInit_some hopen
    have hdev : st.dev = t.vol.dev := by rw [hst]
    have hlo : G.transSecStart ≤ st.trans.dataSecNum := by
      rw [hst]
      exact (Nat.le_add_right _ _).trans h.dataLo
    cases hws : transWrites G x.writes st with
    | mk e st1 =>
      cases e
      case errNone =>
        simp only [hopen, hws, Option.some.injEq] at hstep
        subst hstep
        have hlog := transWrites_logged hws
        have hdata := logInside_logData hS hlog.keeps hlo
        obtain ⟨hcur, hiff⟩ := commit_confined hS hA h hopen hws
        refine ⟨hcur, _, List.append_assoc _ _ _, ?_, ?_⟩
        · rw [List.map_append, ← Dev.issue_issue, ← hdev, issue_accesses _ hlog.keeps.stage.dev]
          exact tpsFsTransCommitAndFree_dev _ _
        · rw [List.forall_mem_append, ← hiff]
          exact and_iff_right hdata
      all_goals simp [hopen, hws] at hstep

/-- Where runs start: the log as `tpsFsBtreeTransInit` sets it up, or as any history of mounts,
power losses and transactions leaves it. -/
inductive Started (G : Geom) : Vol G.sectorShift → Prop where
  | init {dev : Dev G.sectorShift} {sectorBuf : Bytes} {areaReserved : Nat × Nat}
      {st : Vol G.sectorShift} (hdev : dev.secCnt = G.secCnt)
      (h : tpsFsBtreeTransInit G dev sectorBuf areaReserved = some st) : Started G st
  | history {st : Vol G.sectorShift} (hG : G.Valid) (h : LogRun G st) : Started G st

theorem Started.spec {st : Vol G.sectorShift} (h : Started G st) :
    G.Accepted ∧ LogCursors G st := by
  cases h with
  | init hdev h =>
    rw [tpsFsBtreeTransInit] at h
    split_ifs at h with hcnt hdata
    have hA : G.Accepted := ⟨by omega, by omega⟩
    have hpos := hA.transSecCnt_pos
    obtain rfl := Option.some.inj h
    refine ⟨hA, hdev, le_rfl, ?_, le_rfl, G.dataStart_le_logEnd⟩
    simp only [Geom.transDataStart]
    omega
  | history hG h =>
    have hstate := h.logState hG
    have hok := hstate.logOk hG
    exact ⟨⟨hG.transSecCnt_pos, hG.rev_lt_dataCnt⟩, hok.secCnt, hok.slotLo, hok.slotHi,
      hstate.dataLo, le_of_lt (lt_of_le_of_lt (Nat.le_add_right _ _) hstate.dataHi)⟩

/-- In every run the log is written inside its region throughout exactly when each transaction
has room for its area list. -/
theorem log_confined_iff (hS : G.Sized) {st : Vol G.sectorShift} (h : Started G st)
    (txns : List Txn) :
    Visits (txnStep G) (Confined G) { vol := st, written := [] } txns ↔
      Obeys (txnStep G) (ListRoom G) { vol := st, written := [] } txns := by
  obtain ⟨hA, hcur⟩ := h.spec
  refine visits_iff_obeys (I := fun t => LogCursors G t.vol ∧ Confined G t) ?_ ?_ ?_ ?_
  · rintro t x t' ⟨hcur, hin⟩ hroom hstep
    obtain ⟨hcur', new, hnew, -, hiff⟩ := txnStep_spec hS hA hcur hstep
    refine ⟨hcur', ?_⟩
    rw [Confined, hnew, List.forall_mem_append]
    exact ⟨hin, hiff.mpr hroom⟩
  · exact fun t ht => ht.2
  · rintro t x t' ⟨hcur, -⟩ hstep hin
    obtain ⟨-, new, hnew, -, hiff⟩ := txnStep_spec hS hA hcur hstep
    rw [Confined, hnew, List.forall_mem_append] at hin
    exact hiff.mp hin.2
  · exact ⟨hcur, by simp [Confined]⟩

theorem smallGeom_sized : smallGeom.Sized :=
  ⟨by decide, by decide, by decide, by decide⟩

theorem smallVol_started : Started smallGeom smallVol := by
  have hinit : tpsFsBtreeTransInit smallGeom (.boot 16516 (fun _ _ => 0)) (fun _ => 0) (0, 0) =
      some smallVol := rfl
  exact .init rfl hinit

def smallTxn (ws : List TransWrite) : Txn := { time := 0, writes := ws, adjustBP := none }

theorem log_confined_crossing :
    Visits (txnStep smallGeom) (Confined smallGeom) { vol := smallVol, written := [] }
      [smallTxn [crossingWrite]] := by
  refine (log_confined_iff smallGeom_sized smallVol_started _).mpr ?_
  intro t _
  refine ⟨Or.inr ?_, trivial⟩
  intro st _ _
  decide +kernel

/-- The transaction that fills the log puts its area list into the sector behind it. -/
theorem area_list_leaves_log :
    Started smallGeom smallVol ∧
      ¬ Visits (txnStep smallGeom) (Confined smallGeom) { vol := smallVol, written := [] }
        [smallTxn [fullWrite]] := by
  refine ⟨smallVol_started, ?_⟩
  rintro ⟨-, hvisits⟩
  obtain ⟨hA, hcur⟩ := smallVol_started.spec
  obtain ⟨t, hstep⟩ : ∃ t, txnStep smallGeom { vol := smallVol, written := [] }
      (smallTxn [fullWrite]) = some t := Option.isSome_iff_exists.mp (by decide +kernel)
  obtain ⟨-, new, hnew, -, hiff⟩ := txnStep_spec smallGeom_sized hA hcur hstep
  have hin := (hvisits t hstep).first
  rw [Confined, hnew, List.nil_append] at hin
  rcases hiff.mp hin with hend | hfits
  · exact absurd hend (by decide)
  · exact absurd (hfits smallOpen smallVol_opens (by decide +kernel)) (by decide +kernel)

end SylixOS.TpsTrans
