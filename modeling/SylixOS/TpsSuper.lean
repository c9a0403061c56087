import SylixOS.TpsTransAtomic

/-! The super block of tpsFs (`tpsfs_super.c`) and mount: sector 0 is
decoded first, then the log is recovered, and the decoded super block stays
in use. -/

namespace SylixOS.TpsSuper
open SylixOS.ByteBuffer SylixOS.SectorDevice SylixOS.TpsTrans

structure SuperBlock where
  magic : Nat
  version : Nat
  sectorSize : Nat
  secPerBlk : Nat
  blkSize : Nat
  flags : Nat
  generation : Nat
  totalBlkCnt : Nat
  dataStartBlk : Nat
  dataBlkCnt : Nat
  logStartBlk : Nat
  logBlkCnt : Nat
  bpStartBlk : Nat
  bpBlkCnt : Nat
  inumSpaceMng : Nat
  inumRoot : Nat
  inumDeleted : Nat
  deriving DecidableEq, Repr

def tpsFsSBUnserial (buf : Bytes) : SuperBlock :=
  { magic := getLE 4 buf 0, version := getLE 4 buf 4, sectorSize := getLE 4 buf 8
    secPerBlk := getLE 4 buf 12, blkSize := getLE 4 buf 16, flags := getLE 4 buf 20
    generation := getLE 8 buf 24, totalBlkCnt := getLE 8 buf 32
    dataStartBlk := getLE 8 buf 40, dataBlkCnt := getLE 8 buf 48
    logStartBlk := getLE 8 buf 56, logBlkCnt := getLE 8 buf 64
    bpStartBlk := getLE 8 buf 72, bpBlkCnt := getLE 8 buf 80
    inumSpaceMng := getLE 8 buf 88, inumRoot := getLE 8 buf 96, inumDeleted := getLE 8 buf 104 }

def tpsFsSBSerial (sb : SuperBlock) (buf : Bytes) : Bytes :=
  putFields buf 0
    [(4, sb.magic), (4, sb.version), (4, sb.sectorSize), (4, sb.secPerBlk), (4, sb.blkSize),
      (4, sb.flags), (8, sb.generation), (8, sb.totalBlkCnt), (8, sb.dataStartBlk),
      (8, sb.dataBlkCnt), (8, sb.logStartBlk), (8, sb.logBlkCnt), (8, sb.bpStartBlk),
      (8, sb.bpBlkCnt), (8, sb.inumSpaceMng), (8, sb.inumRoot), (8, sb.inumDeleted)]

def tpsFsFlushSuperBlock (k : Nat) (sb : SuperBlock) (buf : Bytes) : TransWrite :=
  { blk := 0, off := 0, buff := tpsFsSBSerial sb buf, len := 2 ^ k }

def archFindMsb (n : Nat) : Nat := if n = 0 then 0 else Nat.log2 n + 1

def magicSuperBlock1 : Nat := 0xad348878
def magicSuperBlock2 : Nat := 0xad348879
def curVersion : Nat := 2

inductive MountError where
  | errorNone
  | errSectorSize
  | eio
  | eftype
  deriving DecidableEq, Repr

def mountFields (k uiFlags : Nat) (sb : SuperBlock) : SuperBlock :=
  { sb with
    sectorSize := 2 ^ k
    blkSize := u32 (sb.secPerBlk * 2 ^ k)
    flags := uiFlags }

def logGeom (k secCnt : Nat) (sb : SuperBlock) : Geom :=
  { sectorShift := k, blkShift := u32OfInt ((archFindMsb sb.blkSize : Int) - 1)
    logStartBlk := sb.logStartBlk, logBlkCnt := sb.logBlkCnt, generation := sb.generation
    secCnt := secCnt }

/-- `tpsFsMount` from `tpsFsBtreeTransInit` on. The scratch buffer and the reserved words of the
area list start with any contents; `restOk` says whether the space management inode opens and the
block pool is read. The outer `none` is a recovery that does not end. -/
def mountLog (G : Geom) (sb : SuperBlock) (sectorBuf : Bytes) (areaReserved : Nat × Nat)
    (restOk : SuperBlock → Dev G.sectorShift → Bool) (img : Nat → Sector G.sectorShift) :
    Option (MountError × Option (SuperBlock × Dev G.sectorShift)) :=
  match tpsFsBtreeTransInit G (.boot G.secCnt img) sectorBuf areaReserved with
  | none => some (.errorNone, none)
  | some st =>
    match tspFsCheckTrans G st with
    | none => none
    | some (.errNone, st) =>
      if restOk sb st.dev then some (.errorNone, some (sb, st.dev)) else some (.errorNone, none)
    | some (_, _) => some (.errorNone, none)

def tpsFsMount (k secCnt uiFlags : Nat) (sectorBuf : Bytes) (areaReserved : Nat × Nat)
    (restOk : SuperBlock → Dev k → Bool) (img : Nat → Sector k) :
    Option (MountError × Option (SuperBlock × Dev k)) :=
  if archFindMsb (2 ^ k) ≤ 9 ∨ 16 ≤ archFindMsb (2 ^ k) then some (.errSectorSize, none)
  else
    match (Dev.boot secCnt img).read 0 1 with
    | none => some (.eio, none)
    | some buf =>
      let sb := tpsFsSBUnserial buf
      if sb.magic ≠ magicSuperBlock1 ∧ sb.magic ≠ magicSuperBlock2 then some (.errorNone, none)
      else if sb.secPerBlk &&& u32OfInt ((sb.secPerBlk : Int) - 1) ≠ 0 then some (.errorNone, none)
      else if curVersion < sb.version then some (.eftype, none)
      else
        let sb := mountFields k uiFlags sb
        mountLog (logGeom k secCnt sb) sb sectorBuf areaReserved restOk img

def Coherent (k uiFlags : Nat) (sb : SuperBlock) (dev : Dev k) : Prop :=
  sb = mountFields k uiFlags (tpsFsSBUnserial (sectorByte (dev.med.cur 0)))

def superOf {k : Nat} (v : Sector k) : SuperBlock := tpsFsSBUnserial (sectorByte v)

def volGeom (k secCnt : Nat) (img : Nat → Sector k) : Geom :=
  logGeom k secCnt (mountFields k 0 (superOf (img 0)))

theorem tpsFsSBUnserial_congr {b c : Bytes} (h : ∀ p < 112, b p = c p) :
    tpsFsSBUnserial b = tpsFsSBUnserial c := by
  have hfield : ∀ w o, o + w ≤ 112 → getLE w b o = getLE w c o :=
    fun w o ho => getLE_congr w (fun i hi => h (o + i) (by omega))
  rw [tpsFsSBUnserial, tpsFsSBUnserial, hfield 4 0 (by omega), hfield 4 4 (by omega),
    hfield 4 8 (by omega), hfield 4 12 (by omega), hfield 4 16 (by omega), hfield 4 20 (by omega),
    hfield 8 24 (by omega), hfield 8 32 (by omega), hfield 8 40 (by omega), hfield 8 48 (by omega),
    hfield 8 56 (by omega), hfield 8 64 (by omega), hfield 8 72 (by omega), hfield 8 80 (by omega),
    hfield 8 88 (by omega), hfield 8 96 (by omega), hfield 8 104 (by omega)]

theorem mountLog_some {G : Geom} {sb sb' : SuperBlock} {sectorBuf : Bytes}
    {areaReserved : Nat × Nat} {restOk : SuperBlock → Dev G.sectorShift → Bool}
    {img : Nat → Sector G.sectorShift} {e : MountError} {dev : Dev G.sectorShift}
    (h : mountLog G sb sectorBuf areaReserved restOk img = some (e, some (sb', dev))) :
    sb' = sb ∧ ∃ st, mountTrans G sectorBuf areaReserved img = some (.errNone, st) ∧
      dev = st.dev := by
  rw [mountLog] at h
  rw [mountTrans]
  cases hinit : tpsFsBtreeTransInit G (.boot G.secCnt img) sectorBuf areaReserved with
  | none => simp [hinit] at h
  | some st0 =>
    simp only [hinit, Option.bind_some] at h ⊢
    cases hcheck : tspFsCheckTrans G st0 with
    | none => simp [hcheck] at h
    | some r =>
      obtain ⟨r, st⟩ := r
      cases r <;> simp only [hcheck] at h
      case errNone =>
        split at h
        · obtain ⟨-, hsb⟩ := Prod.mk.inj (Option.some.inj h)
          obtain ⟨rfl, rfl⟩ := Prod.mk.inj (Option.some.inj hsb)
          exact ⟨rfl, st, rfl, rfl⟩
        · cases h
      all_goals cases h

theorem tpsFsMount_some {k secCnt uiFlags : Nat} {sectorBuf : Bytes} {areaReserved : Nat × Nat}
    {restOk : SuperBlock → Dev k → Bool} {img : Nat → Sector k} {e : MountError}
    {sb : SuperBlock} {dev : Dev k} (hk : 9 ≤ k)
    (h : tpsFsMount k secCnt uiFlags sectorBuf areaReserved restOk img = some (e, some (sb, dev))) :
    sb = mountFields k uiFlags (superOf (img 0)) ∧
      ∃ st, mountTrans (volGeom k secCnt img) sectorBuf areaReserved img = some (.errNone, st) ∧
        dev = st.dev := by
  rw [tpsFsMount] at h
  split at h
  · cases h
  · cases hread : (Dev.boot secCnt img).read 0 1 with
    | none => simp [hread] at h
    | some buf =>
      have hbuf : tpsFsSBUnserial buf = superOf (img 0) := by
        rw [Dev.read] at hread
        split at hread
        · rw [← Option.some.inj hread]
          refine tpsFsSBUnserial_congr ?_
          intro p hp
          have hpow : 2 ^ 9 ≤ 2 ^ k := Nat.pow_le_pow_right (by omega) hk
          have hdiv : p / 2 ^ k = 0 := Nat.div_eq_of_lt (by omega)
          simp only [flatten, advance, hdiv]
          rfl
        · cases hread
      simp only [hread] at h
      generalize tpsFsSBUnserial buf = sb0 at h hbuf
      subst hbuf
      split at h
      · cases h
      split at h
      · cases h
      by_cases hversion : curVersion < (superOf (img 0)).version
      · simp [hversion] at h
      · have hlog : mountLog (volGeom k secCnt img) (mountFields k uiFlags (superOf (img 0)))
            sectorBuf areaReserved restOk img = some (e, some (sb, dev)) :=
          (if_neg hversion).symm.trans h
        exact mountLog_some hlog

def LogsOtherSuper (k uiFlags : Nat) (G : Geom) (img : Nat → Sector G.sectorShift) : Prop :=
  ∃ n sec cnt areas v, Pending G G.secCnt n sec cnt areas v img ∧ Covered areas 0 ∧
    mountFields k uiFlags (superOf (v 0)) ≠ mountFields k uiFlags (superOf (img 0))

theorem mount_coherent_of_volGeom {k secCnt uiFlags : Nat} {img img0 : Nat → Sector k}
    (hG : (volGeom k secCnt img).Valid) (hstart : 0 < (volGeom k secCnt img).transSecStart)
    {st0 st' : Vol k} (hrun : LogRun (volGeom k secCnt img) st0)
    (ht : Transaction (volGeom k secCnt img) st0 st') (hcut : st0.dev.CutBefore st'.dev img0)
    (hclear : Clear (volGeom k secCnt img) img0)
    (hrec : Recovering (volGeom k secCnt img) img0 img)
    {sectorBuf : Bytes} {areaReserved : Nat × Nat} {restOk : SuperBlock → Dev k → Bool}
    {e : MountError} {sb : SuperBlock} {dev : Dev k}
    (hmount : tpsFsMount k secCnt uiFlags sectorBuf areaReserved restOk img =
      some (e, some (sb, dev))) :
    Coherent k uiFlags sb dev ↔ ¬ LogsOtherSuper k uiFlags (volGeom k secCnt img) img := by
  have hk : 9 ≤ k := hG.sectorShift_ge
  obtain ⟨rfl, st, hcheck, rfl⟩ := tpsFsMount_some hk hmount
  obtain ⟨m, d, hm, hres⟩ := (ht.spec hG (hrun.logState hG)).2 img0 hcut hclear
  have hout : OutsideLog (volGeom k secCnt img) (volGeom k secCnt img).secCnt 0 := Or.inl hstart
  have hpend : ∀ {n sec cnt : Nat} {areas : List SecArea} {v : Nat → Sector k},
      Pending (volGeom k secCnt img) (volGeom k secCnt img).secCnt n sec cnt areas v img →
      st.dev.med.cur 0 = v 0 ∧ Covered areas 0 ∨
        st.dev.med.cur 0 = img 0 ∧ ¬ Covered areas 0 := by
    intro n sec cnt areas v hp
    obtain ⟨st1, iosL, iosC, bufL, bufC, hready, -, hcommit, hdev, hareas, hsec, hcnt, hm1⟩ :=
      mountTrans_pending hG le_rfl hp sectorBuf areaReserved
    rw [hcheck] at hm1
    obtain ⟨-, rfl⟩ := Prod.mk.inj (Option.some.inj hm1)
    subst hareas hsec hcnt
    obtain ⟨hcov, hunc⟩ := final_outside hG hready hcommit hp.listHi hout
    by_cases hc : Covered st1.areas 0
    · exact Or.inl ⟨(hcov hc).1, hc⟩
    · rw [(hunc hc).1, hdev]
      exact Or.inr ⟨rfl, hc⟩
  constructor
  · rintro hco ⟨n, sec, cnt, areas, v, hp, hc, hne⟩
    rcases hpend hp with ⟨hcur, -⟩ | ⟨-, hc'⟩
    · have heq : mountFields k uiFlags (superOf (img 0)) =
          mountFields k uiFlags (superOf (st.dev.med.cur 0)) := hco
      rw [hcur] at heq
      exact hne heq.symm
    · exact hc' hc
  · intro hno
    change mountFields k uiFlags (superOf (img 0)) =
      mountFields k uiFlags (superOf (st.dev.med.cur 0))
    cases hres.recovering hG le_rfl hm hrec with
    | settled hlog _ =>
      obtain ⟨st1, hm1, hdev, -⟩ := mountTrans_settled hG hlog hm sectorBuf areaReserved
      rw [hcheck] at hm1
      obtain ⟨-, rfl⟩ := Prod.mk.inj (Option.some.inj hm1)
      rw [hdev]
      rfl
    | pending _ hlog _ _ =>
      rcases hpend hlog with ⟨hcur, hc⟩ | ⟨hcur, -⟩
      · rw [hcur]
        by_contra hne
        exact hno ⟨_, _, _, _, _, hlog, hc, fun heq => hne heq.symm⟩
      · rw [hcur]
        rfl

/-- After any power loss in any history of a volume a mount has the current super block exactly
if the log holds no other one. -/
theorem mount_coherent_iff {G : Geom} {uiFlags : Nat} {img img0 : Nat → Sector G.sectorShift}
    (hG : G.Valid) (hgeom : volGeom G.sectorShift G.secCnt img = G) (hstart : 0 < G.transSecStart)
    {st0 st' : Vol G.sectorShift} (hrun : LogRun G st0) (ht : Transaction G st0 st')
    (hcut : st0.dev.CutBefore st'.dev img0) (hclear : Clear G img0) (hrec : Recovering G img0 img)
    {sectorBuf : Bytes} {areaReserved : Nat × Nat}
    {restOk : SuperBlock → Dev G.sectorShift → Bool} {e : MountError} {sb : SuperBlock}
    {dev : Dev G.sectorShift}
    (hmount : tpsFsMount G.sectorShift G.secCnt uiFlags sectorBuf areaReserved restOk img =
      some (e, some (sb, dev))) :
    Coherent G.sectorShift uiFlags sb dev ↔ ¬ LogsOtherSuper G.sectorShift uiFlags G img := by
  obtain ⟨k, blkShift, logStart, logCnt, gen, secCnt⟩ := G
  change Nat → Sector k at img img0
  change Vol k at st0 st'
  change SuperBlock → Dev k → Bool at restOk
  change Dev k at dev
  simp only [volGeom, logGeom, Geom.mk.injEq, true_and, and_true] at hgeom
  obtain ⟨rfl, rfl, rfl, rfl⟩ := hgeom
  exact mount_coherent_of_volGeom hG hstart hrun ht hcut hclear hrec hmount

def smallSuper (deleted : Nat) : SuperBlock :=
  { magic := magicSuperBlock2, version := curVersion, sectorSize := 512, secPerBlk := 8
    blkSize := 4096, flags := 3, generation := 1, totalBlkCnt := 2064, dataStartBlk := 10
    dataBlkCnt := 1925, logStartBlk := 1935, logBlkCnt := 129, bpStartBlk := 3, bpBlkCnt := 7
    inumSpaceMng := 1, inumRoot := 2, inumDeleted := deleted }

def superDisk : Nat → Sector smallGeom.sectorShift := fun s i =>
  if s = 0 then tpsFsSBSerial (smallSuper 0) (fun _ => 0) i
  else if s = 8 then putFields (fun _ => 0) 0 [(4, 0xad45df32), (4, curVersion), (8, 1)] i
  else 0

def smallRestOk (sb : SuperBlock) (dev : Dev smallGeom.sectorShift) : Bool :=
  let buf := sectorByte (dev.med.cur (sb.inumSpaceMng * sb.secPerBlk))
  getLE 4 buf 0 = 0xad45df32 ∧ getLE 8 buf 8 = sb.generation

def flushDeleted : TransWrite := tpsFsFlushSuperBlock 9 (smallSuper 100) (fun _ => 0)

def flushCommit : TpsResult × Vol smallGeom.sectorShift :=
  tpsFsTransCommitAndFree smallGeom none
    (transWrites smallGeom [flushDeleted] (smallBegun superDisk)).2

def staleImage : Nat → Sector smallGeom.sectorShift :=
  ((smallMount superDisk).dev.med.run (flushCommit.2.dev.ios.take 5)).cur

def staleMount : Option (MountError × Option (SuperBlock × Dev smallGeom.sectorShift)) :=
  tpsFsMount 9 16516 3 (fun _ => 0) (0, 0) smallRestOk staleImage

theorem superDisk_run : LogRun smallGeom (smallMount superDisk) ∧
    (smallMount superDisk).dev = .boot 16516 superDisk := by
  refine smallMount_run ?_
  intro s hs
  have hlog : 15480 ≤ s := hs
  funext i
  rw [superDisk, if_neg (by omega), if_neg (by omega)]

theorem flushCommit_transaction : Transaction smallGeom (smallMount superDisk) flushCommit.2 := by
  refine .commit
    ⟨smallBegun_opens (by decide +kernel), by decide, ?_, ?_, ?_, ?_, ?_⟩
  · intro w hw
    rw [Option.getD_none, List.append_nil, List.mem_singleton] at hw
    subst hw
    unfold TransWrite.Inside
    decide +kernel
  · decide +kernel
  · decide +kernel
  · decide +kernel
  · decide +kernel

theorem staleImage_cut : (smallMount superDisk).dev.CutBefore flushCommit.2.dev staleImage := by
  refine ⟨flushCommit.2.dev.ios, ?_, flushCommit.2.dev.ios.take 5, flushCommit.2.dev.ios.drop 5,
    (List.take_append_drop 5 _).symm, ?_⟩
  · rw [superDisk_run.2]
    exact (List.nil_append _).symm
  · intro s
    refine Medium.cur_mem_run _ _ ?_
    rw [superDisk_run.2]
    exact List.mem_singleton.mpr rfl

theorem staleImage_clear : Clear smallGeom staleImage := by
  intro hnone
  have hfirst : slotSerial smallGeom staleImage 0 = none := hnone 0 (by decide)
  exact absurd hfirst (by decide +kernel)

theorem staleMount_some : ∃ e sb dev, staleMount = some (e, some (sb, dev)) ∧
    sb.inumDeleted = 0 ∧ (superOf (dev.med.cur 0)).inumDeleted = 100 := by
  have hboth : (staleMount.bind Prod.snd).map (fun r => (r.1.inumDeleted,
      (superOf (r.2.med.cur 0)).inumDeleted)) = some (0, 100) := by decide +kernel
  obtain ⟨⟨sb, dev⟩, hr, heq⟩ := Option.map_eq_some_iff.mp hboth
  obtain ⟨⟨e, r⟩, hmount, hr⟩ := Option.bind_eq_some_iff.mp hr
  obtain ⟨hsb, hdev⟩ := Prod.mk.inj heq
  subst hr
  exact ⟨e, sb, dev, hmount, hsb, hdev⟩

theorem mount_coherent_iff_stale : ∃ e sb dev, staleMount = some (e, some (sb, dev)) ∧
    (Coherent 9 3 sb dev ↔ ¬ LogsOtherSuper 9 3 smallGeom staleImage) := by
  obtain ⟨e, sb, dev, hmount, -⟩ := staleMount_some
  exact ⟨e, sb, dev, hmount, mount_coherent_iff smallGeom_valid (by decide +kernel) (by decide)
    superDisk_run.1 flushCommit_transaction staleImage_cut staleImage_clear .start hmount⟩

/-- The head of the deleted list in memory is the one before the replayed transaction. -/
theorem stale_super_after_replay :
    LogRun smallGeom (smallMount superDisk) ∧
      Transaction smallGeom (smallMount superDisk) flushCommit.2 ∧
      (smallMount superDisk).dev.CutBefore flushCommit.2.dev staleImage ∧
      ∃ e sb dev, staleMount = some (e, some (sb, dev)) ∧ sb.inumDeleted = 0 ∧
        (superOf (dev.med.cur 0)).inumDeleted = 100 ∧ ¬ Coherent 9 3 sb dev := by
  obtain ⟨e, sb, dev, hmount, hsb, hdev⟩ := staleMount_some
  refine ⟨superDisk_run.1, flushCommit_transaction, staleImage_cut, e, sb, dev, hmount, hsb,
    hdev, ?_⟩
  intro hco
  have heq : sb = mountFields 9 3 (superOf (dev.med.cur 0)) := hco
  rw [heq] at hsb
  exact absurd (hsb.symm.trans hdev) (by decide)

end SylixOS.TpsSuper
