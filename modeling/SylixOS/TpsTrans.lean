import SylixOS.SectorDevice

/-! The transaction log of tpsFs (`tpsfs_trans.c`): the header ring, the
sector areas of the open transaction, reads and writes through it, commit
and the recovery at mount. `UINT` values are reduced modulo `2 ^ 32` where
the source stores them, sector numbers modulo `2 ^ 64` where it computes
them from block numbers. -/

namespace SylixOS.TpsTrans
open SylixOS.ByteBuffer SylixOS.SectorDevice

def u32 (n : Nat) : Nat := n % 2 ^ 32
def u64 (n : Nat) : Nat := n % 2 ^ 64

def u32OfInt (x : Int) : Nat := (x % 2 ^ 32).toNat
def u64OfInt (x : Int) : Nat := (x % 2 ^ 64).toNat
def i32OfInt (x : Int) : Int := Int.bmod x (2 ^ 32)

inductive TpsResult where
  | errNone
  | errBufRead
  | errBufWrite
  | errBufSync
  | errReadDev
  | errBpAdjust
  | errTransOverflow
  | errTransCommitFault
  deriving DecidableEq, Repr

structure Geom where
  sectorShift : Nat
  blkShift : Nat
  logStartBlk : Nat
  logBlkCnt : Nat
  generation : Nat
  secCnt : Nat
  deriving DecidableEq

namespace Geom

def sectorSize (G : Geom) : Nat := 2 ^ G.sectorShift
def secPerBlk (G : Geom) : Nat := 2 ^ (G.blkShift - G.sectorShift)

def tranSize : Nat := 64
def tranShift : Nat := 6

def transMaxArea (G : Geom) : Nat := 0x400 <<< (G.blkShift - 12)
def transRevDataSec (G : Geom) : Nat := 0x400 <<< (G.blkShift - 12)

def transSecStart (G : Geom) : Nat := (G.logStartBlk <<< G.blkShift) >>> G.sectorShift
def transSecCnt (G : Geom) : Nat := G.logBlkCnt >>> (tranShift + 1)
def transDataStart (G : Geom) : Nat := G.transSecStart + G.transSecCnt
def transDataCnt (G : Geom) : Nat :=
  ((G.logBlkCnt <<< G.blkShift) >>> G.sectorShift) - G.transSecCnt

def logEnd (G : Geom) : Nat := G.transDataStart + G.transDataCnt

structure Valid (G : Geom) : Prop where
  sectorShift_ge : 9 ≤ G.sectorShift
  sectorShift_le : G.sectorShift ≤ 14
  blkShift_ge : 12 ≤ G.blkShift
  sector_le_blk : G.sectorShift ≤ G.blkShift
  blkShift_lt : G.blkShift < 32
  generation_lt : G.generation < 2 ^ 64
  transSecCnt_pos : 0 < G.transSecCnt
  rev_lt_dataCnt : G.transRevDataSec < G.transDataCnt
  log_le_dev : (G.logStartBlk + G.logBlkCnt) * 2 ^ G.blkShift ≤ G.secCnt * 2 ^ G.sectorShift
  dev_lt : G.secCnt * 2 ^ G.sectorShift < 2 ^ 64

end Geom

def statusUninit : Nat := 0xFFFFFFFF
def statusInit : Nat := 0
def statusCommit : Nat := 1
def statusComplete : Nat := 2

def transMagic : Nat := 0xEF34DDA4
def transTypeData : Nat := 1

structure TransHead where
  magic : Nat
  reserved : Nat
  generation : Nat
  serialNum : Nat
  type : Nat
  status : Nat
  reserved64 : Nat
  time : Nat
  dataSecNum : Nat
  dataSecCnt : Nat
  checkSum : Nat
  deriving DecidableEq, Repr

structure SecArea where
  secStart : Nat
  secOff : Nat
  secCnt : Nat
  deriving DecidableEq, Repr

structure Vol (k : Nat) where
  dev : Dev k
  sectorBuf : Bytes
  fault : Bool
  transCurSec : Nat
  transSecOff : Nat
  secBuff : Bytes
  dataCurSec : Nat
  serialNum : Nat
  trans : TransHead
  areas : List SecArea
  areaReserved : Nat × Nat

def uninitHead (generation : Nat) : TransHead :=
  { magic := transMagic, reserved := 0, generation := generation, serialNum := 0
    type := transTypeData, status := statusUninit, reserved64 := 0, time := 0
    dataSecNum := 0, dataSecCnt := 0, checkSum := 0 }

def tpsFsBtreeTransInit (G : Geom) (dev : Dev G.sectorShift) (sectorBuf : Bytes)
    (areaReserved : Nat × Nat) : Option (Vol G.sectorShift) :=
  if G.transSecCnt ≤ 0 then none
  else if G.transDataCnt ≤ G.transRevDataSec then none
  else some
    { dev := dev, sectorBuf := sectorBuf, fault := false
      transCurSec := G.transSecStart, transSecOff := 0, secBuff := fun _ => 0
      dataCurSec := G.transDataStart, serialNum := 0
      trans := uninitHead G.generation, areas := [], areaReserved := areaReserved }

def tpsFsTransAllocAndInit {k : Nat} (time : Nat) (st : Vol k) : Option (Vol k) × Vol k :=
  if st.fault then (none, st)
  else if st.trans.status ≠ statusComplete ∧ st.trans.status ≠ statusUninit then
    (none, { st with fault := true })
  else
    let st' := { st with
      trans := { st.trans with
        serialNum := st.serialNum, dataSecNum := st.dataCurSec, dataSecCnt := 0
        time := time, status := statusInit }
      areas := [] }
    (some st', st')

def transRollBack {k : Nat} (time : Nat) (st : Vol k) : Vol k :=
  { st with
    trans := { st.trans with
      serialNum := st.serialNum, dataSecNum := st.dataCurSec, dataSecCnt := 0
      time := time, status := statusUninit }
    areas := [] }

def secAreaFields (a : SecArea) : List (Nat × Nat) := [(8, a.secStart), (4, a.secOff), (4, a.secCnt)]

def secAreaSerialLoop (G : Geom) : List SecArea → Nat → Nat → Bytes → Nat × Bytes
  | [], _, iIndex, buf => (iIndex, buf)
  | a :: as, pos, iIndex, buf =>
    if pos < G.sectorSize - 16 then
      secAreaSerialLoop G as (pos + 16) (iIndex + 1) (putFields buf pos (secAreaFields a))
    else (iIndex, buf)

def tpsFsTransSecAreaSerial (G : Geom) (areas : List SecArea) (reserved : Nat × Nat)
    (iIndex : Nat) (buf : Bytes) : Nat × Bytes :=
  secAreaSerialLoop G (areas.drop iIndex) 16 iIndex
    (putFields buf 0 [(4, areas.length), (4, iIndex), (4, reserved.1), (4, reserved.2)])

def getSecArea (buf : Bytes) (pos : Nat) : SecArea :=
  { secStart := getLE 8 buf pos, secOff := getLE 4 buf (pos + 8), secCnt := getLE 4 buf (pos + 12) }

def secAreaUnserialLoop (G : Geom) (buf : Bytes) : Nat → Nat → List SecArea
  | 0, _ => []
  | n + 1, pos =>
    if pos < G.sectorSize - 16 then getSecArea buf pos :: secAreaUnserialLoop G buf n (pos + 16)
    else []

def setAreas (arr : Nat → SecArea) (i : Nat) (new : List SecArea) : Nat → SecArea :=
  fun j => if i ≤ j then new.getD (j - i) (arr j) else arr j

def tpsFsTransSecAreaUnserial (G : Geom) (arr : Nat → SecArea) (buf : Bytes) :
    Nat × Nat × (Nat × Nat) × (Nat → SecArea) :=
  let cnt := getLE 4 buf 0
  let iIndex := getLE 4 buf 4
  (cnt, iIndex, (getLE 4 buf 8, getLE 4 buf 12),
    setAreas arr iIndex (secAreaUnserialLoop G buf (cnt - iIndex) 16))

/-- The 32-bit sum over the header; the low half of `TRANS_uiDataSecNum` is not part of it. -/
def transCheckSum (t : TransHead) : Nat :=
  u32 (t.magic + t.reserved + u32 t.generation + u32 (t.generation >>> 32) +
    u32 t.serialNum + u32 (t.serialNum >>> 32) + t.type + t.status +
    u32 t.reserved64 + u32 (t.reserved64 >>> 32) + u32 t.time + u32 (t.time >>> 32) +
    u32 (t.dataSecNum >>> 32) + t.dataSecCnt)

def transHeadFields (t : TransHead) : List (Nat × Nat) :=
  [(4, t.magic), (4, t.reserved), (8, t.generation), (8, t.serialNum), (4, t.type),
    (4, t.status), (8, t.reserved64), (8, t.time), (8, t.dataSecNum), (4, t.dataSecCnt),
    (4, t.checkSum)]

def sealHead (t : TransHead) : TransHead := { t with checkSum := transCheckSum t }

def tpsFsTransSerial (t : TransHead) (buf : Bytes) (pos : Nat) : TransHead × Bytes :=
  (sealHead t, putFields buf pos (transHeadFields (sealHead t)))

def getTransHead (buf : Bytes) (pos : Nat) : TransHead :=
  { magic := getLE 4 buf pos, reserved := getLE 4 buf (pos + 4)
    generation := getLE 8 buf (pos + 8), serialNum := getLE 8 buf (pos + 16)
    type := getLE 4 buf (pos + 24), status := getLE 4 buf (pos + 28)
    reserved64 := getLE 8 buf (pos + 32), time := getLE 8 buf (pos + 40)
    dataSecNum := getLE 8 buf (pos + 48), dataSecCnt := getLE 4 buf (pos + 56)
    checkSum := getLE 4 buf (pos + 60) }

def tpsFsTransUnserial (G : Geom) (buf : Bytes) (pos : Nat) : TransHead :=
  let t := getTransHead buf pos
  if transCheckSum t ≠ t.checkSum ∨ t.magic ≠ transMagic ∨ t.generation ≠ G.generation then
    { t with status := statusUninit }
  else t

def trimArea (secNum secCnt : Nat) (a : SecArea) : List SecArea :=
  if a.secStart < secNum ∧ secNum + secCnt < a.secStart + a.secCnt then
    [{ a with secCnt := u32 (secNum - a.secStart) },
      { secStart := secNum + secCnt
        secOff := u32 (a.secOff + (secNum + secCnt - a.secStart))
        secCnt := u32 (a.secStart + a.secCnt - (secNum + secCnt)) }]
  else if secNum ≤ a.secStart ∧ a.secStart + a.secCnt ≤ secNum + secCnt then []
  else if min (a.secStart + a.secCnt) (secNum + secCnt) ≤ max a.secStart secNum then [a]
  else
    let uiSecNeedCpy :=
      u32 (min (a.secStart + a.secCnt) (secNum + secCnt) - max a.secStart secNum)
    if secNum ≤ a.secStart then
      [{ secStart := a.secStart + uiSecNeedCpy
         secOff := u32 (a.secOff + uiSecNeedCpy)
         secCnt := a.secCnt - uiSecNeedCpy }]
    else [{ a with secCnt := a.secCnt - uiSecNeedCpy }]

def putOverflows (G : Geom) (secNum' areaCnt dataSecCnt secCnt : Nat) : Prop :=
  G.transMaxArea - 1 ≤ areaCnt ∨
    G.transDataStart + G.transDataCnt < secNum' + dataSecCnt + secCnt

instance (G : Geom) (secNum' areaCnt dataSecCnt secCnt : Nat) :
    Decidable (putOverflows G secNum' areaCnt dataSecCnt secCnt) :=
  inferInstanceAs (Decidable (_ ∨ _))

def tpsFsTransPutData (G : Geom) (buf : Bytes) (secNum secCnt : Nat)
    (st : Vol G.sectorShift) : TpsResult × Vol G.sectorShift :=
  if putOverflows G st.trans.dataSecNum st.areas.length st.trans.dataSecCnt secCnt then
    (.errTransOverflow, st)
  else
    let trimmed := st.areas.flatMap (trimArea secNum secCnt)
    match st.dev.write buf (st.trans.dataSecNum + st.trans.dataSecCnt) secCnt false with
    | none => (.errBufWrite, { st with areas := trimmed })
    | some dev =>
      (.errNone, { st with
        dev := dev
        areas := trimmed ++
          [{ secStart := secNum, secOff := st.trans.dataSecCnt, secCnt := u32 secCnt }]
        trans := { st.trans with dataSecCnt := u32 (st.trans.dataSecCnt + secCnt) } })

def SecArea.Has (a : SecArea) (s : Nat) : Prop :=
  a.secStart ≤ s ∧ s < a.secStart + a.secCnt

instance (a : SecArea) (s : Nat) : Decidable (a.Has s) := inferInstanceAs (Decidable (_ ∧ _))

def logSector (dataSecNum : Nat) (areas : List SecArea) (s : Nat) : Option Nat :=
  (areas.reverse.find? (fun a => decide (a.Has s))).map
    (fun a => dataSecNum + a.secOff + (s - a.secStart))

def getDataStep {k : Nat} (st : Vol k) (secNum : Nat) (buf : Bytes) (i : Nat) : Option Bytes :=
  match logSector st.trans.dataSecNum st.areas (secNum + i) with
  | none => some buf
  | some s => (st.dev.read s 1).map (patch buf (i * 2 ^ k) (2 ^ k))

def tpsFsTransGetData {k : Nat} (st : Vol k) (secNum secCnt : Nat) : Option Bytes :=
  if st.trans.status ≠ statusInit ∧ st.trans.status ≠ statusCommit then
    st.dev.read secNum secCnt
  else
    (st.dev.read secNum secCnt).bind (fun buf =>
      (List.range secCnt).foldlM (getDataStep st secNum) buf)

def secOfAddr (G : Geom) (blk off len : Nat) : Nat :=
  u64 (u64 (u64 (blk <<< G.blkShift) + off) + len) >>> G.sectorShift

/-- The three parts of an access: an unaligned head of `headLen` bytes in sector `secNum`,
`secCnt` whole sectors from `midSec` on, and a tail of `tailLen` bytes in `midSec + secCnt`. -/
structure Access where
  secNum : Nat
  secOff : Nat
  headLen : Nat
  midSec : Nat
  secCnt : Nat
  tailLen : Nat
  deriving DecidableEq, Repr

def access (G : Geom) (blk off len : Nat) : Access :=
  let secNum := secOfAddr G blk off 0
  let secCnt := secOfAddr G blk off len - secNum
  let secOff := off % G.sectorSize
  let headLen := if secOff ≠ 0 then min len (G.sectorSize - secOff) else 0
  let midCnt := if secOff ≠ 0 then secCnt - 1 else secCnt
  let done := headLen + midCnt * G.sectorSize
  { secNum := secNum, secOff := secOff, headLen := headLen
    midSec := if secOff ≠ 0 then secNum + 1 else secNum, secCnt := midCnt
    tailLen := if done < len then (off + len) % G.sectorSize else 0 }

def tpsFsTransRead (G : Geom) (blk off : Nat) (buff : Bytes) (len : Nat)
    (st : Vol G.sectorShift) : TpsResult × Bytes × Vol G.sectorShift :=
  let acc := access G blk off len
  let head :=
    if acc.secOff ≠ 0 then
      (tpsFsTransGetData st acc.secNum 1).map (fun b =>
        let secBuf := patch st.sectorBuf 0 G.sectorSize b
        (patch buff 0 acc.headLen (advance secBuf acc.secOff), { st with sectorBuf := secBuf }))
    else some (buff, st)
  match head with
  | none => (.errBufRead, buff, st)
  | some (buff, st) =>
    let mid :=
      if 0 < acc.secCnt then
        (tpsFsTransGetData st acc.midSec acc.secCnt).map (fun b =>
          patch buff acc.headLen (acc.secCnt * G.sectorSize) b)
      else some buff
    match mid with
    | none => (.errBufRead, buff, st)
    | some buff =>
      if 0 < acc.tailLen then
        match tpsFsTransGetData st (acc.midSec + acc.secCnt) 1 with
        | none => (.errBufRead, buff, st)
        | some b =>
          let secBuf := patch st.sectorBuf 0 G.sectorSize b
          (.errNone,
            patch buff (acc.headLen + acc.secCnt * G.sectorSize) acc.tailLen secBuf,
            { st with sectorBuf := secBuf })
      else (.errNone, buff, st)

def toBufWrite {k : Nat} : TpsResult × Vol k → TpsResult × Vol k
  | (.errNone, st) => (.errNone, st)
  | (_, st) => (.errBufWrite, st)

def modifySector (G : Geom) (sec off len : Nat) (src : Bytes) (st : Vol G.sectorShift) :
    TpsResult × Vol G.sectorShift :=
  match tpsFsTransGetData st sec 1 with
  | none => (.errBufWrite, st)
  | some b =>
    let secBuf := patch (patch st.sectorBuf 0 G.sectorSize b) off len src
    toBufWrite (tpsFsTransPutData G secBuf sec 1 { st with sectorBuf := secBuf })

def andThen {k : Nat} (r : TpsResult × Vol k) (f : Vol k → TpsResult × Vol k) :
    TpsResult × Vol k :=
  match r with
  | (.errNone, st) => f st
  | (e, st) => (e, st)

def tpsFsTransWrite (G : Geom) (blk off : Nat) (buff : Bytes) (len : Nat)
    (st : Vol G.sectorShift) : TpsResult × Vol G.sectorShift :=
  let acc := access G blk off len
  andThen
    (andThen
      (if acc.secOff ≠ 0 then modifySector G acc.secNum acc.secOff acc.headLen buff st
        else (.errNone, st))
      (fun st =>
        if 0 < acc.secCnt then
          toBufWrite (tpsFsTransPutData G (advance buff acc.headLen) acc.midSec acc.secCnt st)
        else (.errNone, st)))
    (fun st =>
      if 0 < acc.tailLen then
        modifySector G (acc.midSec + acc.secCnt) 0 acc.tailLen
          (advance buff (acc.headLen + acc.secCnt * G.sectorSize)) st
      else (.errNone, st))

structure TransWrite where
  blk : Nat
  off : Nat
  buff : Bytes
  len : Nat

def transWrites (G : Geom) : List TransWrite → Vol G.sectorShift → TpsResult × Vol G.sectorShift
  | [], st => (.errNone, st)
  | w :: ws, st =>
    andThen (tpsFsTransWrite G w.blk w.off w.buff w.len st) (transWrites G ws)

def writeAreaList (G : Geom) : Nat → Nat → Vol G.sectorShift → TpsResult × Vol G.sectorShift
  | 0, _, st => (.errNone, st)
  | fuel + 1, i, st =>
    if i < st.areas.length then
      let (i, buf) := tpsFsTransSecAreaSerial G st.areas st.areaReserved i st.sectorBuf
      match st.dev.write buf (st.trans.dataSecNum + st.trans.dataSecCnt) 1 false with
      | none => (.errBufWrite, { st with sectorBuf := buf })
      | some dev =>
        writeAreaList G fuel i { st with
          dev := dev, sectorBuf := buf
          trans := { st.trans with dataSecCnt := u32 (st.trans.dataSecCnt + 1) } }
    else (.errNone, st)

def copyArea (G : Geom) (a : SecArea) (dataSec : Nat) :
    Nat → Int → Vol G.sectorShift → TpsResult × Vol G.sectorShift
  | 0, _, st => (.errNone, st)
  | fuel + 1, j, st =>
    if u32OfInt j < a.secCnt then
      let wrCnt := min (u32OfInt (a.secCnt - j)) G.secPerBlk
      match st.dev.read (u64OfInt (dataSec + j)) wrCnt with
      | none => (.errTransCommitFault, { st with fault := true })
      | some b =>
        let buf := patch st.sectorBuf 0 (wrCnt * G.sectorSize) b
        match st.dev.write buf (u64OfInt (a.secStart + j)) wrCnt false with
        | none => (.errTransCommitFault, { st with sectorBuf := buf, fault := true })
        | some dev =>
          copyArea G a dataSec fuel (i32OfInt (j + wrCnt)) { st with dev := dev, sectorBuf := buf }
    else (.errNone, st)

def copyAreas (G : Geom) : List SecArea → Vol G.sectorShift → TpsResult × Vol G.sectorShift
  | [], st => (.errNone, st)
  | a :: as, st =>
    match copyArea G a (st.trans.dataSecNum + a.secOff) a.secCnt 0 st with
    | (.errNone, st) =>
      match st.dev.sync a.secStart a.secCnt with
      | none => (.errTransCommitFault, { st with fault := true })
      | some dev => copyAreas G as { st with dev := dev }
    | (e, st) => (e, st)

def writeHead (status : Nat) {k : Nat} (st : Vol k) : Bool × Vol k :=
  let (t, buf) := tpsFsTransSerial { st.trans with status := status } st.secBuff st.transSecOff
  let st := { st with trans := t, secBuff := buf }
  match st.dev.write buf st.transCurSec 1 true with
  | none => (false, st)
  | some dev => (true, { st with dev := dev })

def setStatus (status : Nat) {k : Nat} (st : Vol k) : Vol k :=
  { st with trans := { st.trans with status := status } }

def nextSlot (G : Geom) {k : Nat} (st : Vol k) : Vol k :=
  let off := st.transSecOff + Geom.tranSize
  if G.sectorSize ≤ off then
    { st with
      transCurSec :=
        if G.transSecStart + G.transSecCnt ≤ st.transCurSec + 1 then G.transSecStart
        else st.transCurSec + 1
      transSecOff := 0
      secBuff := fun _ => 0 }
  else { st with transSecOff := off }

def nextDataSec (G : Geom) (sec : Nat) : Nat :=
  if G.transDataStart + G.transDataCnt - G.transRevDataSec ≤ sec then G.transDataStart else sec

def commitAreas (G : Geom) (st : Vol G.sectorShift) : TpsResult × Vol G.sectorShift :=
  if st.areas.length = 0 then
    (.errNone, setStatus statusComplete st)
  else
    match writeAreaList G st.areas.length 0 st with
    | (.errNone, st) =>
      match st.dev.sync st.trans.dataSecNum st.trans.dataSecCnt with
      | none => (.errBufSync, st)
      | some dev =>
        let st := { st with dev := dev }
        match writeHead statusCommit st with
        | (false, st) => (.errBufWrite, setStatus statusInit st)
        | (true, st) =>
          match copyAreas G st.areas st with
          | (.errNone, st) =>
            match writeHead statusComplete st with
            | (false, st) => (.errTransCommitFault, { setStatus statusCommit st with fault := true })
            | (true, st) =>
              let st := nextSlot G st
              (.errNone, { st with
                dataCurSec := nextDataSec G (st.trans.dataSecNum + st.trans.dataSecCnt)
                serialNum := u64 (st.serialNum + 1) })
          | (e, st) => (e, st)
    | (e, st) => (e, st)

/-- `adjustBP` lists the transaction writes that `tpsFsBtreeAdjustBP` makes in this call;
it is `none` while `SB_pbp` is `LW_NULL`, as it is during mount. -/
def tpsFsTransCommitAndFree (G : Geom) (adjustBP : Option (List TransWrite))
    (st : Vol G.sectorShift) : TpsResult × Vol G.sectorShift :=
  match adjustBP with
  | none => commitAreas G st
  | some ws =>
    match transWrites G ws st with
    | (.errNone, st) => commitAreas G st
    | (_, st) => (.errBpAdjust, st)

def tpsFsGetTrans (G : Geom) (t : TransHead) (index : Nat) (st : Vol G.sectorShift) :
    TransHead × Vol G.sectorShift :=
  let st := { st with
    transCurSec := u64 (G.transSecStart + index >>> (G.sectorShift - Geom.tranShift))
    transSecOff :=
      (index % 2 ^ (G.sectorShift - Geom.tranShift)) <<< Geom.tranShift }
  match st.dev.read st.transCurSec 1 with
  | none => ({ t with status := statusUninit }, st)
  | some b =>
    let buf := patch st.secBuff 0 G.sectorSize b
    (tpsFsTransUnserial G buf st.transSecOff, { st with secBuff := buf })

def lookAround (G : Geom) (index : Nat → Nat) : Nat → Nat → TransHead → Vol G.sectorShift →
    Option Nat × TransHead × Vol G.sectorShift
  | 0, _, t, st => (none, t, st)
  | n + 1, i, t, st =>
    let (t, st) := tpsFsGetTrans G t (index i) st
    if t.status ≠ statusUninit then (some i, t, st) else lookAround G index n (i + 1) t st

def getTransNear (G : Geom) (dir : Nat → Nat → Nat) (t : TransHead) (index : Nat)
    (st : Vol G.sectorShift) : Option Nat × TransHead × Vol G.sectorShift :=
  let (t, st) := tpsFsGetTrans G t index st
  if t.status ≠ statusUninit then (some index, t, st)
  else
    match lookAround G (dir index) 16 0 t st with
    | (some i, t, st) => (some (dir index i), t, st)
    | (none, t, st) => (none, t, st)

def indexUp (index i : Nat) : Nat := u64 (index + i)
def indexDown (index i : Nat) : Nat := u64OfInt ((index : Int) - i)

def searchTrans (G : Geom) : Nat → Nat → Nat → TransHead → TransHead → TransHead →
    Vol G.sectorShift → Option (Nat × Nat × TransHead × TransHead × Vol G.sectorShift)
  | 0, _, _, _, _, _, _ => none
  | fuel + 1, lIndex, hIndex, tStart, tEnd, tMid, st =>
    match getTransNear G indexUp tStart lIndex st with
    | (none, _, st) => some (lIndex, hIndex, tEnd, tMid, st)
    | (some lIndex, tStart, st) =>
      let (h, tEnd, st) := getTransNear G indexDown tEnd hIndex st
      let hIndex := h.getD hIndex
      if tEnd.status ≠ statusUninit ∧ tStart.serialNum < tEnd.serialNum then
        some (hIndex, hIndex, tEnd, tMid, st)
      else
        let mIndex := (lIndex + hIndex) / 2
        let (m, tMid, st) := getTransNear G indexDown tMid mIndex st
        let mIndex := m.getD mIndex
        if mIndex = lIndex then some (mIndex, hIndex, tEnd, tMid, st)
        else if tMid.status = statusUninit then
          searchTrans G fuel lIndex mIndex tStart tEnd tMid st
        else if tMid.serialNum < tStart.serialNum then
          searchTrans G fuel lIndex mIndex tStart tEnd tMid st
        else searchTrans G fuel mIndex hIndex tStart tEnd tMid st

/-- `__tpsFsLoadTransData`: the area list, last sector first. Each pass lowers
`TRANS_uiDataSecCnt`, so as many passes suffice; `none` when they do not. -/
def tpsFsLoadTransData (G : Geom) : Nat → (Nat → SecArea) → Vol G.sectorShift →
    Option (TpsResult × Vol G.sectorShift)
  | 0, _, _ => none
  | fuel + 1, arr, st =>
    match st.dev.read (u64OfInt ((st.trans.dataSecNum + st.trans.dataSecCnt : Nat) - 1)) 1 with
    | none => some (.errReadDev, st)
    | some b =>
      let buf := patch st.sectorBuf 0 G.sectorSize b
      let (cnt, i, reserved, arr) := tpsFsTransSecAreaUnserial G arr buf
      let st := { st with
        sectorBuf := buf, areaReserved := reserved
        areas := (List.range cnt).map arr
        trans := { st.trans with dataSecCnt := u32OfInt ((st.trans.dataSecCnt : Int) - 1) } }
      if 0 < i then tpsFsLoadTransData G fuel arr st else some (.errNone, st)

def Geom.slotCnt (G : Geom) : Nat := G.transSecCnt <<< (G.sectorShift - Geom.tranShift)

def freshHead : TransHead :=
  { magic := 0, reserved := 0, generation := 0, serialNum := 0, type := 0
    status := statusUninit, reserved64 := 0, time := 0, dataSecNum := 0, dataSecCnt := 0
    checkSum := 0 }

def applyNewest (G : Geom) (tMid : TransHead) (mIndex : Nat) (st : Vol G.sectorShift) :
    Option (TpsResult × Vol G.sectorShift) :=
  let st :=
    if tMid.status ≠ statusUninit then
      { st with
        serialNum := tMid.serialNum
        transCurSec := G.transSecStart + mIndex >>> (G.sectorShift - Geom.tranShift)
        transSecOff := (mIndex % 2 ^ (G.sectorShift - Geom.tranShift)) <<< Geom.tranShift }
    else st
  if tMid.status = statusComplete then
    let st := nextSlot G st
    some (.errNone, { st with
      dataCurSec := nextDataSec G (tMid.dataSecNum + tMid.dataSecCnt)
      serialNum := u64 (st.serialNum + 1) })
  else if tMid.status = statusCommit then
    match tpsFsLoadTransData G tMid.dataSecCnt
        (fun i => st.areas.getD i { secStart := 0, secOff := 0, secCnt := 0 })
        { st with trans := tMid } with
    | none => none
    | some (.errNone, st) => some (tpsFsTransCommitAndFree G none st)
    | some (_, st) => some (.errReadDev, st)
  else some (.errNone, st)

/-- `tspFsCheckTrans`; `none` when a loop runs out of fuel. The header variables on the
stack start out as `freshHead`. -/
def tspFsCheckTrans (G : Geom) (st : Vol G.sectorShift) :
    Option (TpsResult × Vol G.sectorShift) :=
  match searchTrans G G.slotCnt 0 (G.slotCnt - 1) freshHead freshHead freshHead st with
  | none => none
  | some (mIndex, hIndex, tEnd, tMid, st) =>
    let (tMid, st) := tpsFsGetTrans G tMid mIndex st
    if tEnd.status ≠ statusUninit ∧ tMid.serialNum < tEnd.serialNum then
      applyNewest G tEnd hIndex st
    else applyNewest G tMid mIndex st

end SylixOS.TpsTrans
