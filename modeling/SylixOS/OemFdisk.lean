import SylixOS.GptLoad
import SylixOS.MbrScan

/-! `API_OemFdiskExWithLba` and `API_OemFdiskGetEx` (`oemFdisk.c`) on a disk of 512-byte sectors. -/

namespace SylixOS.OemFdisk
open SylixOS.ByteBuffer SylixOS.SectorDevice SylixOS.GptPartition

structure OemfdiskPart where
  szPct : Nat
  isActive : Bool
  partType : UInt8
  mBytes : Nat
  name : List Nat

structure PartSec where
  part : OemfdiskPart
  startSec : Nat
  nSec : Nat

def ulSecSize : Nat := 512

def nSecPerMB : Nat := 2048

def diskPartOffsec : Nat := 2048

def roundDown (x align : Nat) : Nat := x / align * align

def roundUp (x align : Nat) : Nat := (x + (align - 1)) / align * align

def mbrNSec (ulTotalSec align : Nat) (p : OemfdiskPart) : Nat :=
  let n := if 100 < p.szPct then p.mBytes * nSecPerMB else ulTotalSec * p.szPct / 100
  roundDown (n % 2 ^ 32) align

def mbrPlan (ulTotalSec align : Nat) :
    List OemfdiskPart → (uiPSecNext ulLeftSec : Nat) → Option (List PartSec)
  | [], _, _ => some []
  | p :: ps, uiPSecNext, ulLeftSec =>
    if p.szPct = 0 then some [⟨p, uiPSecNext, ulLeftSec % 2 ^ 32⟩]
    else
      let n := mbrNSec ulTotalSec align p
      if ulLeftSec < n then none
      else (mbrPlan ulTotalSec align ps ((uiPSecNext + n) % 2 ^ 32) (ulLeftSec - n)).map
        (⟨p, uiPSecNext, n⟩ :: ·)

def chsFields (lba : Nat) : List (Nat × Nat) :=
  let uiHd := lba / 63 % 255
  let uiCyl := lba / (255 * 63)
  let uiSec := lba % 63 + 1
  [(1, uiHd), (1, uiCyl / 4 + uiSec), (1, uiCyl)]

def mbrFields (active : Bool) (p : PartSec) : List (Nat × Nat) :=
  [(1, if active then 0x80 else 0x00)] ++ chsFields p.startSec ++ [(1, p.part.partType.toNat)] ++
    chsFields ((p.startSec + p.nSec + 2 ^ 32 - 1) % 2 ^ 32) ++ [(4, p.startSec), (4, p.nSec)]

def fillSec (ulTotalSec : Nat) (d : Disk) (lba : Nat) : Disk :=
  if lba < ulTotalSec then Function.update d lba fun _ => 0xff else d

def mbrWrite (ulTotalSec : Nat) :
    List PartSec → (i : Nat) → (bMaster : Bool) → Bytes → Disk → Bytes × Disk
  | [], _, _, buf, d => (buf, d)
  | p :: ps, i, bMaster, buf, d =>
    let active := p.part.isActive && !bMaster
    let buf := putFields buf (MbrScan.mbrTable + i * 16) (mbrFields active p)
    mbrWrite ulTotalSec ps (i + 1) (bMaster || active) buf (fillSec ulTotalSec d p.startSec)

def oemFdisk (ulInvSec : Nat) (d : Disk) (parts : List OemfdiskPart) (stAlign : Nat) :
    Option (List PartSec × Disk) :=
  let ulTotalSec := ulInvSec - diskPartOffsec
  match mbrPlan ulTotalSec (stAlign / ulSecSize) parts diskPartOffsec ulTotalSec with
  | none => none
  | some plan =>
    let d := if 2050 < ulInvSec then fillSec ulInvSec d 2050 else d
    let buf := patch (sectorByte (d 0)) MbrScan.mbrTable 64 zeros
    let written := mbrWrite ulInvSec plan 0 false buf d
    let buf := putFields written.1 510 [(1, 0x55), (1, 0xaa)]
    some (plan, Function.update written.2 0 (sectorOf buf 0))

def gptWanted (ulTotalSec ui64LeftSec : Nat) (p : OemfdiskPart) : Nat :=
  if p.szPct = 0 then ui64LeftSec
  else if 100 < p.szPct then p.mBytes * nSecPerMB % 2 ^ 64
  else ulTotalSec * p.szPct / 100

def gptPlan (ulTotalSec align lastLba : Nat) :
    List OemfdiskPart → (ui64PSecNext ui64LeftSec : Nat) → Option (List PartSec)
  | [], _, _ => some []
  | p :: ps, ui64PSecNext, ui64LeftSec =>
    if lastLba < ui64PSecNext then none
    else
      let n := gptWanted ulTotalSec ui64LeftSec p
      let n := if lastLba < (ui64PSecNext + n) % 2 ^ 64 then lastLba - ui64PSecNext else n
      let n := roundDown n align
      if p.szPct = 0 then some [⟨p, ui64PSecNext, n⟩]
      else (gptPlan ulTotalSec align lastLba ps ((ui64PSecNext + n) % 2 ^ 64)
        ((ui64LeftSec + 2 ^ 64 - n) % 2 ^ 64)).map (⟨p, ui64PSecNext, n⟩ :: ·)

def gptAddAll (uuid : Nat → Nat) (t : GptTable) : List PartSec → Option GptTable
  | [] => some t
  | p :: ps =>
    let added := gptAddEntryWithName t p.startSec p.nSec p.part.partType p.part.name
      (uuid t.entriesCount)
    if added.1 then gptAddAll uuid added.2 ps else none

def gptSave (n : Nat) (d : Disk) (t : GptTable) : Option Disk :=
  match gptPartitionSave t with
  | none => none
  | some (writes, _) => if ∀ w ∈ writes, w.1 < n then some (stores d writes) else none

def oemGptFdisk (ulTotalSec : Nat) (d : Disk) (ui64FirstLba : Nat) (parts : List OemfdiskPart)
    (stAlign volume : Nat) (uuid : Nat → Nat) : Option (List PartSec × Disk) :=
  let align := stAlign / ulSecSize
  let firstLba := if ui64FirstLba = 0 then roundUp gptDataLba align else ui64FirstLba
  match gptCreateAndInitWithLba ulSecSize ulTotalSec firstLba volume with
  | none => none
  | some t =>
    let first := getLE 8 t.block 40
    match gptPlan ulTotalSec align t.lastLba parts first ((t.lastLba + 2 ^ 64 - first) % 2 ^ 64) with
    | none => none
    | some plan =>
      match gptAddAll uuid t plan with
      | none => none
      | some t => (gptSave ulTotalSec d t).map fun d => (plan, d)

structure FdiskCall where
  fdpPart : List OemfdiskPart
  stAlign : Nat
  bGpt : Bool
  ui64FirstLba : Nat

def untilRest : List OemfdiskPart → List OemfdiskPart
  | [] => []
  | p :: ps => if p.szPct = 0 then [p] else p :: untilRest ps

def oemFdiskEx (word ulTotalSec : Nat) (d : Disk) (q : FdiskCall) (volume : Nat)
    (uuid : Nat → Nat) : Option (List PartSec × Disk) :=
  if q.fdpPart = [] then none
  else if ¬q.bGpt ∧ 4 < q.fdpPart.length then none
  else if word = 32 ∧ q.bGpt then none
  else if q.stAlign < 4096 ∨ q.stAlign &&& (q.stAlign - 1) ≠ 0 then none
  else if ¬q.bGpt ∧ ulTotalSec < diskPartOffsec then none
  else if q.bGpt then
    oemGptFdisk ulTotalSec d q.ui64FirstLba (untilRest q.fdpPart) q.stAlign volume uuid
  else oemFdisk ulTotalSec d (untilRest q.fdpPart) q.stAlign

def gptGetTable (ulTotalSec : Nat) (d : Disk) : Option GptTable :=
  (gptCreateAndInitWithLba ulSecSize 0 0 0).bind fun t =>
    let load := gptPartitionLoad t (fun pos len => ulTotalSec * ulSecSize < pos + len) (flatten d)
    if load.ok then some load.table else none

def gptGetInfo (t : GptTable) (i : Nat) : Option MbrScan.OemfdiskPinfo :=
  (gptGetEntry t i).map fun e =>
    { size := e.2.1 * ulSecSize % 2 ^ 64, oft := e.1 * ulSecSize % 2 ^ 64
      isActive := e.2.2 = diskPartTypeEfi, partType := e.2.2 }

def oemGptFdiskGet (ulTotalSec : Nat) (d : Disk) (uiNPart : Nat) :
    Option (List MbrScan.OemfdiskPinfo) :=
  (gptGetTable ulTotalSec d).bind fun t =>
    (List.range (min uiNPart t.entriesCount)).mapM (gptGetInfo t)

def scanDisk (word ulTotalSec : Nat) (d : Disk) : MbrScan.Disk where
  word := word
  secSize := ulSecSize
  sector lba := if lba < ulTotalSec then some (sectorByte (d lba)) else none

def mbrGet (word ulTotalSec : Nat) (d : Disk) (uiNPart fuel : Nat) :
    Option (Option (List MbrScan.OemfdiskPinfo)) :=
  (MbrScan.oemFdiskGet (scanDisk word ulTotalSec d) uiNPart fuel default).map fun r =>
    r.1.map fun n => (List.range n).map r.2

/-- `API_OemFdiskGetEx` with room for `uiNPart` partitions; the outer `none` is a chain of more than
`fuel` tables. -/
def oemFdiskGetEx (word ulTotalSec : Nat) (d : Disk) (uiNPart fuel : Nat) :
    Option (Option (List MbrScan.OemfdiskPinfo)) :=
  match if word = 32 then none else oemGptFdiskGet ulTotalSec d uiNPart with
  | some infos => some (some infos)
  | none => mbrGet word ulTotalSec d uiNPart fuel

def PartSec.Covers (p : PartSec) (sec : Nat) : Prop := p.startSec ≤ sec ∧ sec < p.startSec + p.nSec

def Metadata (ulTotalSec : Nat) (bGpt : Bool) (sec : Nat) : Prop :=
  sec = 0 ∨ bGpt = true ∧ (sec = 1 ∨ 2 ≤ sec ∧ sec < 34 ∨
    ulTotalSec - 33 ≤ sec ∧ sec < ulTotalSec - 1 ∨ sec = ulTotalSec - 1)

structure Apart (ulTotalSec : Nat) (bGpt : Bool) (parts : List PartSec) : Prop where
  disjoint : parts.Pairwise fun p q => ∀ sec, ¬(p.Covers sec ∧ q.Covers sec)
  inside : ∀ p ∈ parts, ∀ sec, p.Covers sec → sec < ulTotalSec
  clear : ∀ p ∈ parts, ∀ sec, p.Covers sec → ¬Metadata ulTotalSec bGpt sec

def infoKey (info : MbrScan.OemfdiskPinfo) : Nat × Nat × UInt8 :=
  (info.oft, info.size, info.partType)

def PartSec.key (p : PartSec) : Nat × Nat × UInt8 :=
  (p.startSec * ulSecSize, p.nSec * ulSecSize, p.part.partType)

def ReadBack (word ulTotalSec : Nat) (d : Disk) (parts : List PartSec) : Prop :=
  ∀ uiNPart fuel, parts.length ≤ uiNPart → 0 < fuel →
    ∃ infos, oemFdiskGetEx word ulTotalSec d uiNPart fuel = some (some infos) ∧
      infos.map infoKey = parts.map PartSec.key

end SylixOS.OemFdisk
