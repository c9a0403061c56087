import SylixOS.BitmapLib
import SylixOS.ListLink

/-! The ready and candidate tables of `kernel/core/_CandTable.c`, with the ready rings of
`_ReadyRing.c`, the bitmaps of `_ReadyTableLib.c` and `_SchedSetPrio` of `_Sched.c`. All
ready rings share one store of links. A function that can run into `_BugHandle` or a null
candidate returns `none` there: the kernel stops. -/

namespace SylixOS.CandTable
open LinkedChain ListLink BitmapLib Function

structure Config where
  smpEn : Bool
  smpCpuDownEn : Bool
  smpReverseForeach : Bool
  cpuArchSmt : Bool
  ncpus : Nat
  deriving DecidableEq, Repr

inductive SchedPolicy where
  | fifo
  | rr
  deriving DecidableEq, Repr

inductive ActivateMode where
  | immiedia
  | standard
  | auto
  deriving DecidableEq, Repr

inductive Activate where
  | interrupt
  | other
  deriving DecidableEq, Repr

structure Tcb where
  isReady : Bool
  ucPriority : Fin 256
  bCPULock : Bool
  ulCPULock : Nat
  ulCPUId : Nat
  bIsCand : Bool
  usSchedCounter : Nat
  usSchedSlice : Nat
  ucSchedPolicy : SchedPolicy
  ucSchedActivateMode : ActivateMode
  ucSchedActivate : Activate
  ulThreadLockCounter : Nat
  deriving DecidableEq, Repr

structure Cpu where
  ptcbCand : Option Nat
  bCandRot : Bool
  isActive : Bool
  bOnlyAffinity : Bool
  ulPhyId : Nat
  deriving DecidableEq, Repr

inductive Table where
  | global
  | cpu (ulCPUId : Nat)
  deriving DecidableEq, Repr

structure Pcb where
  table : Table
  ucPriority : Fin 256
  deriving DecidableEq, Repr

structure State where
  tcb : Nat → Tcb
  cpu : Nat → Cpu
  ringReady : Links Nat
  pringReadyHeader : Pcb → Option Nat
  bmap : Table → Bmap
  smtBschedEn : Bool
  uiNonIdle : Nat → Nat

def prioLowest : Fin 256 := 255

namespace State

def setTcb (s : State) (t : Nat) (f : Tcb → Tcb) : State :=
  { s with tcb := update s.tcb t (f (s.tcb t)) }

def setCpu (s : State) (i : Nat) (f : Cpu → Cpu) : State :=
  { s with cpu := update s.cpu i (f (s.cpu i)) }

def setRot (s : State) (i : Nat) (b : Bool) : State := s.setCpu i (fun x => { x with bCandRot := b })

def setRing (s : State) (k : Pcb) (ring : Links Nat × Option Nat) : State :=
  { s with
    ringReady := ring.1
    pringReadyHeader := update s.pringReadyHeader k ring.2 }

end State

variable (c : Config)

def tableOf (x : Tcb) : Table := if c.smpEn && x.bCPULock then .cpu x.ulCPULock else .global

def getPcbEx (s : State) (ptcb : Nat) (ucPriority : Fin 256) : Pcb :=
  ⟨tableOf c (s.tcb ptcb), ucPriority⟩

def getPcb (s : State) (ptcb : Nat) : Pcb := getPcbEx c s ptcb (s.tcb ptcb).ucPriority

def pcbIsEmpty (s : State) (ppcb : Pcb) : Bool := (s.pringReadyHeader ppcb).isNone

def pcbIsOne (s : State) (ppcb : Pcb) : Bool :=
  match s.pringReadyHeader ppcb with
  | none => false
  | some h => s.ringReady.next h == some h

def readyRingAdd (x : Tcb) (bIsHeader : Bool) :
    Links Nat → Nat → Option Nat → Links Nat × Option Nat :=
  if bIsHeader then listRingAddAhead
  else if x.ucSchedPolicy = .fifo then listRingAddLast
  else
    match x.ucSchedActivateMode with
    | .immiedia => listRingAddFront
    | .standard => listRingAddLast
    | .auto =>
      match x.ucSchedActivate with
      | .other => listRingAddLast
      | .interrupt => listRingAddFront

def addTCBToReadyRing (s : State) (ptcb : Nat) (ppcb : Pcb) (bIsHeader : Bool) : State :=
  s.setRing ppcb
    (readyRingAdd (s.tcb ptcb) bIsHeader s.ringReady ptcb (s.pringReadyHeader ppcb))

def delTCBFromReadyRing (s : State) (ptcb : Nat) (ppcb : Pcb) : State :=
  s.setRing ppcb (listRingDel s.ringReady ptcb (s.pringReadyHeader ppcb))

def readyTableAdd (s : State) (ptcb : Nat) : State :=
  { s with
    bmap := update s.bmap (tableOf c (s.tcb ptcb))
      (bitmapAdd (s.bmap (tableOf c (s.tcb ptcb))) (s.tcb ptcb).ucPriority) }

def readyTableDel (s : State) (ptcb : Nat) : State :=
  { s with
    bmap := update s.bmap (tableOf c (s.tcb ptcb))
      (bitmapDel (s.bmap (tableOf c (s.tcb ptcb))) (s.tcb ptcb).ucPriority) }

def tableHigh (s : State) (table : Table) : Pcb :=
  ⟨table, Fin.ofNat 256 (bitmapHigh (s.bmap table))⟩

def candTableSeek (s : State) (pcpu : Nat) : Option Pcb :=
  let noGlobal := (s.cpu pcpu).bOnlyAffinity || bitmapIsEmpty (s.bmap .global)
  if c.smpEn then
    if bitmapIsEmpty (s.bmap (.cpu pcpu)) then
      if noGlobal then none else some (tableHigh s .global)
    else
      let own := tableHigh s (.cpu pcpu)
      if noGlobal then some own
      else if own.ucPriority ≤ (tableHigh s .global).ucPriority then some own
      else some (tableHigh s .global)
  else if bitmapIsEmpty (s.bmap .global) then none
  else some (tableHigh s .global)

def candTableNext (s : State) (ppcb : Pcb) : Option (State × Nat) :=
  match s.pringReadyHeader ppcb with
  | none => none
  | some ptcb =>
    if (s.tcb ptcb).usSchedCounter = 0 then
      let s := s.setTcb ptcb (fun x => { x with usSchedCounter := x.usSchedSlice })
      let header := listRingNext s.ringReady (s.pringReadyHeader ppcb)
      let s := { s with pringReadyHeader := update s.pringReadyHeader ppcb header }
      header.map (fun ptcb => (s, ptcb))
    else some (s, ptcb)

def setCand (s : State) (pcpu ptcb : Nat) : State :=
  (s.setCpu pcpu (fun x => { x with ptcbCand := some ptcb })).setTcb ptcb
    (fun x => { x with ulCPUId := pcpu, bIsCand := true })

def candTableResel (s : State) (pcpu : Nat) (ppcb : Pcb) : Option State :=
  (candTableNext s ppcb).map (fun (s, ptcb) =>
    let s := setCand s pcpu ptcb
    let s := delTCBFromReadyRing s ptcb ppcb
    if pcbIsEmpty s ppcb then readyTableDel c s ptcb else s)

def candTableFill (s : State) (pcpu : Nat) : Option State :=
  (candTableSeek c s pcpu).bind (candTableResel c s pcpu)

def candTableEmpty (s : State) (pcpu ptcb : Nat) : State :=
  let ppcb := getPcb c s ptcb
  let s := s.setTcb ptcb (fun x => { x with bIsCand := false })
  let s := addTCBToReadyRing s ptcb ppcb true
  let s := if pcbIsOne s ppcb then readyTableAdd c s ptcb else s
  s.setCpu pcpu (fun x => { x with ptcbCand := none })

def cpuForeachActive (s : State) : List Nat :=
  (if c.smpReverseForeach then (List.range c.ncpus).reverse else List.range c.ncpus).filter
    (fun i => (s.cpu i).isActive)

def cpuForeachActiveExcept (s : State) (id : Nat) : List Nat :=
  (cpuForeachActive c s).filter (fun i => i ≠ id)

inductive IdleSearch where
  | slot (pcpu : Nat)
  | idle (pcpu : Nat)
  | none

def runsIdle (s : State) (pcpu ptcbCand : Nat) : Bool :=
  !(s.cpu pcpu).bCandRot && (s.tcb ptcbCand).ucPriority == prioLowest

/-- The first loop of `_CandTableTryAdd`; with hyper-threading an idle logical CPU of
a busy core is only remembered in `pcpuIdle`. -/
def tryAddIdle (s : State) : List Nat → Option Nat → IdleSearch
  | [], pcpuIdle =>
    match pcpuIdle with
    | none => .none
    | some pcpu => .idle pcpu
  | i :: rest, pcpuIdle =>
    if (s.cpu i).bOnlyAffinity then tryAddIdle s rest pcpuIdle
    else
      match (s.cpu i).ptcbCand with
      | none => .slot i
      | some ptcbCand =>
        if runsIdle s i ptcbCand then
          if c.cpuArchSmt && s.smtBschedEn then
            if s.uiNonIdle (s.cpu i).ulPhyId = 0 then .idle i
            else tryAddIdle s rest (pcpuIdle.or (some i))
          else .idle i
        else tryAddIdle s rest pcpuIdle

def tryAddLower (s : State) (ptcb : Nat) : List Nat → State × Bool
  | [] => (s, false)
  | i :: rest =>
    if (s.cpu i).bOnlyAffinity then tryAddLower s ptcb rest
    else
      match (s.cpu i).ptcbCand with
      | none => (setCand s i ptcb, true)
      | some ptcbCand =>
        if (s.tcb ptcb).ucPriority < (s.tcb ptcbCand).ucPriority then
          tryAddLower (s.setRot i true) ptcb rest
        else tryAddLower s ptcb rest

def tryAddAny (s : State) (ptcb : Nat) : State × Bool :=
  match tryAddIdle c s (cpuForeachActiveExcept c s (s.tcb ptcb).ulCPUId) none with
  | .slot i => (setCand s i ptcb, true)
  | .idle i => (s.setRot i true, false)
  | .none => tryAddLower s ptcb (cpuForeachActive c s)

def tryAddSmp (s : State) (ptcb : Nat) : State × Bool :=
  let x := s.tcb ptcb
  if x.bCPULock then
    if !(s.cpu x.ulCPULock).isActive then (s, false)
    else
      match (s.cpu x.ulCPULock).ptcbCand with
      | none => (setCand s x.ulCPULock ptcb, true)
      | some ptcbCand =>
        if x.ucPriority < (s.tcb ptcbCand).ucPriority then (s.setRot x.ulCPULock true, false)
        else (s, false)
  else if (!c.smpCpuDownEn || (s.cpu x.ulCPUId).isActive) && !(s.cpu x.ulCPUId).bOnlyAffinity then
    match (s.cpu x.ulCPUId).ptcbCand with
    | none => (setCand s x.ulCPUId ptcb, true)
    | some ptcbCand =>
      if runsIdle s x.ulCPUId ptcbCand then (s.setRot x.ulCPUId true, false)
      else tryAddAny c s ptcb
  else tryAddAny c s ptcb

def tryAddSingle (s : State) (ptcb : Nat) : State × Bool :=
  if !(s.cpu 0).isActive then (s, false)
  else
    match (s.cpu 0).ptcbCand with
    | none => (setCand s 0 ptcb, true)
    | some ptcbCand =>
      if (s.tcb ptcb).ucPriority < (s.tcb ptcbCand).ucPriority then
        if (s.tcb ptcbCand).ulThreadLockCounter ≠ 0 then (s.setRot 0 true, false)
        else (setCand (candTableEmpty c s 0 ptcbCand) 0 ptcb, true)
      else (s, false)

def candTableTryAdd (s : State) (ptcb : Nat) (ppcb : Pcb) : State × Bool :=
  match if c.smpEn then tryAddSmp c s ptcb else tryAddSingle c s ptcb with
  | (s, true) => (s, true)
  | (s, false) => (if pcbIsEmpty s ppcb then readyTableAdd c s ptcb else s, false)

def candTableTryDel (s : State) (ptcb : Nat) (ppcb : Pcb) : Option State :=
  let pcpu := (s.tcb ptcb).ulCPUId
  if (s.cpu pcpu).ptcbCand = some ptcb then
    let s := s.setTcb ptcb (fun x => { x with bIsCand := false })
    (candTableFill c s pcpu).map (fun s => s.setRot pcpu false)
  else if pcbIsEmpty s ppcb then some (readyTableDel c s ptcb)
  else some s

def addToReadyRing (s : State) (ptcb : Nat) (ppcb : Pcb) : State :=
  match candTableTryAdd c s ptcb ppcb with
  | (s, true) => s
  | (s, false) => addTCBToReadyRing s ptcb ppcb false

def delFromReadyRing (s : State) (ptcb : Nat) (ppcb : Pcb) : Option State :=
  let s := if (s.tcb ptcb).bIsCand then s else delTCBFromReadyRing s ptcb ppcb
  candTableTryDel c s ptcb ppcb

def notifyIdle (s : State) : List Nat → Option Nat → Option IdleSearch
  | [], pcpuIdle =>
    match pcpuIdle with
    | none => some .none
    | some pcpu => some (.idle pcpu)
  | i :: rest, pcpuIdle =>
    if (s.cpu i).bOnlyAffinity || (s.cpu i).bCandRot then notifyIdle s rest pcpuIdle
    else
      match (s.cpu i).ptcbCand with
      | none => none
      | some ptcbOther =>
        if runsIdle s i ptcbOther then
          if c.cpuArchSmt && s.smtBschedEn then
            if s.uiNonIdle (s.cpu i).ulPhyId = 0 then some (.idle i)
            else notifyIdle s rest (pcpuIdle.or (some i))
          else some (.idle i)
        else notifyIdle s rest pcpuIdle

def notifyLower (s : State) (ptcbCand : Nat) : List Nat → Option State
  | [] => some s
  | i :: rest =>
    if (s.cpu i).bOnlyAffinity then notifyLower s ptcbCand rest
    else
      match (s.cpu i).ptcbCand with
      | none => none
      | some ptcbOther =>
        if (s.tcb ptcbCand).ucPriority < (s.tcb ptcbOther).ucPriority then
          notifyLower (s.setRot i true) ptcbCand rest
        else notifyLower s ptcbCand rest

def candTableNotify (s : State) (pcpu ptcbCand : Nat) : Option State :=
  match notifyIdle c s (cpuForeachActiveExcept c s pcpu) none with
  | none => none
  | some (.idle i) => some (s.setRot i true)
  | some _ => notifyLower s ptcbCand (cpuForeachActiveExcept c s pcpu)

def needRotate (s : State) (pcpu ptcbCand : Nat) (ucPriority : Fin 256) : Bool :=
  let x := s.tcb ptcbCand
  if c.smpEn && (s.cpu pcpu).bOnlyAffinity && !x.bCPULock then true
  else if x.usSchedCounter = 0 then ucPriority ≤ x.ucPriority
  else ucPriority < x.ucPriority

def candTableUpdate (s : State) (pcpu : Nat) : Option State :=
  if !(s.cpu pcpu).isActive then some s
  else
    match (s.cpu pcpu).ptcbCand with
    | none => (candTableFill c s pcpu).map (fun s => s.setRot pcpu false)
    | some ptcbCand =>
      match candTableSeek c s pcpu with
      | none => some (s.setRot pcpu false)
      | some ppcb =>
        if needRotate c s pcpu ptcbCand ppcb.ucPriority then
          (candTableResel c (candTableEmpty c s pcpu ptcbCand) pcpu ppcb).bind (fun s =>
            let notify := c.smpEn && (s.cpu pcpu).ptcbCand ≠ some ptcbCand &&
              !(s.tcb ptcbCand).bCPULock
            (if notify then candTableNotify c s pcpu ptcbCand else some s).map
              (fun s => s.setRot pcpu false))
        else some (s.setRot pcpu false)

def candTableRemove (s : State) (pcpu : Nat) : State :=
  if (s.cpu pcpu).isActive then s
  else
    match (s.cpu pcpu).ptcbCand with
    | none => s
    | some ptcb => candTableEmpty c s pcpu ptcb

def schedSetPrio (s : State) (ptcb : Nat) (ucPriority : Fin 256) : Option State :=
  let ppcbFrom := getPcb c s ptcb
  let ppcbTo := getPcbEx c s ptcb ucPriority
  let setPriority := fun (s : State) => s.setTcb ptcb (fun x => { x with ucPriority := ucPriority })
  if (s.tcb ptcb).isReady then
    if (s.tcb ptcb).bIsCand then
      some (setPriority (s.setRot (s.tcb ptcb).ulCPUId true))
    else
      (delFromReadyRing c s ptcb ppcbFrom).map (fun s => addToReadyRing c (setPriority s) ptcb ppcbTo)
  else some (setPriority s)

end SylixOS.CandTable
