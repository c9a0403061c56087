import SylixOS.ListLink
import Mathlib.Data.Nat.Bitwise

/-! The heap of `kernel/core/_HeapLib.c`. Segment headers live inside the managed region
and are addressed by their first byte; every header member is one map from header
addresses. Sums and differences of the source are taken modulo the word. Trace and monitor
events and messages are left out; taking the heap lock may fail where the source tests it.
-/

namespace SylixOS.HeapLib
open LinkedChain ListLink Function

inductive WordLength where
  | w32
  | w64
  deriving DecidableEq, Repr

structure Config where
  wordLength : WordLength
  crossBorderEn : Bool
  deriving DecidableEq, Repr

namespace Config

def sizeofSizeT (c : Config) : Nat :=
  match c.wordLength with
  | .w32 => 4
  | .w64 => 8

def modulus (c : Config) : Nat :=
  match c.wordLength with
  | .w32 => 2 ^ 32
  | .w64 => 2 ^ 64

def heapAlignment (c : Config) : Nat :=
  match c.wordLength with
  | .w32 => 8
  | .w64 => 16

def add (c : Config) (a b : Nat) : Nat := (a + b) % c.modulus

def sub (c : Config) (a b : Nat) : Nat := (a + (c.modulus - b)) % c.modulus

def roundUp (c : Config) (x align : Nat) : Nat :=
  let s := c.add x (align - 1)
  s - s % align

def roundDown (_ : Config) (x align : Nat) : Nat := x - x % align

/-- `__SEGMENT_BLOCK_SIZE_ALIGN`: the header has six words, two for each list, the
size and the mark, and the mark is its last word. -/
def segmentBlockSizeAlign (c : Config) : Nat :=
  c.roundUp (6 * c.sizeofSizeT) c.heapAlignment

end Config

def heapSegMinSize : Nat := 16

def segMagicReal : Nat := 0xffffffff

def heapSegmentMarkFlag : Nat := 0xA5A54321

structure Heap where
  lineManage : Links Nat
  ringFreeList : Links Nat
  stByteSize : Nat → Nat
  stMagic : Nat → Nat
  pringFreeSegment : Option Nat
  pvStartAddress : Nat
  stTotalByteSize : Nat
  ulSegmentCounter : Nat
  stUsedByteSize : Nat
  stFreeByteSize : Nat
  stMaxUsedByteSize : Nat

inductive Member where
  | lineNext
  | linePrev
  | ringNext
  | ringPrev
  | stByteSize
  | stMagic
  deriving DecidableEq, Repr

def Member.index : Member → Nat
  | .lineNext => 0
  | .linePrev => 1
  | .ringNext => 2
  | .ringPrev => 3
  | .stByteSize => 4
  | .stMagic => 5

def Heap.member (h : Heap) (psegment : Nat) : Member → Option Nat
  | .lineNext => h.lineManage.next psegment
  | .linePrev => h.lineManage.prev psegment
  | .ringNext => h.ringFreeList.next psegment
  | .ringPrev => h.ringFreeList.prev psegment
  | .stByteSize => some (h.stByteSize psegment)
  | .stMagic => some (h.stMagic psegment)

def Stored (c : Config) (h h' : Heap) (y : Nat) : Prop :=
  ∃ x m, h'.member x m ≠ h.member x m ∧
    x + m.index * c.sizeofSizeT ≤ y ∧ y < x + (m.index + 1) * c.sizeofSizeT

variable (c : Config)

def dataPtr (psegment : Nat) : Nat := c.add psegment c.segmentBlockSizeAlign

def segPtr (pvData : Nat) : Nat := c.sub pvData c.segmentBlockSizeAlign

def nextPtr (h : Heap) (psegment : Nat) : Nat := c.add (dataPtr c psegment) (h.stByteSize psegment)

def segmentIsUsed (h : Heap) (psegment : Nat) : Bool := (h.ringFreeList.prev psegment).isNone

def segmentIsReal (h : Heap) (psegment : Nat) : Bool := h.stMagic psegment == segMagicReal

namespace Heap

def setByteSize (h : Heap) (psegment st : Nat) : Heap :=
  { h with stByteSize := update h.stByteSize psegment st }

def setMagic (h : Heap) (psegment st : Nat) : Heap :=
  { h with stMagic := update h.stMagic psegment st }

def ringDel (h : Heap) (psegment : Nat) : Heap :=
  { h with
    ringFreeList := (listRingDel h.ringFreeList psegment h.pringFreeSegment).1
    pringFreeSegment := (listRingDel h.ringFreeList psegment h.pringFreeSegment).2 }

def lineAddTail (h : Heap) (new left : Nat) : Heap :=
  { h with lineManage := (listLineAddTail h.lineManage new (some left)).1 }

def lineDel (h : Heap) (psegment : Nat) : Heap :=
  { h with lineManage := (listLineDel h.lineManage psegment none).1 }

/-- `__HEAP_ADD_NEW_SEG_TO_FREELIST`: the rightmost segment goes last, so that
fresh memory is used last. -/
def addNewSegToFreelist (h : Heap) (psegment : Nat) : Heap :=
  let ring :=
    match h.lineManage.next psegment with
    | some _ => listRingAddAhead h.ringFreeList psegment h.pringFreeSegment
    | none => listRingAddLast h.ringFreeList psegment h.pringFreeSegment
  { h with ringFreeList := ring.1, pringFreeSegment := ring.2 }

def updataMaxUsed (h : Heap) : Heap :=
  { h with
    stMaxUsedByteSize :=
      if h.stMaxUsedByteSize < h.stUsedByteSize then h.stUsedByteSize else h.stMaxUsedByteSize }

def accountUsed (h : Heap) (st : Nat) : Heap :=
  { h with
    stUsedByteSize := c.add h.stUsedByteSize st
    stFreeByteSize := c.sub h.stFreeByteSize st }

def accountFree (h : Heap) (st : Nat) : Heap :=
  { h with
    stUsedByteSize := c.sub h.stUsedByteSize st
    stFreeByteSize := c.add h.stFreeByteSize st }

def countUp (h : Heap) : Heap := { h with ulSegmentCounter := c.add h.ulSegmentCounter 1 }

def countDown (h : Heap) : Heap := { h with ulSegmentCounter := c.sub h.ulSegmentCounter 1 }

end Heap

def heapCrossbordSize (stSize : Nat) : Nat :=
  if c.crossBorderEn then c.add stSize c.sizeofSizeT else stSize

/-- `__heap_crossbord_mark`: the last word of the block. A word of the region is
addressed here by the header whose mark it would be. -/
def heapCrossbordMark (h : Heap) (psegment : Nat) : Heap :=
  if c.crossBorderEn then
    h.setMagic (c.sub (nextPtr c h psegment) c.segmentBlockSizeAlign) heapSegmentMarkFlag
  else h

def heapCtorEx (pheapToBuild : Heap) (pvStartAddress stByteSize : Nat) : Heap :=
  let ulStartAlign := c.roundUp pvStartAddress c.heapAlignment
  let stByteSize :=
    if ulStartAlign > pvStartAddress then c.sub stByteSize (c.sub ulStartAlign pvStartAddress)
    else stByteSize
  let stByteSize := c.roundDown stByteSize c.heapAlignment
  let psegment := ulStartAlign
  let lineManage := (pheapToBuild.lineManage.setNext psegment none).setPrev psegment none
  let ringFreeList := initListRingHead pheapToBuild.ringFreeList psegment
  let st := c.sub stByteSize c.segmentBlockSizeAlign
  { lineManage := lineManage
    ringFreeList := (listRingAddAhead ringFreeList psegment none).1
    pringFreeSegment := (listRingAddAhead ringFreeList psegment none).2
    stByteSize := update pheapToBuild.stByteSize psegment st
    stMagic := update pheapToBuild.stMagic psegment segMagicReal
    pvStartAddress := ulStartAlign
    ulSegmentCounter := 1
    stTotalByteSize := stByteSize
    stUsedByteSize := c.segmentBlockSizeAlign
    stFreeByteSize := st
    stMaxUsedByteSize := c.segmentBlockSizeAlign }

inductive AddStatus where
  | errorNone
  | efault
  | lockErr
  deriving DecidableEq, Repr

/-- The overlap test of `_HeapAddMemory`: the first or the last byte of the memory
is one of the segment's data. -/
def heapAddOverlaps (h : Heap) (ulStartAlign ulEnd psegment : Nat) : Bool :=
  let ulSeg := dataPtr c psegment
  let ulSegEnd := c.add ulSeg (h.stByteSize psegment)
  (ulSeg ≤ ulStartAlign && ulStartAlign < ulSegEnd) || (ulSeg ≤ ulEnd && ulEnd < ulSegEnd)

/-- The loop of `_HeapAddMemory`: the last segment, which is not tested itself, or
null as soon as the memory overlaps with one before it. -/
def heapAddScan (h : Heap) (ulStartAlign ulEnd : Nat) : Nat → Nat → Option Nat
  | 0, _ => none
  | fuel + 1, psegment =>
    match h.lineManage.next psegment with
    | none => some psegment
    | some next =>
      if heapAddOverlaps c h ulStartAlign ulEnd psegment then none
      else heapAddScan h ulStartAlign ulEnd fuel next

def heapAddMemory (h : Heap) (pvMemory stSize : Nat) (ulLockErr : Bool) : AddStatus × Heap :=
  let ulStartAlign := c.roundUp pvMemory c.heapAlignment
  let stSize :=
    if ulStartAlign > pvMemory then c.sub stSize (c.sub ulStartAlign pvMemory) else stSize
  let stSize := c.roundDown stSize c.heapAlignment
  let ulEnd := c.sub (c.add ulStartAlign stSize) 1
  if ulLockErr then (.lockErr, h)
  else
    match heapAddScan c h ulStartAlign ulEnd h.ulSegmentCounter h.pvStartAddress with
    | none => (.efault, h)
    | some psegmentLast =>
      let psegmentNew := ulStartAlign
      let st := c.sub stSize c.segmentBlockSizeAlign
      let h := h.setByteSize psegmentNew st
      let h := h.setMagic psegmentNew segMagicReal
      let h := { h with lineManage := listLineAddRight h.lineManage psegmentNew psegmentLast }
      let h := (h.addNewSegToFreelist psegmentNew).countUp c
      (.errorNone,
        { h with
          stTotalByteSize := c.add h.stTotalByteSize stSize
          stUsedByteSize := c.add h.stUsedByteSize c.segmentBlockSizeAlign
          stFreeByteSize := c.add h.stFreeByteSize st })

/-- The common end of both allocations: the segment leaves the free ring and what
it has beyond `stSize` becomes a new free segment when it is large enough. -/
def heapTake (h : Heap) (psegment stSize : Nat) : Heap :=
  let h := h.ringDel psegment
  let stNewSegSize := c.sub (h.stByteSize psegment) stSize
  if stNewSegSize > c.segmentBlockSizeAlign + heapSegMinSize then
    let h := h.setByteSize psegment stSize
    let psegmentNew := c.add (dataPtr c psegment) stSize
    let h := h.setByteSize psegmentNew (c.sub stNewSegSize c.segmentBlockSizeAlign)
    let h := h.setMagic psegmentNew segMagicReal
    let h := h.lineAddTail psegmentNew psegment
    let h := h.addNewSegToFreelist psegmentNew
    (h.countUp c).accountUsed c (c.add stSize c.segmentBlockSizeAlign)
  else
    h.accountUsed c (h.stByteSize psegment)

def heapAllocate (h : Heap) (stByteSize : Nat) (ulLockErr : Bool) : Option Nat × Heap :=
  let stSize := c.roundUp (heapCrossbordSize c stByteSize) heapSegMinSize
  if h.stFreeByteSize < stSize then (none, h)
  else if ulLockErr then (none, h)
  else
    match h.pringFreeSegment with
    | none => (none, h)
    | some first =>
      match ringScan h.ringFreeList h.pringFreeSegment (fun s => stSize ≤ h.stByteSize s)
          h.ulSegmentCounter first with
      | none => (none, h)
      | some psegment =>
        let h := (heapTake c h psegment stSize).updataMaxUsed
        (some (dataPtr c psegment), heapCrossbordMark c h psegment)

def alignPtr (stAlign psegment : Nat) : Nat :=
  let ulAlignMask := c.sub stAlign 1
  if dataPtr c psegment &&& ulAlignMask = 0 then dataPtr c psegment
  else c.add (dataPtr c psegment ||| ulAlignMask) 1

def addedSize (stAlign psegment : Nat) : Nat :=
  c.sub (alignPtr c stAlign psegment) (dataPtr c psegment)

/-- The front split of `_HeapAllocateAlign`: the part before the aligned address
stays free and the part behind it becomes a free segment of its own. -/
def heapSplitFront (h : Heap) (psegment stAddedSize : Nat) : Heap × Nat :=
  let psegmentNew := c.sub (c.add (dataPtr c psegment) stAddedSize) c.segmentBlockSizeAlign
  let h := h.setByteSize psegmentNew (c.sub (h.stByteSize psegment) stAddedSize)
  let h := h.setMagic psegmentNew segMagicReal
  let h := h.lineAddTail psegmentNew psegment
  let h := h.addNewSegToFreelist psegmentNew
  let h := h.setByteSize psegment (c.sub stAddedSize c.segmentBlockSizeAlign)
  ((h.countUp c).accountUsed c c.segmentBlockSizeAlign, psegmentNew)

/-- `_HeapAllocateAlign`. A block that starts behind the data pointer records its
segment in the word before it, which is the mark of the header that would end
there. -/
def heapAllocateAlign (h : Heap) (stByteSize stAlign : Nat) (ulLockErr : Bool) :
    Option Nat × Heap :=
  let stSize := c.roundUp (heapCrossbordSize c stByteSize) heapSegMinSize
  if h.stFreeByteSize < stSize then (none, h)
  else if ulLockErr then (none, h)
  else
    match h.pringFreeSegment with
    | none => (none, h)
    | some first =>
      match ringScan h.ringFreeList h.pringFreeSegment
          (fun s => c.add stSize (addedSize c stAlign s) ≤ h.stByteSize s)
          h.ulSegmentCounter first with
      | none => (none, h)
      | some psegment =>
        let pcAlign := alignPtr c stAlign psegment
        let stAddedSize := addedSize c stAlign psegment
        if stAddedSize ≥ c.segmentBlockSizeAlign + heapSegMinSize then
          let split := heapSplitFront c h psegment stAddedSize
          let h := (heapTake c split.1 split.2 stSize).updataMaxUsed
          (some pcAlign, heapCrossbordMark c h split.2)
        else
          let h := heapTake c h psegment (c.add stSize stAddedSize)
          let h := if stAddedSize ≠ 0 then h.setMagic (segPtr c pcAlign) psegment else h
          (some pcAlign, heapCrossbordMark c h.updataMaxUsed psegment)

def heapVerify (h : Heap) (pvStartAddress : Nat) : Option Nat :=
  if pvStartAddress < h.pvStartAddress ∨
      c.add h.pvStartAddress h.stTotalByteSize ≤ pvStartAddress then none
  else
    match lineScan h.lineManage
        (fun s => s < pvStartAddress && pvStartAddress ≤ nextPtr c h s)
        h.ulSegmentCounter (some h.pvStartAddress) with
    | none => none
    | some psegment => if segmentIsUsed h psegment then some psegment else none

/-- The segment a pointer belongs to, with and without `bIsNeedVerify`. -/
def heapSegmentOf (h : Heap) (pvStartAddress : Nat) (bIsNeedVerify : Bool) : Option Nat :=
  if bIsNeedVerify then heapVerify c h pvStartAddress
  else
    let psegment :=
      if segmentIsReal h (segPtr c pvStartAddress) then segPtr c pvStartAddress
      else h.stMagic (segPtr c pvStartAddress)
    if !segmentIsReal h psegment || !segmentIsUsed h psegment then none else some psegment

def heapMergeLeft (h : Heap) (psegment : Nat) : Heap × Nat × Bool :=
  match h.lineManage.prev psegment with
  | none => (h, psegment, false)
  | some psegmentLeft =>
    if segmentIsUsed h psegmentLeft || nextPtr c h psegmentLeft != psegment then
      (h, psegment, false)
    else
      let plineRight := h.lineManage.next psegment
      let st := c.add (h.stByteSize psegment) c.segmentBlockSizeAlign
      let h := h.setByteSize psegmentLeft (c.add (h.stByteSize psegmentLeft) st)
      let h := h.lineDel psegment
      let h := (h.countDown c).accountFree c st
      let h :=
        if plineRight = none then (h.ringDel psegmentLeft).addNewSegToFreelist psegmentLeft else h
      (h, psegmentLeft, true)

def heapMergeRight (h : Heap) (psegment : Nat) (plineRight : Option Nat)
    (stSegmentByteSizeFree : Nat) (bIsMergeOk : Bool) : Heap :=
  let rightMergeFail :=
    if bIsMergeOk then h
    else (h.addNewSegToFreelist psegment).accountFree c stSegmentByteSizeFree
  match plineRight with
  | none => rightMergeFail
  | some psegmentRight =>
    if segmentIsUsed h psegmentRight || nextPtr c h psegment != psegmentRight then rightMergeFail
    else
      let st := c.add (h.stByteSize psegmentRight) c.segmentBlockSizeAlign
      let h := h.setByteSize psegment (c.add (h.stByteSize psegment) st)
      let h := h.ringDel psegmentRight
      let h := h.lineDel psegmentRight
      let h := h.countDown c
      if bIsMergeOk then
        let h :=
          if h.lineManage.next psegment = none then
            (h.ringDel psegment).addNewSegToFreelist psegment
          else h
        h.accountFree c c.segmentBlockSizeAlign
      else
        (h.addNewSegToFreelist psegment).accountFree c
          (c.add c.segmentBlockSizeAlign stSegmentByteSizeFree)

def heapRelease (h : Heap) (psegment : Nat) : Heap :=
  let plineRight := h.lineManage.next psegment
  let stSegmentByteSizeFree := h.stByteSize psegment
  let left := heapMergeLeft c h psegment
  heapMergeRight c left.1 left.2.1 plineRight stSegmentByteSizeFree left.2.2

def heapFree (h : Heap) (pvStartAddress : Option Nat) (bIsNeedVerify ulLockErr : Bool) :
    Option Nat × Heap :=
  match pvStartAddress with
  | none => (none, h)
  | some p =>
    if ulLockErr then (some p, h)
    else
      match heapSegmentOf c h p bIsNeedVerify with
      | none => (some p, h)
      | some psegment => (none, heapRelease c h psegment)

/-- Whether each of the three times `_HeapRealloc` takes the lock fails: its own,
that of the inner allocation and that of the inner release. -/
structure LockErr where
  realloc : Bool
  allocate : Bool
  free : Bool
  deriving DecidableEq, Repr

/-- `__split_segment` of `_HeapRealloc`: cut the segment at `stSize` and release
what is left when a segment fits there. -/
def heapSplitSegment (h : Heap) (psegment stSize : Nat) (err : LockErr) : Option Nat × Heap :=
  let stNewSegSize := c.sub (h.stByteSize psegment) stSize
  if stNewSegSize < c.segmentBlockSizeAlign + heapSegMinSize then
    (some (dataPtr c psegment), heapCrossbordMark c h.updataMaxUsed psegment)
  else
    let h := h.setByteSize psegment stSize
    let psegmentNew := c.add (dataPtr c psegment) stSize
    let h := h.setByteSize psegmentNew (c.sub stNewSegSize c.segmentBlockSizeAlign)
    let h := h.setMagic psegmentNew segMagicReal
    let h := { h with ringFreeList := initListRingHead h.ringFreeList psegmentNew }
    let h := h.lineAddTail psegmentNew psegment
    let h := h.countUp c
    let h := heapCrossbordMark c h psegmentNew
    let h := (heapFree c h (some (dataPtr c psegmentNew)) false err.free).2
    (some (dataPtr c psegment), heapCrossbordMark c h.updataMaxUsed psegment)

def heapRealloc (h : Heap) (pvStartAddress : Option Nat) (stNewByteSize : Nat)
    (bIsNeedVerify : Bool) (err : LockErr) : Option Nat × Heap :=
  match pvStartAddress with
  | none => if stNewByteSize = 0 then (none, h) else heapAllocate c h stNewByteSize err.allocate
  | some p =>
    if stNewByteSize = 0 then heapFree c h (some p) bIsNeedVerify err.free
    else
      let stSize := c.roundUp (heapCrossbordSize c stNewByteSize) heapSegMinSize
      if err.realloc then (none, h)
      else
        match heapSegmentOf c h p bIsNeedVerify with
        | none => (none, h)
        | some psegment =>
          if p ≠ dataPtr c psegment then (none, h)
          else if stSize = h.stByteSize psegment then (some p, h)
          else if stSize > h.stByteSize psegment then
            -- the right neighbour is taken over when it is free and large enough
            match (h.lineManage.next psegment).filter (fun psegmentRight =>
                !segmentIsUsed h psegmentRight && nextPtr c h psegment == psegmentRight &&
                c.sub stSize (h.stByteSize psegment) ≤
                  c.add (h.stByteSize psegmentRight) c.segmentBlockSizeAlign) with
            | some psegmentRight =>
              let stRight := h.stByteSize psegmentRight
              let h := h.ringDel psegmentRight
              let h := h.lineDel psegmentRight
              let h := h.setByteSize psegment
                (c.add (h.stByteSize psegment) (c.add stRight c.segmentBlockSizeAlign))
              let h := (h.countDown c).accountUsed c stRight
              heapSplitSegment c h psegment stSize err
            | none =>
              match heapAllocate c h stSize err.allocate with
              | (none, h) => (none, h.updataMaxUsed)
              | (some q, h) =>
                (some q, (heapFree c h (some (dataPtr c psegment)) false err.free).2.updataMaxUsed)
          else heapSplitSegment c h psegment stSize err

end SylixOS.HeapLib
