import SylixOS.ListLink
import Mathlib.Algebra.GroupWithZero.Nat

/-! The page zones of the virtual memory manager (pageLib.c). A zone is cut into blocks of
pages, linked to their neighbours; the free ones stand in a hash table by their size. All
zones share the control blocks. What a block in use records of its mappings is left out.
-/

namespace SylixOS.PageLib
open LinkedChain ListLink Function

inductive PageType where
  | physical
  | virtual
  deriving DecidableEq, Repr

structure Config where
  maxOrder : ℕ
  pageShift : ℕ
  maxOrder_pos : 0 < maxOrder

/-- The zones and the control blocks; of a zone that is not created nothing is known. -/
structure Store (Z P : Type*) where
  lineFreeHash : Links P
  lineManage : Links P
  ulCount : P → ℕ
  ulPageAddr : P → ℕ
  iPageType : P → PageType
  bUsed : P → Bool
  pvmzoneOwner : P → Z
  /-- The control blocks that `__pageCbAlloc` has given out. -/
  allocated : P → Bool
  created : Z → Bool
  ulFreePage : Z → ℕ
  ulAddr : Z → ℕ
  stSize : Z → ℕ
  /-- `FA_lineFreeHeader` and `FA_ulCount` of `ZONE_vmfa` -/
  lineFreeHeader : Z → ℕ → Option P
  faCount : Z → ℕ → ℕ

variable {Z P : Type*} [DecidableEq Z] [DecidableEq P] (cfg : Config) (s : Store Z P)

def Store.pageCbAlloc (p : P) : Store Z P :=
  { s with allocated := update s.allocated p true }

def Store.pageCbFree (p : P) : Store Z P :=
  { s with allocated := update s.allocated p false }

def Store.setUsed (p : P) (bUsed : Bool) : Store Z P :=
  { s with bUsed := update s.bUsed p bUsed }

def Store.setCount (p : P) (ulCount : ℕ) : Store Z P :=
  { s with ulCount := update s.ulCount p ulCount }

def Store.setFreePage (z : Z) (ulFreePage : ℕ) : Store Z P :=
  { s with ulFreePage := update s.ulFreePage z ulFreePage }

def pageFreeHashLoop (ulPageNum : ℕ) : (left i : ℕ) → ℕ
  | 0, i => i
  | left + 1, i => if 2 ^ i < ulPageNum then pageFreeHashLoop ulPageNum left (i + 1) else i

def pageFreeHashIndex (ulPageNum : ℕ) : ℕ :=
  let i := pageFreeHashLoop ulPageNum ulPageNum 0
  if i ≥ cfg.maxOrder then cfg.maxOrder - 1 else i

def Store.areaAdd (z : Z) (i : ℕ) (p : P) : Store Z P :=
  let r := listLineAddAhead s.lineFreeHash p (s.lineFreeHeader z i)
  { s with
    lineFreeHash := r.1
    lineFreeHeader := update s.lineFreeHeader z
      (update (s.lineFreeHeader z) i r.2)
    faCount := update s.faCount z
      (update (s.faCount z) i (s.faCount z i + 1)) }

def Store.areaDel (z : Z) (i : ℕ) (p : P) : Store Z P :=
  let r := listLineDel s.lineFreeHash p (s.lineFreeHeader z i)
  { s with
    lineFreeHash := r.1
    lineFreeHeader := update s.lineFreeHeader z
      (update (s.lineFreeHeader z) i r.2)
    faCount := update s.faCount z
      (update (s.faCount z) i (s.faCount z i - 1)) }

def Store.pageAddToFreeHash (z : Z) (p : P) : Store Z P :=
  s.areaAdd z (pageFreeHashIndex cfg (s.ulCount p)) p

def Store.pageDelFromFreeHash (z : Z) (p : P) : Store Z P :=
  s.areaDel z (pageFreeHashIndex cfg (s.ulCount p)) p

def Store.pageStructSeparate (p new : P) (ulPageNum : ℕ) (iPageType : PageType) : Store Z P :=
  { s with
    lineManage := (listLineAddTail s.lineManage new (some p)).1
    ulCount := update (update s.ulCount new (s.ulCount p - ulPageNum)) p ulPageNum
    ulPageAddr := update s.ulPageAddr new
      (s.ulPageAddr p + ulPageNum <<< cfg.pageShift)
    iPageType := update s.iPageType new iPageType
    pvmzoneOwner := update s.pvmzoneOwner new (s.pvmzoneOwner p) }

def Store.drop (p : P) : Store Z P :=
  ({ s with lineManage := (listLineDel s.lineManage p none).1 } : Store Z P).pageCbFree p

def Store.initZone (z : Z) (p : P) (ulAddr stSize : ℕ) (iPageType : PageType) : Store Z P :=
  let ulFreePage := stSize >>> cfg.pageShift
  { s with
    created := update s.created z true
    ulFreePage := update s.ulFreePage z ulFreePage
    ulAddr := update s.ulAddr z ulAddr
    stSize := update s.stSize z stSize
    lineFreeHeader := update s.lineFreeHeader z fun _ => none
    faCount := update s.faCount z fun _ => 0
    lineManage := (s.lineManage.setNext p none).setPrev p none
    ulCount := update s.ulCount p ulFreePage
    ulPageAddr := update s.ulPageAddr p ulAddr
    iPageType := update s.iPageType p iPageType
    bUsed := update s.bUsed p false
    pvmzoneOwner := update s.pvmzoneOwner p z }

def pageZoneCreate (z : Z) (ulAddr stSize : ℕ) (iPageType : PageType) (cb : Option P) : Store Z P :=
  match cb with
  | none => s
  | some p =>
    let s := s.pageCbAlloc p
    let s := s.initZone cfg z p ulAddr stSize iPageType
    s.pageAddToFreeHash cfg z p

/-- The merge of `__pageFree` with the free block on its left, if there is one: the block that is
left, and the store. -/
def Store.mergeLeft (z : Z) (p : P) : P × Store Z P :=
  match s.lineManage.prev p with
  | none => (p, s)
  | some l =>
    if s.bUsed l then (p, s)
    else
      let s := s.pageDelFromFreeHash cfg z l
      let s := s.setCount l (s.ulCount l + s.ulCount p)
      (l, s.drop p)

def Store.mergeRight (z : Z) (p : P) (right : Option P) : Store Z P :=
  match right with
  | none => s
  | some r =>
    if s.bUsed r then s
    else
      let s := s.pageDelFromFreeHash cfg z r
      let s := s.setCount p (s.ulCount p + s.ulCount r)
      s.drop r

def pageFree (z : Z) (p : P) : Store Z P :=
  let right := s.lineManage.next p
  let ulFreePageNum := s.ulCount p
  let (p, s) := s.mergeLeft cfg z p
  let s := s.mergeRight cfg z p right
  let s := s.setUsed p false
  let s := s.pageAddToFreeHash cfg z p
  s.setFreePage z (s.ulFreePage z + ulFreePageNum)

def lineWalk (L : Links P) : (left : ℕ) → Option P → List P
  | left + 1, some p => p :: lineWalk L left (L.next p)
  | _, _ => []

def Store.area (z : Z) (i : ℕ) : List P :=
  lineWalk s.lineFreeHash (s.faCount z i) (s.lineFreeHeader z i)

def leftFreePageNum (stAlign ulPageAddr : ℕ) : ℕ :=
  let ulAlignMask := stAlign - 1
  if ulPageAddr &&& ulAlignMask = 0 then 0
  else ((ulPageAddr ||| ulAlignMask) + 1 - ulPageAddr) >>> cfg.pageShift

/-- One block in the search for the best fit: it has to have `left` pages more than asked for.
Before the first fit, `ulFit` is `~0ul`. -/
def Store.better (ulPageNum : ℕ) (left : P → ℕ) (fit : Option (P × ℕ)) (p : P) : Option (P × ℕ) :=
  if s.ulCount p ≥ ulPageNum + left p then
    match fit with
    | none => some (p, s.ulCount p - ulPageNum)
    | some (q, ulFit) =>
      if s.ulCount p - ulPageNum < ulFit then some (p, s.ulCount p - ulPageNum)
      else some (q, ulFit)
  else fit

/-- The search through the entries of the hash table, from `i` on: the entry, the best fit in it,
and how many pages this has more than asked for. -/
def Store.search (z : Z) (ulPageNum : ℕ) (left : P → ℕ) : (orders i : ℕ) → Option (ℕ × P × ℕ)
  | 0, _ => none
  | orders + 1, i =>
    match (s.area z i).foldl (s.better ulPageNum left) none with
    | some (p, ulFit) => some (i, p, ulFit)
    | none => Store.search z ulPageNum left orders (i + 1)

def pageAllocate (z : Z) (ulPageNum : ℕ) (iPageType : PageType) (cb : Option P) :
    Option P × Store Z P :=
  let iHashIndex := pageFreeHashIndex cfg ulPageNum
  match s.search z ulPageNum (fun _ => 0) (cfg.maxOrder - iHashIndex) iHashIndex with
  | none => (none, s)
  | some (i, fit, ulFit) =>
    if ulFit ≠ 0 then
      match cb with
      | none => (none, s)
      | some new =>
        let s := s.pageCbAlloc new
        let s := s.areaDel z i fit
        let s := (s.setUsed fit true).setUsed new false
        let s := s.pageStructSeparate cfg fit new ulPageNum iPageType
        let s := s.pageAddToFreeHash cfg z new
        (some fit, s.setFreePage z (s.ulFreePage z - ulPageNum))
    else
      let s := s.areaDel z i fit
      let s := s.setUsed fit true
      (some fit, s.setFreePage z (s.ulFreePage z - ulPageNum))

def Store.cutLeft (z : Z) (fit new : P) (ulLeftFreePageNum : ℕ) : Store Z P :=
  let s := (s.setUsed fit false).setUsed new true
  let s := s.pageStructSeparate cfg fit new ulLeftFreePageNum (s.iPageType fit)
  s.pageAddToFreeHash cfg z fit

def Store.cutRight (z : Z) (fit new : P) (ulPageNum : ℕ) (iPageType : PageType) : Store Z P :=
  let s := (s.setUsed fit true).setUsed new false
  let s := s.pageStructSeparate cfg fit new ulPageNum iPageType
  s.pageAddToFreeHash cfg z new

def pageAllocateAlign (z : Z) (ulPageNum stAlign : ℕ) (iPageType : PageType)
    (cbLeft cbRight : Option P) : Option P × Store Z P :=
  let iHashIndex := pageFreeHashIndex cfg ulPageNum
  let left := fun p => leftFreePageNum cfg stAlign (s.ulPageAddr p)
  match s.search z ulPageNum left (cfg.maxOrder - iHashIndex) iHashIndex with
  | none => (none, s)
  | some (i, fit, ulFit) =>
    let ulLeft := left fit
    if ulLeft ≠ 0 then
      match cbLeft with
      | none => (none, s)
      | some newLeft =>
        let s := s.pageCbAlloc newLeft
        if ulFit ≠ ulLeft then
          match cbRight with
          | none => (none, s.pageCbFree newLeft)
          | some newRight =>
            let s := s.pageCbAlloc newRight
            let s := s.areaDel z i fit
            let s := s.cutLeft cfg z fit newLeft ulLeft
            let s := s.cutRight cfg z newLeft newRight ulPageNum iPageType
            (some newLeft, s.setFreePage z (s.ulFreePage z - ulPageNum))
        else
          let s := s.areaDel z i fit
          let s := s.cutLeft cfg z fit newLeft ulLeft
          let s := s.setUsed newLeft true
          (some newLeft, s.setFreePage z (s.ulFreePage z - ulPageNum))
    else if ulFit ≠ ulLeft then
      match cbRight with
      | none => (none, s)
      | some newRight =>
        let s := s.pageCbAlloc newRight
        let s := s.areaDel z i fit
        let s := s.cutRight cfg z fit newRight ulPageNum iPageType
        (some fit, s.setFreePage z (s.ulFreePage z - ulPageNum))
    else
      let s := s.areaDel z i fit
      let s := s.setUsed fit true
      (some fit, s.setFreePage z (s.ulFreePage z - ulPageNum))

inductive Result where
  | none
  | vmmPageInval
  | vmmLowPage
  | kernelLowMemory
  deriving DecidableEq, Repr

def pageExpand (p : P) (ulExpPageNum : ℕ) (cb : Option P) : Result × Store Z P :=
  if s.iPageType p ≠ .virtual then (.vmmPageInval, s)
  else
    match s.lineManage.next p with
    | none => (.vmmLowPage, s)
    | some r =>
      if s.bUsed r ∨ s.ulCount r < ulExpPageNum then (.vmmLowPage, s)
      else
        let z := s.pvmzoneOwner p
        let i := pageFreeHashIndex cfg (s.ulCount r)
        if s.ulCount r > ulExpPageNum then
          match cb with
          | none => (.kernelLowMemory, s)
          | some new =>
            let s := s.pageCbAlloc new
            let s := s.areaDel z i r
            let s := s.cutRight cfg z r new ulExpPageNum (s.iPageType r)
            let s := s.setFreePage z (s.ulFreePage z - ulExpPageNum)
            let s := s.setCount p (s.ulCount p + ulExpPageNum)
            (.none, s.drop r)
        else
          let s := s.areaDel z i r
          let s := s.setUsed r true
          let s := s.setFreePage z (s.ulFreePage z - ulExpPageNum)
          let s := s.setCount p (s.ulCount p + ulExpPageNum)
          (.none, s.drop r)

def pageSplit (p : P) (ulPageNum : ℕ) (cb : Option P) : Result × Store Z P :=
  if s.iPageType p ≠ .virtual then (.vmmPageInval, s)
  else if s.ulCount p ≤ ulPageNum then (.vmmLowPage, s)
  else
    match cb with
    | none => (.kernelLowMemory, s)
    | some new =>
      let s := s.pageCbAlloc new
      let s := s.setUsed new true
      (.none, s.pageStructSeparate cfg p new ulPageNum (s.iPageType p))

def pageMerge (l r : P) : Result × Store Z P :=
  if s.iPageType l ≠ .virtual ∨ s.iPageType r ≠ .virtual then (.vmmPageInval, s)
  else
    let s := s.setCount l (s.ulCount l + s.ulCount r)
    (.none, s.drop r)

inductive Action (Z P : Type*) where
  | create (z : Z) (ulAddr stSize : ℕ) (iPageType : PageType) (cb : Option P)
  | allocate (z : Z) (ulPageNum : ℕ) (iPageType : PageType) (cb : Option P)
  | allocateAlign (z : Z) (ulPageNum stAlign : ℕ) (iPageType : PageType)
      (cbLeft cbRight : Option P)
  | free (z : Z) (p : P)
  | expand (p : P) (ulExpPageNum : ℕ) (cb : Option P)
  | split (p : P) (ulPageNum : ℕ) (cb : Option P)
  | merge (l r : P)

def Store.Fresh (cb : Option P) : Prop := ∀ p ∈ cb, s.allocated p = false

instance (cb : Option P) : Decidable (s.Fresh cb) :=
  match cb with
  | none => isTrue nofun
  | some p => decidable_of_iff (s.allocated p = false) (by simp [Store.Fresh])

def Store.Valid (z : Z) (p : P) : Prop :=
  s.allocated p = true ∧ s.bUsed p = true ∧ s.pvmzoneOwner p = z

instance (z : Z) (p : P) : Decidable (s.Valid z p) := inferInstanceAs (Decidable (_ ∧ _ ∧ _))

/-- One call, on valid blocks, with the control blocks that `__pageCbAlloc` will give out; a zone
is created once. Only neighbours are merged. -/
def step : Action Z P → Option (Store Z P)
  | .create z ulAddr stSize iPageType cb =>
    if s.created z = false ∧ s.Fresh cb then some (pageZoneCreate cfg s z ulAddr stSize iPageType cb)
    else none
  | .allocate z ulPageNum iPageType cb =>
    if s.created z = true ∧ s.Fresh cb then some (pageAllocate cfg s z ulPageNum iPageType cb).2
    else none
  | .allocateAlign z ulPageNum stAlign iPageType cbLeft cbRight =>
    if s.created z = true ∧ s.Fresh cbLeft ∧ s.Fresh cbRight ∧ (cbLeft = cbRight → cbLeft = none) then
      some (pageAllocateAlign cfg s z ulPageNum stAlign iPageType cbLeft cbRight).2
    else none
  | .free z p => if s.Valid z p then some (pageFree cfg s z p) else none
  | .expand p ulExpPageNum cb =>
    if s.Valid (s.pvmzoneOwner p) p ∧ s.Fresh cb then some (pageExpand cfg s p ulExpPageNum cb).2
    else none
  | .split p ulPageNum cb =>
    if s.Valid (s.pvmzoneOwner p) p ∧ s.Fresh cb then some (pageSplit cfg s p ulPageNum cb).2
    else none
  | .merge l r =>
    if s.Valid (s.pvmzoneOwner l) l ∧ s.Valid (s.pvmzoneOwner l) r ∧ s.lineManage.next l = some r then
      some (pageMerge s l r).2
    else none

def Store.boot : Store Z P :=
  { s with
    created := fun _ => false
    allocated := fun _ => false }

end SylixOS.PageLib
