import SylixOS.EventList
import SylixOS.StepRuns
import Mathlib.Data.BitVec

/-! Read-write semaphores (SemaphoreRWPend.c, SemaphoreRWPost.c). The last post of a hold
period looks for readers with the interrupts on, switches them off and gives the semaphore
to a writer or to all readers, with the interrupts on after each of them. The kernel stays
locked, so that only time-outs come in between. -/

namespace SylixOS.SemaphoreRW
open EventList StepRuns Function

variable {T : Type*} {w : ℕ}

inductive Mode where
  | r
  | w
  deriving DecidableEq, Repr

structure Attr (T : Type*) where
  waitPriority : Bool
  rwPreferWriter : Bool
  ucPriority : T → Fin 256

inductive Posting (T : Type*) where
  /-- The last operation ends; the interrupts are still on. -/
  | tested (ptcbCur : T) (bIgnWrite : Bool)
  /-- The writer is out of the queue and not yet the owner. -/
  | writer (ptcb : T)
  /-- In the loop over the readers, with the interrupts on. -/
  | readers
  deriving DecidableEq, Repr

/-- `readers` has a thread once for each of its read holds. `waited` says whether somebody was
waiting when the last post of a hold period switched the interrupts off, and `handed` who has
got the semaphore from it. -/
structure State (T : Type*) (w : ℕ) where
  ulCounter : BitVec w
  iStatus : Mode
  pvPtr : BitVec w
  pvTcbOwn : Option T
  waitQ : Mode → WaitList T
  /-- `TCB_iPendQ` of the blocked threads. -/
  iPendQ : T → Option Mode
  posting : Option (Posting T)
  readers : List T
  waited : Bool
  handed : List T

def State.create : State T w where
  ulCounter := 0
  iStatus := .r
  pvPtr := 0
  pvTcbOwn := none
  waitQ _ := WaitList.create
  iPendQ _ := none
  posting := none
  readers := []
  waited := false
  handed := []

inductive Ret where
  | errorNone
  | errorThreadWaitTimeout
  | errorEventNotOwn
  deriving DecidableEq, Repr

section Code

variable [DecidableEq T] (attr : Attr T) (s : State T w)

def State.HasWaiter (s : State T w) (q : Mode) : Prop := (s.waitQ q).eventWaitNum ≠ 0

omit [DecidableEq T] in
instance (q : Mode) : Decidable (s.HasWaiter q) :=
  inferInstanceAs (Decidable ((s.waitQ q).eventWaitNum ≠ 0))

def State.sleep (ptcbCur : T) (q : Mode) : State T w :=
  { s with
    waitQ := update s.waitQ q
      ((s.waitQ q).eventWait attr.waitPriority attr.ucPriority ptcbCur)
    iPendQ := update s.iPendQ ptcbCur (some q) }

def State.enterR (ptcbCur : T) : State T w :=
  { s with
    ulCounter := s.ulCounter + 1
    readers := ptcbCur :: s.readers }

def semaphoreRWPendR (ptcbCur : T) (notWait : Bool) : State T w × Option Ret :=
  if s.iStatus = .r ∧ ¬s.HasWaiter .w then (s.enterR ptcbCur, some .errorNone)
  else if notWait then (s, some .errorThreadWaitTimeout)
  else (s.sleep attr ptcbCur .r, none)

def State.takeW (ptcbCur : T) : State T w :=
  { s with
    ulCounter := s.ulCounter + 1
    iStatus := .w
    pvTcbOwn := some ptcbCur }

def semaphoreRWPendW (ptcbCur : T) (notWait : Bool) : State T w × Option Ret :=
  if s.ulCounter = 0 then (s.takeW ptcbCur, some .errorNone)
  else if s.pvTcbOwn = some ptcbCur then ({ s with pvPtr := s.pvPtr + 1 }, some .errorNone)
  else if notWait then (s, some .errorThreadWaitTimeout)
  else (s.sleep attr ptcbCur .w, none)

def State.leaveR (ptcbCur : T) : State T w :=
  { s with
    ulCounter := s.ulCounter - 1
    readers := s.readers.erase ptcbCur }

def semaphoreRWPost (ptcbCur : T) : State T w × Option Ret :=
  if s.ulCounter = 0 then (s, some .errorEventNotOwn)
  else if s.iStatus = .r then
    if 1 < s.ulCounter.toNat then (s.leaveR ptcbCur, some .errorNone)
    else ({ s with
      posting := some (.tested ptcbCur (!attr.rwPreferWriter && decide (s.HasWaiter .r))) }, none)
  else if s.pvTcbOwn ≠ some ptcbCur then (s, some .errorEventNotOwn)
  else if s.pvPtr ≠ 0 then ({ s with pvPtr := s.pvPtr - 1 }, some .errorNone)
  else ({ s with posting := some (.tested ptcbCur false) }, none)

def State.dequeue (ptcb : T) (q : Mode) : State T w :=
  { s with waitQ := update s.waitQ q ((s.waitQ q).eventUnQueue ptcb) }

def State.wakeR : Option (State T w) :=
  ((s.waitQ .r).eventQGetTcb attr.waitPriority).map fun ptcb =>
    { s.dequeue ptcb .r with
      ulCounter := s.ulCounter + 1
      iPendQ := update s.iPendQ ptcb none
      posting := some .readers
      readers := ptcb :: s.readers
      handed := ptcb :: s.handed }

def State.finishR : State T w :=
  { s with
    pvTcbOwn := none
    iStatus := .r
    posting := none }

def State.closed (ptcbCur : T) : State T w :=
  { s with
    readers := s.readers.erase ptcbCur
    waited := decide (s.HasWaiter .w ∨ s.HasWaiter .r)
    handed := [] }

def State.released (ptcbCur : T) : State T w :=
  { s.closed ptcbCur with ulCounter := s.ulCounter - 1 }

/-- `__release_pend` with the interrupts off; a queue with waiters and nobody in its rings would be a
null dereference. -/
def State.release (ptcbCur : T) (bIgnWrite : Bool) : Option (State T w) :=
  if s.HasWaiter .w ∧ !bIgnWrite then
    ((s.waitQ .w).eventQGetTcb attr.waitPriority).map fun ptcb =>
      { (s.closed ptcbCur).dequeue ptcb .w with posting := some (.writer ptcb) }
  else if s.HasWaiter .r then (s.released ptcbCur).wakeR attr
  else some (s.released ptcbCur).finishR

def State.grant (ptcb : T) : State T w :=
  { s with
    pvTcbOwn := some ptcb
    iStatus := .w
    iPendQ := update s.iPendQ ptcb none
    posting := none
    handed := [ptcb] }

def State.post : Posting T → Option (State T w)
  | .tested ptcbCur bIgnWrite => s.release attr ptcbCur bIgnWrite
  | .writer ptcb => some (s.grant ptcb)
  | .readers => if s.HasWaiter .r then s.wakeR attr else some s.finishR

/-- `_EventUnQueue` by `_ThreadTick`. A waiter that a signal takes out of the queue leaves it in the
same way, and then pends again or returns. -/
def State.unQueue (ptcb : T) (q : Mode) : State T w :=
  { s.dequeue ptcb q with iPendQ := update s.iPendQ ptcb none }

end Code

inductive Action (T : Type*) where
  | pendR (t : T) (notWait : Bool)
  | pendW (t : T) (notWait : Bool)
  | post (t : T)
  | goOn
  | timeOut (t : T)
  deriving DecidableEq, Repr

def State.Runs (s : State T w) (t : T) : Prop := s.posting = none ∧ s.iPendQ t = none

instance [DecidableEq T] (s : State T w) (t : T) : Decidable (s.Runs t) :=
  inferInstanceAs (Decidable (s.posting = none ∧ s.iPendQ t = none))

def step [DecidableEq T] (attr : Attr T) (s : State T w) : Action T → Option (State T w)
  | .pendR t notWait => if s.Runs t then some (semaphoreRWPendR attr s t notWait).1 else none
  | .pendW t notWait => if s.Runs t then some (semaphoreRWPendW attr s t notWait).1 else none
  | .post t => if s.Runs t then some (semaphoreRWPost attr s t).1 else none
  | .goOn => s.posting.bind fun p => s.post attr p
  | .timeOut t =>
    match s.iPendQ t with
    | none => none
    | some q => if (s.waitQ q).Waits t then some (s.unQueue t q) else none

section Steps

variable [DecidableEq T] {attr : Attr T} {s s' : State T w}

inductive Does (attr : Attr T) (s : State T w) : Action T → State T w → Prop
  | refuse {a} : Does attr s a s
  | enterR {t nw} (runs : s.Runs t) (reading : s.iStatus = .r) (noWriter : ¬s.HasWaiter .w) :
      Does attr s (.pendR t nw) (s.enterR t)
  | sleepR {t} (runs : s.Runs t) (busy : s.iStatus = .w ∨ s.HasWaiter .w) :
      Does attr s (.pendR t false) (s.sleep attr t .r)
  | takeW {t nw} (runs : s.Runs t) (free : s.ulCounter = 0) :
      Does attr s (.pendW t nw) (s.takeW t)
  | nest {t nw} (runs : s.Runs t) (taken : s.ulCounter ≠ 0) (own : s.pvTcbOwn = some t) :
      Does attr s (.pendW t nw) { s with pvPtr := s.pvPtr + 1 }
  | sleepW {t} (runs : s.Runs t) (taken : s.ulCounter ≠ 0) :
      Does attr s (.pendW t false) (s.sleep attr t .w)
  | leaveR {t} (runs : s.Runs t) (reading : s.iStatus = .r) (more : 1 < s.ulCounter.toNat) :
      Does attr s (.post t) (s.leaveR t)
  | lastR {t} (runs : s.Runs t) (taken : s.ulCounter ≠ 0) (reading : s.iStatus = .r)
      (last : ¬1 < s.ulCounter.toNat) :
      Does attr s (.post t) { s with
        posting := some (.tested t (!attr.rwPreferWriter && decide (s.HasWaiter .r))) }
  | unnest {t} (runs : s.Runs t) (taken : s.ulCounter ≠ 0) (writing : s.iStatus = .w)
      (own : s.pvTcbOwn = some t) (deep : s.pvPtr ≠ 0) :
      Does attr s (.post t) { s with pvPtr := s.pvPtr - 1 }
  | lastW {t} (runs : s.Runs t) (taken : s.ulCounter ≠ 0) (writing : s.iStatus = .w)
      (own : s.pvTcbOwn = some t) (last : s.pvPtr = 0) :
      Does attr s (.post t) { s with posting := some (.tested t false) }
  | toWriter {t b u} (posting : s.posting = some (.tested t b)) (waiter : s.HasWaiter .w)
      (seen : b = false) (next : (s.waitQ .w).eventQGetTcb attr.waitPriority = some u) :
      Does attr s .goOn { (s.closed t).dequeue u .w with posting := some (.writer u) }
  | toReaders {t b z} (posting : s.posting = some (.tested t b)) (waiter : s.HasWaiter .r)
      (noWriter : s.HasWaiter .w → b = true)
      (woken : (s.released t).wakeR attr = some z) :
      Does attr s .goOn z
  | toNobody {t b} (posting : s.posting = some (.tested t b)) (noReader : ¬s.HasWaiter .r)
      (noWriter : s.HasWaiter .w → b = true) :
      Does attr s .goOn (s.released t).finishR
  | grant {u} (posting : s.posting = some (.writer u)) : Does attr s .goOn (s.grant u)
  | wakeR {z} (posting : s.posting = some .readers) (waiter : s.HasWaiter .r)
      (woken : s.wakeR attr = some z) : Does attr s .goOn z
  | finishR (posting : s.posting = some .readers) (noReader : ¬s.HasWaiter .r) :
      Does attr s .goOn s.finishR
  | timeOut {t q} (blocked : s.iPendQ t = some q) (waits : (s.waitQ q).Waits t) :
      Does attr s (.timeOut t) (s.unQueue t q)

theorem pendR_does {t : T} {nw : Bool} (hruns : s.Runs t) :
    Does attr s (.pendR t nw) (semaphoreRWPendR attr s t nw).1 := by
  unfold semaphoreRWPendR
  split
  next hfree => exact .enterR hruns hfree.1 hfree.2
  next hbusy =>
    split
    next => exact .refuse
    next hwait =>
      obtain rfl : nw = false := by simpa using hwait
      refine .sleepR hruns ?_
      rw [not_and_or, not_not] at hbusy
      refine hbusy.imp (fun hr => ?_) id
      cases hs : s.iStatus with
      | r => exact absurd hs hr
      | w => rfl

theorem pendW_does {t : T} {nw : Bool} (hruns : s.Runs t) :
    Does attr s (.pendW t nw) (semaphoreRWPendW attr s t nw).1 := by
  unfold semaphoreRWPendW
  split
  next hfree => exact .takeW hruns hfree
  next htaken =>
    split
    next hown => exact .nest hruns htaken hown
    next =>
      split
      next => exact .refuse
      next hwait =>
        obtain rfl : nw = false := by simpa using hwait
        exact .sleepW hruns htaken

theorem post_does {t : T} (hruns : s.Runs t) :
    Does attr s (.post t) (semaphoreRWPost attr s t).1 := by
  unfold semaphoreRWPost
  split
  next => exact .refuse
  next htaken =>
    split
    next hr =>
      split
      next hmore => exact .leaveR hruns hr hmore
      next hlast => exact .lastR hruns htaken hr hlast
    next hr =>
      have hw : s.iStatus = .w := by
        cases hs : s.iStatus with
        | r => exact absurd hs hr
        | w => rfl
      split
      next => exact .refuse
      next hown =>
        split
        next hdeep => exact .unnest hruns htaken hw (not_not.mp hown) hdeep
        next hlast => exact .lastW hruns htaken hw (not_not.mp hown) (not_not.mp hlast)

theorem release_does {t : T} {b : Bool} (hposting : s.posting = some (.tested t b))
    (hstep : s.release attr t b = some s') : Does attr s .goOn s' := by
  simp only [State.release] at hstep
  split at hstep
  next hwriter =>
    obtain ⟨u, hu, rfl⟩ := Option.map_eq_some_iff.mp hstep
    exact .toWriter hposting hwriter.1 (by simpa using hwriter.2) hu
  next hno =>
    have hno' : s.HasWaiter .w → b = true := by
      intro hw
      by_contra hb
      exact hno ⟨hw, by simpa using hb⟩
    split at hstep
    next hreader => exact .toReaders hposting hreader hno' hstep
    next hreader =>
      obtain rfl := Option.some.inj hstep
      exact .toNobody hposting hreader hno'

theorem step_does {a : Action T} (hstep : step attr s a = some s') : Does attr s a s' := by
  cases a with
  | pendR t nw =>
    simp only [step] at hstep
    split at hstep
    next hruns =>
      obtain rfl := Option.some.inj hstep
      exact pendR_does hruns
    next => cases hstep
  | pendW t nw =>
    simp only [step] at hstep
    split at hstep
    next hruns =>
      obtain rfl := Option.some.inj hstep
      exact pendW_does hruns
    next => cases hstep
  | post t =>
    simp only [step] at hstep
    split at hstep
    next hruns =>
      obtain rfl := Option.some.inj hstep
      exact post_does hruns
    next => cases hstep
  | goOn =>
    obtain ⟨p, hposting, hpost⟩ := Option.bind_eq_some_iff.mp hstep
    cases p with
    | tested t b => exact release_does hposting hpost
    | writer u =>
      obtain rfl := Option.some.inj hpost
      exact .grant hposting
    | readers =>
      simp only [State.post] at hpost
      split at hpost
      next hreader => exact .wakeR hposting hreader hpost
      next hreader =>
        obtain rfl := Option.some.inj hpost
        exact .finishR hposting hreader
  | timeOut t =>
    simp only [step] at hstep
    split at hstep
    next => cases hstep
    next q hblocked =>
      split at hstep
      next hwaits =>
        obtain rfl := Option.some.inj hstep
        exact .timeOut hblocked hwaits
      next => cases hstep

end Steps

section Returns

variable [DecidableEq T] {attr : Attr T} {s : State T w} {t : T}

theorem semaphoreRWPendR_readers {notWait : Bool} :
    (semaphoreRWPendR attr s t notWait).1.readers =
      if (semaphoreRWPendR attr s t notWait).2 = some .errorNone then t :: s.readers
      else s.readers := by
  unfold semaphoreRWPendR
  split
  next => rfl
  next => split <;> rfl

theorem semaphoreRWPost_readers (hreading : s.iStatus = .r) :
    (semaphoreRWPost attr s t).1.readers =
      if (semaphoreRWPost attr s t).2 = some .errorNone then s.readers.erase t
      else s.readers := by
  unfold semaphoreRWPost
  rw [if_pos hreading]
  split
  next => rfl
  next => split <;> rfl

end Returns

end SylixOS.SemaphoreRW
