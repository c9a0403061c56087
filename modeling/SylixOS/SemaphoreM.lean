import SylixOS.EventList
import SylixOS.StepRuns
import Mathlib.Data.BitVec

/-! Mutex semaphores (SemaphoreMPend.c, SemaphoreMPost.c, _EventHighLevel.c).
`API_SemaphoreMPost` takes the waiter out of the queue with the interrupts off and makes
it the owner with the interrupts on; the kernel stays locked, so that only time-outs of
other waiters come in between. -/

namespace SylixOS.SemaphoreM
open EventList StepRuns Function

variable {T M : Type*} {w : ℕ}

structure EventOption where
  waitPriority : Bool
  inheritPriority : Bool
  normal : Bool
  errorCheck : Bool
  deriving DecidableEq, Repr

structure Attr where
  ucCeilingPriority : Fin 256
  ulOption : EventOption
  deriving DecidableEq, Repr

def prioLowest : Fin 256 := Fin.last 255

structure Event (T : Type*) (w : ℕ) where
  ulCounter : Bool
  /-- The priority to come back to, of the owner. -/
  ulMaxCounter : Fin 256
  /-- The recursion count, an `ULONG`. -/
  pvPtr : BitVec w
  pvTcbOwn : Option T
  waitQ : WaitList T

def Event.create : Event T w where
  ulCounter := true
  ulMaxCounter := prioLowest
  pvPtr := 0
  pvTcbOwn := none
  waitQ := WaitList.create

/-- `handing` is the post that has taken a waiter out of the queue and has still to make it the
owner. `pends` and `posts` count the calls of each thread that have succeeded. -/
structure State (T M : Type*) (w : ℕ) where
  event : M → Event T w
  ucPriority : T → Fin 256
  /-- `TCB_peventPtr`: the mutex that a thread is blocked on. -/
  peventPtr : T → Option M
  handing : Option (T × M × T)
  pends : T → M → ℕ
  posts : T → M → ℕ

def State.create (ucPriority : T → Fin 256) : State T M w where
  event _ := Event.create
  ucPriority := ucPriority
  peventPtr _ := none
  handing := none
  pends _ _ := 0
  posts _ _ := 0

inductive Ret where
  | errorNone
  | errorThreadWaitTimeout
  | edeadlk
  | errorEventNotOwn
  | errorEventFull
  deriving DecidableEq, Repr

section Code

variable [DecidableEq T] [DecidableEq M] (attr : M → Attr) (s : State T M w)

def tick (counts : T → M → ℕ) (t : T) (m : M) : T → M → ℕ :=
  update counts t (update (counts t) m (counts t m + 1))

omit [DecidableEq M] in
/-- `_EventPrioTryBoost`; no thread is being deleted. -/
def eventPrioTryBoost (a : Attr) (ucPriority : T → Fin 256) (pvTcbOwn : Option T) (ptcbCur : T) :
    T → Fin 256 :=
  match pvTcbOwn with
  | none => ucPriority
  | some ptcbOwner =>
    if ucPriority ptcbCur < ucPriority ptcbOwner then
      if a.ulOption.inheritPriority then
        update ucPriority ptcbOwner (ucPriority ptcbCur)
      else if a.ucCeilingPriority < ucPriority ptcbOwner then
        update ucPriority ptcbOwner a.ucCeilingPriority
      else ucPriority
    else ucPriority

omit [DecidableEq M] in
def eventPrioTryResume (ulMaxCounter : Fin 256) (ucPriority : T → Fin 256) (ptcbCur : T) :
    T → Fin 256 :=
  if ucPriority ptcbCur ≠ ulMaxCounter then update ucPriority ptcbCur ulMaxCounter
  else ucPriority

def State.take (ptcbCur : T) (m : M) : State T M w :=
  { s with
    event := update s.event m { s.event m with
      ulCounter := false
      ulMaxCounter := s.ucPriority ptcbCur
      pvTcbOwn := some ptcbCur }
    pends := tick s.pends ptcbCur m }

def State.nest (ptcbCur : T) (m : M) : State T M w :=
  { s with
    event := update s.event m { s.event m with pvPtr := (s.event m).pvPtr + 1 }
    pends := tick s.pends ptcbCur m }

def State.block (ptcbCur : T) (m : M) : State T M w :=
  let ucPriority := eventPrioTryBoost (attr m) s.ucPriority (s.event m).pvTcbOwn ptcbCur
  { s with
    event := update s.event m { s.event m with
      waitQ := (s.event m).waitQ.eventWait (attr m).ulOption.waitPriority ucPriority ptcbCur }
    ucPriority := ucPriority
    peventPtr := update s.peventPtr ptcbCur (some m) }

def semaphoreMPend (ptcbCur : T) (m : M) (notWait : Bool) : State T M w × Option Ret :=
  if (s.event m).ulCounter then (s.take ptcbCur m, some .errorNone)
  else if !(attr m).ulOption.normal ∧ (s.event m).pvTcbOwn = some ptcbCur then
    if (attr m).ulOption.errorCheck then (s, some .edeadlk)
    else (s.nest ptcbCur m, some .errorNone)
  else if notWait then (s, some .errorThreadWaitTimeout)
  else (s.block attr ptcbCur m, none)

def State.unnest (ptcbCur : T) (m : M) : State T M w :=
  { s with
    event := update s.event m { s.event m with pvPtr := (s.event m).pvPtr - 1 }
    posts := tick s.posts ptcbCur m }

def State.dequeue (ptcbCur : T) (m : M) (ptcb : T) : State T M w :=
  { s with
    event := update s.event m { s.event m with
      waitQ := (s.event m).waitQ.eventUnQueue ptcb }
    handing := some (ptcbCur, m, ptcb) }

def State.free (ptcbCur : T) (m : M) : State T M w :=
  { s with
    event := update s.event m { s.event m with
      ulCounter := true
      ulMaxCounter := prioLowest
      pvTcbOwn := none }
    posts := tick s.posts ptcbCur m }

/-- `API_SemaphoreMPost` up to the window, with what it returns; a queue with waiters and nobody in
its rings would be a null dereference. -/
def semaphoreMPost (ptcbCur : T) (m : M) : Option (State T M w × Option Ret) :=
  if (s.event m).pvTcbOwn ≠ some ptcbCur then some (s, some .errorEventNotOwn)
  else if (s.event m).pvPtr ≠ 0 then some (s.unnest ptcbCur m, some .errorNone)
  else if (s.event m).waitQ.eventWaitNum ≠ 0 then
    ((s.event m).waitQ.eventQGetTcb (attr m).ulOption.waitPriority).map fun ptcb =>
      (s.dequeue ptcbCur m ptcb, none)
  else if (s.event m).ulCounter = false then some (s.free ptcbCur m, some .errorNone)
  else some (s, some .errorEventFull)

/-- The rest of a post with waiters: the caller gets its old priority back, and the waiter, whose
pend returns `ERROR_NONE`, is the owner. -/
def State.handOver (ptcbCur : T) (m : M) (ptcb : T) : State T M w :=
  let ucPriority := eventPrioTryResume (s.event m).ulMaxCounter s.ucPriority ptcbCur
  { s with
    event := update s.event m { s.event m with
      ulMaxCounter := ucPriority ptcb
      pvTcbOwn := some ptcb }
    ucPriority := ucPriority
    peventPtr := update s.peventPtr ptcb none
    handing := none
    pends := tick s.pends ptcb m
    posts := tick s.posts ptcbCur m }

/-- `_EventUnQueue` by `_ThreadTick`. A waiter that a signal takes out of the queue leaves it in the
same way, and then calls `API_SemaphoreMPend` again or returns. -/
def State.unQueue (ptcb : T) (m : M) : State T M w :=
  { s with
    event := update s.event m { s.event m with
      waitQ := (s.event m).waitQ.eventUnQueue ptcb }
    peventPtr := update s.peventPtr ptcb none }

end Code

inductive Action (T M : Type*) where
  | pend (t : T) (m : M) (notWait : Bool)
  | post (t : T) (m : M)
  | handOver
  | timeOut (t : T)
  deriving DecidableEq, Repr

def State.Runs (s : State T M w) (t : T) : Prop := s.handing = none ∧ s.peventPtr t = none

instance [DecidableEq M] [DecidableEq T] (s : State T M w) (t : T) : Decidable (s.Runs t) :=
  inferInstanceAs (Decidable (s.handing = none ∧ s.peventPtr t = none))

def step [DecidableEq T] [DecidableEq M] (attr : M → Attr) (s : State T M w) :
    Action T M → Option (State T M w)
  | .pend t m notWait =>
    if s.Runs t then some (semaphoreMPend attr s t m notWait).1 else none
  | .post t m => if s.Runs t then (semaphoreMPost attr s t m).map Prod.fst else none
  | .handOver => s.handing.map fun (ptcbCur, m, ptcb) => s.handOver ptcbCur m ptcb
  | .timeOut t =>
    match s.peventPtr t with
    | none => none
    | some m => if (s.event m).waitQ.Waits t then some (s.unQueue t m) else none

section Steps

variable [DecidableEq T] [DecidableEq M] {attr : M → Attr} {s s' : State T M w}

inductive Does (attr : M → Attr) (s : State T M w) : Action T M → State T M w → Prop
  | refuse {a} : Does attr s a s
  | take {t m nw} (runs : s.Runs t) (free : (s.event m).ulCounter = true) :
      Does attr s (.pend t m nw) (s.take t m)
  | nest {t m nw} (runs : s.Runs t) (taken : (s.event m).ulCounter = false)
      (own : (s.event m).pvTcbOwn = some t) : Does attr s (.pend t m nw) (s.nest t m)
  | block {t m} (runs : s.Runs t) (taken : (s.event m).ulCounter = false) :
      Does attr s (.pend t m false) (s.block attr t m)
  | unnest {t m} (runs : s.Runs t) (own : (s.event m).pvTcbOwn = some t)
      (deep : (s.event m).pvPtr ≠ 0) : Does attr s (.post t m) (s.unnest t m)
  | dequeue {t m u} (runs : s.Runs t) (own : (s.event m).pvTcbOwn = some t)
      (last : (s.event m).pvPtr = 0)
      (next : (s.event m).waitQ.eventQGetTcb (attr m).ulOption.waitPriority = some u) :
      Does attr s (.post t m) (s.dequeue t m u)
  | free {t m} (runs : s.Runs t) (own : (s.event m).pvTcbOwn = some t)
      (last : (s.event m).pvPtr = 0) (empty : (s.event m).waitQ.eventWaitNum = 0)
      (taken : (s.event m).ulCounter = false) : Does attr s (.post t m) (s.free t m)
  | handOver {t m u} (handing : s.handing = some (t, m, u)) :
      Does attr s .handOver (s.handOver t m u)
  | timeOut {t m} (blocked : s.peventPtr t = some m) (waits : (s.event m).waitQ.Waits t) :
      Does attr s (.timeOut t) (s.unQueue t m)

theorem step_pend {t : T} {m : M} {nw : Bool} (hruns : s.Runs t) :
    Does attr s (.pend t m nw) (semaphoreMPend attr s t m nw).1 := by
  unfold semaphoreMPend
  split
  next hfree => exact .take hruns hfree
  next htaken =>
    have htaken' : (s.event m).ulCounter = false := by simpa using htaken
    split
    next hown =>
      split
      next => exact .refuse
      next => exact .nest hruns htaken' hown.2
    next =>
      split
      next => exact .refuse
      next hwait =>
        obtain rfl : nw = false := by simpa using hwait
        exact .block hruns htaken'

theorem step_post {t : T} {m : M} (hruns : s.Runs t)
    (hstep : (semaphoreMPost attr s t m).map Prod.fst = some s') : Does attr s (.post t m) s' := by
  unfold semaphoreMPost at hstep
  split at hstep
  next =>
    obtain rfl := Option.some.inj hstep
    exact .refuse
  next hown =>
    have hown' : (s.event m).pvTcbOwn = some t := by simpa using hown
    split at hstep
    next hdeep =>
      obtain rfl := Option.some.inj hstep
      exact .unnest hruns hown' hdeep
    next hlast =>
      have hlast' : (s.event m).pvPtr = 0 := by simpa using hlast
      split at hstep
      next =>
        rw [Option.map_map, Option.map_eq_some_iff] at hstep
        obtain ⟨u, hu, rfl⟩ := hstep
        exact .dequeue hruns hown' hlast' hu
      next hempty =>
        have hempty' : (s.event m).waitQ.eventWaitNum = 0 := by simpa using hempty
        split at hstep
        next htaken =>
          obtain rfl := Option.some.inj hstep
          exact .free hruns hown' hlast' hempty' htaken
        next =>
          obtain rfl := Option.some.inj hstep
          exact .refuse

theorem step_does {a : Action T M} (hstep : step attr s a = some s') : Does attr s a s' := by
  cases a with
  | pend t m nw =>
    simp only [step] at hstep
    split at hstep
    next hruns =>
      obtain rfl := Option.some.inj hstep
      exact step_pend hruns
    next => cases hstep
  | post t m =>
    simp only [step] at hstep
    split at hstep
    next hruns => exact step_post hruns hstep
    next => cases hstep
  | handOver =>
    simp only [step, Option.map_eq_some_iff] at hstep
    obtain ⟨⟨t, m, u⟩, hhanding, rfl⟩ := hstep
    exact .handOver hhanding
  | timeOut t =>
    simp only [step] at hstep
    split at hstep
    next => cases hstep
    next m hblocked =>
      split at hstep
      next hwaits =>
        obtain rfl := Option.some.inj hstep
        exact .timeOut hblocked hwaits
      next => cases hstep

end Steps

section Returns

variable [DecidableEq T] [DecidableEq M] {attr : M → Attr} {s s' : State T M w} {t : T} {m : M}

theorem semaphoreMPend_counts {notWait : Bool} :
    (semaphoreMPend attr s t m notWait).1.posts = s.posts ∧
      (semaphoreMPend attr s t m notWait).1.pends =
        if (semaphoreMPend attr s t m notWait).2 = some .errorNone then tick s.pends t m
        else s.pends := by
  unfold semaphoreMPend
  split
  next => exact ⟨rfl, rfl⟩
  next =>
    split
    next => split <;> exact ⟨rfl, rfl⟩
    next => split <;> exact ⟨rfl, rfl⟩

theorem semaphoreMPost_counts {ret : Option Ret}
    (hpost : semaphoreMPost attr s t m = some (s', ret)) :
    s'.pends = s.pends ∧
      s'.posts = if ret = some .errorNone then tick s.posts t m else s.posts := by
  unfold semaphoreMPost at hpost
  split at hpost
  next => cases hpost; exact ⟨rfl, rfl⟩
  next =>
    split at hpost
    next => cases hpost; exact ⟨rfl, rfl⟩
    next =>
      split at hpost
      next =>
        obtain ⟨u, -, hpair⟩ := Option.map_eq_some_iff.mp hpost
        cases hpair
        exact ⟨rfl, rfl⟩
      next => split at hpost <;> cases hpost <;> exact ⟨rfl, rfl⟩

end Returns

end SylixOS.SemaphoreM
