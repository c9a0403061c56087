import SylixOS.StepRuns
import SylixOS.VutexLib

/-! Waits for the value of a variable (vutex.c). Threads enter the kernel one at
a time; a post that walks a wait list holds it, and ticks come between its
rounds. Signal handlers run in the thread they interrupt and may wait and post
themselves. Only a post changes a variable. -/

namespace SylixOS.Vutex
open EventWait (SchedRet Context sigTimeoutRecalc)
open StepRuns VutexLib

variable {T : Type*} [DecidableEq T]

/-- The arguments of `API_VutexPendEx`, and how much of the log was there when it was called
(ghost). -/
structure Call where
  phyaddr : PhysAddr
  iCompare : Compare
  iDesired : BitVec 32
  start : ℕ
  deriving DecidableEq

def Call.matches (c : Call) (iValue : BitVec 32) : Bool :=
  vutexWakeIsMatch iValue c.iCompare c.iDesired

structure PostCall where
  phyaddr : PhysAddr
  iValue : BitVec 32
  wakeAll : Bool
  dontSet : Bool
  deepWake : Bool
  deriving DecidableEq

def PostCall.checkValue (p : PostCall) : Bool := !p.wakeAll && !p.deepWake

/-- Where a thread is: outside the calls; at `__wait_again`, in front of `__KERNEL_ENTER`, or in the
`__KERNEL_EXIT` behind its place in a list, with what `_Schedule` will return and whether a post
has ended its wait, and that with `WAKEALL` (ghost); or at the two tests and in the walk of a
post. -/
inductive Frame where
  | idle
  | again (c : Call) (ulTimeout : Option ℕ)
  | enter (c : Call) (ulTimeout : Option ℕ)
  | asleep (c : Call) (ulTimeout : Option ℕ) (iSchedRet : SchedRet) (hit : Option Bool)
  | postTest (p : PostCall)
  | postEnter (p : PostCall)
  | posting

inductive Result where
  | match
  | wakeAll
  | waitTimeout
  | eintr
  deriving DecidableEq, Repr

/-- A wait that has returned, with what a post has done to it and the values of variables during
the call (ghost). -/
structure Return (T : Type*) where
  thread : T
  call : Call
  result : Result
  hit : Option Bool
  moments : List (PhysAddr × BitVec 32)

structure Posting (T : Type*) where
  thread : T
  call : PostCall
  iWakeCnt : ℕ
  ended : ℕ

structure PostReturn where
  call : PostCall
  iWakeCnt : ℕ
  ended : ℕ

structure State (T : Type*) where
  value : PhysAddr → BitVec 32
  vutexes : Vutexes T
  frame : T → Frame
  saved : T → List (Context Frame)
  posting : Option (Posting T)
  /-- The values of variables when calls began, and the posted values (ghost). -/
  log : List (PhysAddr × BitVec 32)
  returns : List (Return T)
  posts : List PostReturn

def State.init (value : PhysAddr → BitVec 32) : State T where
  value := value
  vutexes := Vutexes.empty
  frame := fun _ => .idle
  saved := fun _ => []
  posting := none
  log := []
  returns := []
  posts := []

inductive Action (T : Type*) where
  | pend (t : T) (phyaddr : PhysAddr) (iCompare : Compare) (iDesired : BitVec 32)
      (ulTimeout : Option ℕ)
  | test (t : T)
  | enter (t : T)
  | wake (t : T) (elapsed : ℕ)
  | post (t : T) (p : PostCall)
  | round
  | tick (t : T)
  | signal (t : T) (saRestart : Bool)
  | sigReturn (t : T)

variable (s : State T)

def State.move (t : T) (frame : Frame) : State T :=
  { s with frame := Function.update s.frame t frame }

def State.ret (t : T) (c : Call) (result : Result) (hit : Option Bool) : State T :=
  { s.move t .idle with
    returns := s.returns ++ [⟨t, c, result, hit, s.log.drop c.start⟩] }

def vutexPend (t : T) (phyaddr : PhysAddr) (iCompare : Compare) (iDesired : BitVec 32)
    (ulTimeout : Option ℕ) : State T :=
  { s.move t (.again ⟨phyaddr, iCompare, iDesired, s.log.length⟩ ulTimeout) with
    log := s.log ++ [(phyaddr, s.value phyaddr)] }

def pendTest (t : T) (c : Call) (ulTimeout : Option ℕ) : State T :=
  if c.matches (s.value c.phyaddr) then s.ret t c .match none
  else if ulTimeout = some 0 then s.ret t c .waitTimeout none
  else s.move t (.enter c ulTimeout)

def pendEnter (t : T) (c : Call) (ulTimeout : Option ℕ) : State T :=
  if c.matches (s.value c.phyaddr) then s.ret t c .match none
  else
    { s.move t (.asleep c ulTimeout .none none) with
      vutexes := s.vutexes.vutexWaitQueue t c.phyaddr c.iDesired c.iCompare ulTimeout.isSome }

def State.wakeIsAll (t : T) : Bool := (s.vutexes.tcb t).vutex.bWakeAll

def pendWake (t : T) (c : Call) (ulTimeout : Option ℕ) (iSchedRet : SchedRet)
    (hit : Option Bool) (elapsed : ℕ) : State T :=
  let last := s.ret t c (if s.wakeIsAll t then .wakeAll else .match) hit
  match iSchedRet with
  | .eintr => s.ret t c .eintr hit
  | .restart =>
    if sigTimeoutRecalc elapsed ulTimeout ≠ some 0 then
      s.move t (.again c (sigTimeoutRecalc elapsed ulTimeout))
    else last
  | .none => if (s.vutexes.tcb t).timeout then s.ret t c .waitTimeout hit else last

def State.postRet (t : T) (p : PostCall) (iWakeCnt ended : ℕ) : State T :=
  { s.move t .idle with posts := s.posts ++ [⟨p, iWakeCnt, ended⟩] }

def postTest (t : T) (p : PostCall) : State T :=
  if p.checkValue ∧ s.value p.phyaddr = p.iValue then s.postRet t p 0 0
  else s.move t (.postEnter p)

def postEnter (t : T) (p : PostCall) : State T :=
  if p.checkValue ∧ s.value p.phyaddr = p.iValue then s.postRet t p 0 0
  else
    { s.move t .posting with
      value := if p.dontSet then s.value else Function.update s.value p.phyaddr p.iValue
      log := s.log ++ [(p.phyaddr, p.iValue)]
      vutexes := s.vutexes.wakeFirst p.phyaddr
      posting := some ⟨t, p, 0, 0⟩ }

def Frame.endWait (wakeAll : Bool) : Frame → Frame × ℕ
  | .asleep c ulTimeout iSchedRet none => (.asleep c ulTimeout iSchedRet (some wakeAll), 1)
  | frame => (frame, 0)

def postRound (q : Posting T) : State T :=
  match s.vutexes.op with
  | none => { s with posting := none }.postRet q.thread q.call q.iWakeCnt q.ended
  | some t =>
    match s.vutexes.wakeRound t q.call.phyaddr q.call.iValue q.call.wakeAll with
    | (vutexes, false) => { s with vutexes := vutexes }
    | (vutexes, true) =>
      let r := (s.frame t).endWait q.call.wakeAll
      { s.move t r.1 with
        vutexes := vutexes
        posting := some { q with iWakeCnt := q.iWakeCnt + 1, ended := q.ended + r.2 } }

def signalThread (t : T) (saType : SchedRet) : State T :=
  let r := s.vutexes.sigMakeReady t saType
  { s.move t .idle with
    vutexes := r.2
    saved := Function.update s.saved t (⟨s.frame t, r.1, (r.2.tcb t).timeout⟩ :: s.saved t) }

def resumed (c : Context Frame) : Frame :=
  match c.frame with
  | .asleep call ulTimeout iSchedRet hit => .asleep call ulTimeout (iSchedRet.set c.ret) hit
  | frame => frame

/-- One step; `none` where it is not enabled. A thread enters the kernel, or is sent a signal,
only while no post holds it. -/
def step : Action T → Option (State T)
  | .pend t phyaddr iCompare iDesired ulTimeout =>
    match s.frame t with
    | .idle => some (vutexPend s t phyaddr iCompare iDesired ulTimeout)
    | _ => none
  | .test t =>
    match s.frame t with
    | .again c ulTimeout => some (pendTest s t c ulTimeout)
    | .postTest p => some (postTest s t p)
    | _ => none
  | .enter t =>
    match s.posting, s.frame t with
    | none, .enter c ulTimeout => some (pendEnter s t c ulTimeout)
    | none, .postEnter p => some (postEnter s t p)
    | _, _ => none
  | .wake t elapsed =>
    match (s.vutexes.tcb t).pend, s.frame t with
    | false, .asleep c ulTimeout iSchedRet hit =>
      some (pendWake s t c ulTimeout iSchedRet hit elapsed)
    | _, _ => none
  | .post t p =>
    match s.frame t with
    | .idle => some (s.move t (.postTest p))
    | _ => none
  | .round => s.posting.map (postRound s)
  | .tick t =>
    if (s.vutexes.tcb t).delay then some { s with vutexes := s.vutexes.threadTick t } else none
  | .signal t saRestart =>
    match s.posting with
    | none => some (signalThread s t (if saRestart then .restart else .eintr))
    | some _ => none
  | .sigReturn t =>
    match s.frame t, s.saved t with
    | .idle, c :: saved =>
      some { s.move t (resumed c) with
        vutexes := s.vutexes.restore t c.timeout
        saved := Function.update s.saved t saved }
    | _, _ => none

variable {s}

def Held (c : Call) (moments : List (PhysAddr × BitVec 32)) : Prop :=
  ∃ iValue, (c.phyaddr, iValue) ∈ moments ∧ c.matches iValue = true

def Return.Exact (r : Return T) : Prop :=
  match r.result with
  | .match => Held r.call r.moments
  | .wakeAll => r.hit = some true
  | _ => r.hit = none

def State.Ahead (s : State T) (t : T) (phyaddr : PhysAddr) : Prop :=
  ∃ q passed ahead, s.posting = some q ∧ q.call.phyaddr = phyaddr ∧ q.call.dontSet = false ∧
    s.vutexes.Walk (vutexHash phyaddr) passed ahead ∧ t ∈ ahead

structure State.Exact (s : State T) : Prop where
  asleep : ∀ h, ∀ t ∈ s.vutexes.chain h, ∀ phyaddr, (s.vutexes.tcb t).vutex.phyaddr = some phyaddr →
    (s.vutexes.tcb t).matches (s.value phyaddr) = true → s.Ahead t phyaddr
  returns : ∀ r ∈ s.returns, r.Exact
  posts : ∀ p ∈ s.posts, p.iWakeCnt = p.ended

def woken (c : Context Frame) : Prop :=
  match c.frame with
  | .asleep _ _ iSchedRet _ => iSchedRet.set c.ret = .none ∧ c.timeout = false
  | _ => False

instance : (c : Context Frame) → Decidable (woken c)
  | ⟨.asleep _ _ iSchedRet _, ret, timeout⟩ =>
    inferInstanceAs (Decidable (iSchedRet.set ret = .none ∧ timeout = false))
  | ⟨.idle, _, _⟩ | ⟨.again _ _, _, _⟩ | ⟨.enter _ _, _, _⟩ | ⟨.postTest _, _, _⟩
  | ⟨.postEnter _, _, _⟩ | ⟨.posting, _, _⟩ => inferInstanceAs (Decidable False)

def Frame.InTime (elapsed : ℕ) : Frame → Prop
  | .asleep _ ulTimeout .restart _ => sigTimeoutRecalc elapsed ulTimeout ≠ some 0
  | _ => True

instance (elapsed : ℕ) : (frame : Frame) → Decidable (frame.InTime elapsed)
  | .asleep _ ulTimeout .restart _ =>
    inferInstanceAs (Decidable (sigTimeoutRecalc elapsed ulTimeout ≠ some 0))
  | .asleep _ _ .none _ | .asleep _ _ .eintr _ | .idle | .again _ _ | .enter _ _ | .postTest _
  | .postEnter _ | .posting => inferInstanceAs (Decidable True)

/-- A wait does not fall asleep in front of one that a post has ended. -/
def Frame.InOrder (value : PhysAddr → BitVec 32) (saved : List (Context Frame)) : Frame → Prop
  | .enter c _ => c.matches (value c.phyaddr) = true ∨ ∀ ctx ∈ saved, ¬ woken ctx
  | _ => True

instance (value : PhysAddr → BitVec 32) (saved : List (Context Frame)) :
    (frame : Frame) → Decidable (frame.InOrder value saved)
  | .enter c _ =>
    inferInstanceAs (Decidable (c.matches (value c.phyaddr) = true ∨ ∀ ctx ∈ saved, ¬ woken ctx))
  | .asleep _ _ _ _ | .idle | .again _ _ | .postTest _ | .postEnter _ | .posting =>
    inferInstanceAs (Decidable True)

def Fair (s : State T) : Action T → Prop
  | .wake t elapsed => (s.frame t).InTime elapsed
  | .enter t => (s.frame t).InOrder s.value (s.saved t)
  | _ => True

instance (s : State T) : (a : Action T) → Decidable (Fair s a)
  | .wake t elapsed => inferInstanceAs (Decidable ((s.frame t).InTime elapsed))
  | .enter t => inferInstanceAs (Decidable ((s.frame t).InOrder s.value (s.saved t)))
  | .pend _ _ _ _ _ | .test _ | .post _ _ | .round | .tick _ | .signal _ _ | .sigReturn _ =>
    inferInstanceAs (Decidable True)

end SylixOS.Vutex
