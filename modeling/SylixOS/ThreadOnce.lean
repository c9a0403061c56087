import SylixOS.StepRuns
import SylixOS.VutexLib

/-! Once initialisation (ThreadOnce.c) on one control variable, with the
deletion of the thread that runs the routine (ThreadDelete.c, _TCBDestroyExt).
A thread is a stack of frames: the routine and the handlers of signals may call
`API_ThreadOnce` again. -/

namespace SylixOS.ThreadOnce
open EventWait (SchedRet)
open StepRuns VutexLib

variable {T : Type*} [DecidableEq T]

def statusNone : BitVec 32 := 0

def statusInit : BitVec 32 := 1

def statusDown : BitVec 32 := 2

def intMax : BitVec 32 := 0x7fffffff

/-- Where a call is: in front of `__LW_ATOMIC_GET`, of `__LW_ATOMIC_CAS` and of
`__threadOnceCleanPush`, in the routine, in front of `__threadOnceCleanPop` and of the post, in
the walk of the post; in `API_VutexPend`, in front of its two tests and in the `__KERNEL_EXIT`
behind its place in the list. A handler keeps what it has interrupted. -/
inductive Frame where
  | load
  | cas
  | push
  | routine (bPush : Bool)
  | pop (bPush : Bool)
  | post
  | posting
  | pendTest
  | pendEnter
  | asleep (iSchedRet : SchedRet)
  | handler (ret : SchedRet) (timeout : Bool)
  deriving DecidableEq, Repr

/-- How far the deletion of a thread has come: not begun; stopped; in the loop of
`_TCBDestroyExt`, in front of the tests of its post, in its walk, and behind it; gone. -/
inductive Phase where
  | alive
  | dying
  | postTest
  | postEnter
  | posting
  | destroying
  | done
  | gone
  deriving DecidableEq, Repr

inductive Event (T : Type*) where
  | began (t : T)
  | finished (t : T)
  | returned (t : T)
  | failed (t : T)

structure Posting (T : Type*) where
  thread : T
  iValue : BitVec 32
  wakeAll : Bool
  destroy : Bool

structure State (T : Type*) where
  once : BitVec 32
  vutexes : Vutexes T
  /-- the innermost frame first -/
  frames : T → List Frame
  /-- the records for the variable in `TEX_pmonoOnceHeader` -/
  records : T → ℕ
  phase : T → Phase
  posting : Option (Posting T)
  history : List (Event T)

def State.init : State T where
  once := statusNone
  vutexes := Vutexes.empty
  frames := fun _ => []
  records := fun _ => 0
  phase := fun _ => .alive
  posting := none
  history := []

inductive Action (T : Type*) where
  | call (t : T)
  | next (t : T)
  | push (t : T) (allocated : Bool)
  | enter (t : T)
  | wake (t : T)
  | round
  | signal (t : T) (saRestart : Bool)
  | sigReturn (t : T)
  | delete (t : T)
  | destroy (t : T)
  | remove (t : T)

variable (piOnce : PhysAddr) (s : State T)

def State.goto (t : T) (frames : List Frame) : State T :=
  { s with frames := Function.update s.frames t frames }

def State.log (e : Event T) : State T := { s with history := s.history ++ [e] }

/-- The loop of `API_ThreadOnce` and the unlocked test of its wait, what follows the routine, all
but the locked sections -/
def advance (t : T) (rest : List Frame) : Frame → Option (State T)
  | .load =>
    if s.once = statusDown then some ((s.goto t rest).log (.returned t))
    else if s.once = statusInit then some (s.goto t (.pendTest :: rest))
    else if s.once = statusNone then some (s.goto t (.cas :: rest))
    else some ((s.goto t rest).log (.failed t))
  | .cas =>
    if s.once = statusNone then some { s.goto t (.push :: rest) with once := statusInit }
    else some (s.goto t (.load :: rest))
  | .routine bPush => some ((s.goto t (.pop bPush :: rest)).log (.finished t))
  | .pop bPush =>
    some { s.goto t (.post :: rest) with
      records := if bPush then Function.update s.records t (s.records t - 1) else s.records }
  | .pendTest =>
    if vutexWakeIsMatch s.once .equ statusDown then some (s.goto t (.load :: rest))
    else some (s.goto t (.pendEnter :: rest))
  | _ => none

def cleanPush (t : T) (rest : List Frame) (allocated : Bool) : State T :=
  { s.goto t (.routine allocated :: rest) with
    records := if allocated then Function.update s.records t (s.records t + 1) else s.records }.log
    (.began t)

def pendEnter (t : T) (rest : List Frame) : State T :=
  if vutexWakeIsMatch s.once .equ statusDown then s.goto t (.load :: rest)
  else
    { s.goto t (.asleep .none :: rest) with
      vutexes := s.vutexes.vutexWaitQueue t piOnce statusDown .equ false }

def postEnter (t : T) (rest : List Frame) : State T :=
  { s.goto t (.posting :: rest) with
    once := statusDown
    vutexes := s.vutexes.wakeFirst piOnce
    posting := some ⟨t, statusDown, true, false⟩ }

def destroyEnter (t : T) : State T :=
  if s.once = intMax then { s with phase := Function.update s.phase t .destroying }
  else
    { s with
      vutexes := s.vutexes.wakeFirst piOnce
      phase := Function.update s.phase t .posting
      posting := some ⟨t, intMax, false, true⟩ }

def postRound (q : Posting T) : State T :=
  match s.vutexes.op with
  | some t =>
    { s with vutexes := (s.vutexes.wakeRound t piOnce q.iValue q.wakeAll).1 }
  | none =>
    if q.destroy then
      { s with posting := none, phase := Function.update s.phase q.thread .destroying }
    else
      ({ s with posting := none }.goto q.thread (s.frames q.thread).tail).log (.returned q.thread)

/-- `API_VutexPend` behind `__KERNEL_EXIT_IRQ`: only a restart waits again at once. -/
def pendWake (t : T) (rest : List Frame) (iSchedRet : SchedRet) : State T :=
  s.goto t ((if iSchedRet = .restart then .pendTest else .load) :: rest)

def Frame.resumed (ret : SchedRet) : Frame → Frame
  | .asleep iSchedRet => .asleep (iSchedRet.set ret)
  | frame => frame

def tcbDestroyExt (t : T) : State T :=
  if s.records t = 0 then { s with phase := Function.update s.phase t .done }
  else
    { s with
      records := Function.update s.records t (s.records t - 1)
      once := statusNone
      phase := Function.update s.phase t .postTest }

def threadDelete (t : T) : State T :=
  { s.goto t [] with
    vutexes := s.vutexes.threadDelete t
    phase := Function.update s.phase t .gone }

def mayCall : List Frame → Bool
  | [] => true
  | .routine _ :: _ => true
  | .handler _ _ :: _ => true
  | _ => false

/-- One step; `none` where it is not enabled. A thread enters the kernel, or is sent a signal or
deleted, only while no post holds it; the thread that is deleted runs the routine. -/
def step : Action T → Option (State T)
  | .call t =>
    if s.phase t = .alive ∧ mayCall (s.frames t) then some (s.goto t (.load :: s.frames t))
    else none
  | .next t =>
    match s.phase t, s.frames t with
    | .alive, frame :: rest => advance s t rest frame
    | .postTest, _ =>
      some { s with
        phase := Function.update s.phase t
          (if s.once = intMax then .destroying else .postEnter) }
    | _, _ => none
  | .push t allocated =>
    match s.phase t, s.frames t with
    | .alive, .push :: rest => some (cleanPush s t rest allocated)
    | _, _ => none
  | .enter t =>
    match s.posting, s.phase t, s.frames t with
    | none, .alive, .pendEnter :: rest => some (pendEnter piOnce s t rest)
    | none, .alive, .post :: rest => some (postEnter piOnce s t rest)
    | none, .postEnter, _ => some (destroyEnter piOnce s t)
    | _, _, _ => none
  | .wake t =>
    match s.phase t, (s.vutexes.tcb t).pend, s.frames t with
    | .alive, false, .asleep iSchedRet :: rest => some (pendWake s t rest iSchedRet)
    | _, _, _ => none
  | .round => s.posting.map (postRound piOnce s)
  | .signal t saRestart =>
    if s.posting.isNone ∧ s.phase t = .alive then
      let r := s.vutexes.sigMakeReady t (if saRestart then .restart else .eintr)
      some { s.goto t (.handler r.1 (r.2.tcb t).timeout :: s.frames t) with vutexes := r.2 }
    else none
  | .sigReturn t =>
    match s.phase t, s.frames t with
    | .alive, .handler ret timeout :: rest =>
      some { s.goto t (rest.modifyHead (Frame.resumed ret)) with
        vutexes := s.vutexes.restore t timeout }
    | _, _ => none
  | .delete t =>
    if s.posting.isNone ∧ s.phase t = .alive ∧
        (.routine true ∈ s.frames t ∨ .routine false ∈ s.frames t) then
      some { s with phase := Function.update s.phase t .dying }
    else none
  | .destroy t =>
    if s.phase t = .dying ∨ s.phase t = .destroying then some (tcbDestroyExt s t) else none
  | .remove t =>
    if s.posting.isNone ∧ s.phase t = .done then some (threadDelete s t) else none

def Frame.executes : Frame → Bool
  | .push | .routine _ | .pop _ | .post | .posting => true
  | _ => false

def Phase.live : Phase → Bool
  | .alive | .dying => true
  | _ => false

def State.executions (t : T) : List Frame :=
  if (s.phase t).live then (s.frames t).filter Frame.executes else []

variable {s}

structure State.Safe (s : State T) : Prop where
  alone : ∀ t u b c, .routine b ∈ s.executions t → .routine c ∈ s.executions u →
    t = u ∧ s.executions t = [.routine b]
  once : ∀ before after t, s.history = before ++ .began t :: after →
    ∀ u, Event.finished u ∉ before
  late : ∀ before after t, s.history = before ++ .returned t :: after →
    ∃ u, Event.finished u ∈ before
  awake : ∀ h, ∀ u ∈ s.vutexes.chain h, s.phase u = .alive → ∃ t, s.executions t ≠ []

/-- A call that has read `__THREAD_ONCE_STATUS_INIT` does not fall asleep when the variable is 0
again. -/
def Stands (once : BitVec 32) : List Frame → Prop
  | .pendEnter :: _ => once ≠ statusNone
  | _ => True

instance (once : BitVec 32) : (frames : List Frame) → Decidable (Stands once frames)
  | .pendEnter :: _ => inferInstanceAs (Decidable (once ≠ statusNone))
  | [] | .load :: _ | .cas :: _ | .push :: _ | .routine _ :: _ | .pop _ :: _ | .post :: _
  | .posting :: _ | .pendTest :: _ | .asleep _ :: _ | .handler _ _ :: _ =>
    inferInstanceAs (Decidable True)

def Fair (s : State T) : Action T → Prop
  | .enter t => Stands s.once (s.frames t)
  | .destroy t => s.phase t = .dying →
    0 < s.records t ∧ ∀ u ∈ s.vutexes.chain (vutexHash piOnce), s.phase u ≠ .alive
  | _ => True

instance (s : State T) : (a : Action T) → Decidable (Fair piOnce s a)
  | .enter t => inferInstanceAs (Decidable (Stands s.once (s.frames t)))
  | .destroy t => inferInstanceAs (Decidable (s.phase t = .dying →
      0 < s.records t ∧ ∀ u ∈ s.vutexes.chain (vutexHash piOnce), s.phase u ≠ .alive))
  | .call _ | .next _ | .push _ _ | .wake _ | .round | .signal _ _ | .sigReturn _ | .delete _
  | .remove _ => inferInstanceAs (Decidable True)

end SylixOS.ThreadOnce
