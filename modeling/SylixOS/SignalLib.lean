import Mathlib.Data.List.Basic
import Mathlib.Data.Nat.Find
import Mathlib.Logic.Function.Basic
import SylixOS.BitmapLib

/-! The signal context of one thread (`system/signal/signalLib.c`, `signal.c`): the
signals it is sent, its handlers and the calls that change its mask or wait for a signal.
The queue of a signal is the list of its instances; `SignalPend` has the rings they are
kept in. -/

namespace SylixOS.SignalLib
open BitmapLib Function

abbrev SigSet := BitVec 64

def sigmask (signo : Nat) : SigSet := 1#64 <<< (signo - 1)

def sigindex (signo : Nat) : Nat := signo - 1

def issig (signo : Nat) : Prop := 1 ≤ signo ∧ signo ≤ 63

instance (signo : Nat) : Decidable (issig signo) :=
  inferInstanceAs (Decidable (1 ≤ signo ∧ signo ≤ 63))

def sigKill : Nat := 9
def sigStop : Nat := 17
def sigFpe : Nat := 8
def sigIll : Nat := 4
def sigBus : Nat := 10
def sigSegv : Nat := 11
def sigTerm : Nat := 15

def signoUnmask : SigSet :=
  sigmask sigKill ||| sigmask sigStop ||| sigmask sigFpe ||| sigmask sigIll ||| sigmask sigBus |||
    sigmask sigSegv

def signoMustExit : SigSet :=
  sigmask sigKill ||| sigmask sigTerm ||| sigmask sigFpe ||| sigmask sigIll ||| sigmask sigBus |||
    sigmask sigSegv

def sigGetLsb (sigset : SigSet) : Nat :=
  let uiHigh := (sigset >>> 32).setWidth 32
  let uiLow := (sigset &&& 0xffffffff#64).setWidth 32
  if uiHigh ≠ 0#32 then archFindLsb uiHigh + 32 else archFindLsb uiLow

theorem getLsbD_sigmask {signo : Nat} (h : signo - 1 < 64) (i : Nat) :
    (sigmask signo).getLsbD i = decide (i = sigindex signo) := by
  unfold sigmask sigindex
  rw [← BitVec.twoPow_eq, BitVec.getLsbD_twoPow]
  simp [h, eq_comm]

theorem getLsbD_sigmask_succ {i : Nat} (hi : i < 64) (j : Nat) :
    (sigmask (i + 1)).getLsbD j = decide (j = i) := getLsbD_sigmask (by omega) j

theorem sigmask_and_ne_zero {signo : Nat} (h : signo - 1 < 64) (s : SigSet) :
    sigmask signo &&& s ≠ 0#64 ↔ s.getLsbD (sigindex signo) = true := by
  constructor
  · intro hne
    by_contra hbit
    apply hne
    ext i hi
    rw [← BitVec.getLsbD_eq_getElem, BitVec.getLsbD_and, getLsbD_sigmask h]
    by_cases hi' : i = sigindex signo
    · rw [Bool.not_eq_true] at hbit
      simp [hi', hbit]
    · simp [hi']
  · intro hbit hzero
    have := congrArg (fun x => x.getLsbD (sigindex signo)) hzero
    simp [getLsbD_sigmask h, hbit] at this

theorem sigGetLsb_sigmask : ∀ i < 64, sigGetLsb (sigmask (i + 1)) = i + 1 := by decide

theorem exists_lowest {s : SigSet} (h : s ≠ 0#64) :
    ∃ i < 64, s.getLsbD i = true ∧ ∀ j < i, s.getLsbD j = false := by
  have hex : ∃ i, s.getLsbD i = true := by
    by_contra hnone
    push Not at hnone
    apply h
    ext i hi
    rw [← BitVec.getLsbD_eq_getElem]
    simpa using hnone i
  refine ⟨Nat.find hex, BitVec.lt_of_getLsbD (Nat.find_spec hex), Nat.find_spec hex, ?_⟩
  intro j hj
  simpa using Nat.find_min hex hj

theorem and_neg_eq_sigmask {s : SigSet} {i : Nat} (hbit : s.getLsbD i = true)
    (hlow : ∀ j < i, s.getLsbD j = false) : s &&& -s = sigmask (i + 1) := by
  have hlt : i < 64 := BitVec.lt_of_getLsbD hbit
  ext k hk
  rw [← BitVec.getLsbD_eq_getElem, ← BitVec.getLsbD_eq_getElem, BitVec.getLsbD_and,
    BitVec.getLsbD_neg, getLsbD_sigmask_succ hlt]
  rcases Nat.lt_trichotomy k i with hki | rfl | hki
  · simp [hlow k hki, Nat.ne_of_lt hki]
  · have hnone : ¬ ∃ j < k, s.getLsbD j = true := by
      rintro ⟨j, hj, hjbit⟩
      simp [hlow j hj] at hjbit
    rw [decide_eq_false hnone]
    simp [hbit]
  · have hsome : ∃ j < k, s.getLsbD j = true := ⟨i, hki, hbit⟩
    rw [decide_eq_true hsome]
    cases hs : s.getLsbD k <;> simp [hk, Nat.ne_of_gt hki]

inductive SiCode where
  | kill
  | queue
  | other (code : Nat)
  deriving DecidableEq, Repr

structure SigInfo where
  signo : Nat
  code : SiCode
  value : Int
  deriving DecidableEq, Repr

inductive SigHandler where
  | sigDfl
  | sigIgn
  | sigErr
  | sigCatch
  | sigHold
  | user (entry : Nat)
  deriving DecidableEq, Repr

structure SigAction where
  handler : SigHandler
  mask : SigSet
  noMask : Bool
  restart : Bool
  deriving DecidableEq, Repr

structure SigCtx where
  mask : SigSet
  pending : SigSet
  kill : SigSet
  action : Nat → SigAction
  sigQ : Nat → List SigInfo
  sigwait : Option Nat

/-- `_sigPendGet`. A pending signal without a kill has an instance in its queue, so the last
branch is the read through a null header. -/
def sigPendGet (ctx : SigCtx) (sigset : SigSet) : Option (Nat × SigInfo) × SigCtx :=
  let needRun := sigset &&& ctx.pending
  if needRun = 0#64 then (none, ctx)
  else
    let needRun := needRun &&& -needRun
    let signo := sigGetLsb needRun
    if needRun &&& ctx.kill ≠ 0#64 then
      (some (signo, ⟨signo, .kill, signo⟩),
        { ctx with kill := ctx.kill &&& ~~~needRun, pending := ctx.pending &&& ~~~needRun })
    else
      match ctx.sigQ (sigindex signo) with
      | info :: rest =>
        (some (signo, info),
          { ctx with
            sigQ := update ctx.sigQ (sigindex signo) rest
            pending := if rest = [] then ctx.pending &&& ~~~needRun else ctx.pending })
      | [] => (none, ctx)

def SigAction.extend (act : SigAction) (signo : Nat) (mask : SigSet) : SigSet :=
  if act.noMask then mask ||| act.mask else mask ||| act.mask ||| sigmask signo

def SigAction.exits (act : SigAction) (signo : Nat) : Bool :=
  match act.handler with
  | .user _ => signoMustExit &&& sigmask signo ≠ 0#64
  | _ => signo ∈ [2, 3, 8, 9, 10, 15, 6, 4, 11, 34]

inductive SchedRet where
  | errNone
  | eintr
  | restart
  deriving DecidableEq, Repr

/-- One run of a handler. `sigsetOld` is the mask that its end restores; `action` is the action
it was entered with. `freed` is what the thread has unblocked since by calls of its own, and
nothing reads it. -/
structure Activation where
  signo : Nat
  info : SigInfo
  action : SigAction
  sigsetOld : SigSet
  freed : SigSet
  deriving DecidableEq, Repr

inductive After where
  | procmask
  | suspend (sigsetOld : SigSet)
  | sigReturn (schedRet : SchedRet) (waitTimeout : Bool)
  deriving DecidableEq, Repr

/-- The stack of the thread, as far as signals put something on it: a handler in a signal context
(`LW_CLASS_SIGCTLMSG`), a handler called by `_sigPendRunSelf`, and the two calls that block. A
wait keeps what the scheduler returned to it. -/
inductive Frame where
  | context (run : Activation) (schedRet : SchedRet) (waitTimeout : Bool)
  | direct (run : Activation) (sigset : SigSet) (after : After)
  | suspend (sigsetOld : SigSet)
  | wait (id : Nat) (timed : Bool) (schedRet : SchedRet)
  deriving DecidableEq, Repr

/-- `LW_CLASS_SIGWAIT`; the information is not set before a signal is handed over. -/
structure SigWait where
  sigset : SigSet
  info : Option SigInfo
  deriving DecidableEq, Repr

inductive WaitResult where
  | signal (info : Option SigInfo)
  | eintr
  | eagain
  deriving DecidableEq, Repr

/-- What happened to the instances that found their signal blocked. A taken one is noted with the
signals that had an instance ready for the same call. -/
inductive Event where
  | sent (info : SigInfo)
  | taken (info : SigInfo) (ready : List Nat)
  deriving DecidableEq, Repr

/-- A thread. `pend` and `delay` are the status bits `LW_THREAD_STATUS_SIGNAL` and
`LW_THREAD_STATUS_DELAY`. The last four fields only record: the mask outside of handlers, the
events of blocked signals, the signals handed to a wait and the results of the waits. -/
structure Thread where
  ctx : SigCtx
  stack : List Frame
  pend : Bool
  delay : Bool
  waitTimeout : Bool
  sigwt : Nat → SigWait
  nextWait : Nat
  exited : Bool
  base : SigSet
  events : List Event
  told : List (Nat × SigInfo)
  results : List (Nat × WaitResult)

inductive SendVal where
  | ok
  | error
  | info
  | ign
  | block
  deriving DecidableEq, Repr

def Frame.run? : Frame → Option Activation
  | .context run _ _ => some run
  | .direct run _ _ => some run
  | .suspend _ => none
  | .wait _ _ _ => none

def activations (stack : List Frame) : List Activation := stack.filterMap Frame.run?

def Activation.free (sigset : SigSet) (run : Activation) : Activation :=
  { run with freed := run.freed ||| sigset }

def Frame.free (sigset : SigSet) : Frame → Frame
  | .context run schedRet waitTimeout => .context (run.free sigset) schedRet waitTimeout
  | .direct run sigset' after => .direct (run.free sigset) sigset' after
  | .suspend sigsetOld => .suspend sigsetOld
  | .wait id timed schedRet => .wait id timed schedRet

def awaiting (th : Thread) (signo : Nat) : Option Nat :=
  match th.ctx.sigwait with
  | some id => if (th.sigwt id).sigset &&& sigmask signo ≠ 0#64 then some id else none
  | none => none

def sigMakeReady (th : Thread) (signo : Nat) (saType : SchedRet) : Thread × SchedRet :=
  if !th.pend && !th.delay then (th, .errNone)
  else if th.pend then
    ({ th with delay := false, pend := false, waitTimeout := (awaiting th signo).isNone }, saType)
  else ({ th with delay := false, waitTimeout := false }, saType)

def sigCtlCreate (th : Thread) (run : Activation) (schedRet : SchedRet) : Thread :=
  { th with stack := .context run schedRet th.waitTimeout :: th.stack }

inductive SigNotify where
  | none
  | signal
  | thread
  deriving DecidableEq, Repr

structure SigPend where
  info : SigInfo
  notify : SigNotify
  linked : Bool
  deriving DecidableEq, Repr

/-- The branch of `_doSignal` for a signal that is blocked. A node that is in a ring already is
counted in its `SIGPEND_uiTimes`. -/
def blockSignal (th : Thread) (sigpend : SigPend) : Thread :=
  let bit := sigmask sigpend.info.signo
  let index := sigindex sigpend.info.signo
  if sigpend.info.code = .kill then
    { th with
      ctx := { th.ctx with kill := th.ctx.kill ||| bit, pending := th.ctx.pending ||| bit }
      events := th.events ++ [.sent sigpend.info] }
  else if sigpend.linked then th
  else if sigpend.notify = .signal then
    { th with
      ctx := { th.ctx with
        sigQ := update th.ctx.sigQ index (th.ctx.sigQ index ++ [sigpend.info])
        pending := th.ctx.pending ||| bit }
      events := th.events ++ [.sent sigpend.info] }
  else th

def handOver (th : Thread) (id : Nat) (info : SigInfo) : Thread :=
  let th := { th with sigwt := update th.sigwt id ⟨(th.sigwt id).sigset, some info⟩ }
  let th := (sigMakeReady th info.signo .eintr).1
  { th with ctx := { th.ctx with sigwait := none }, told := th.told ++ [(id, info)] }

def deliver (th : Thread) (info : SigInfo) : Thread :=
  let act := th.ctx.action (sigindex info.signo)
  let sigsetOld := th.ctx.mask
  let th := { th with ctx := { th.ctx with mask := act.extend info.signo th.ctx.mask } }
  let (th, schedRet) := sigMakeReady th info.signo (if act.restart then .restart else .eintr)
  sigCtlCreate th ⟨info.signo, info, act, sigsetOld, 0#64⟩ schedRet

def doSignal (th : Thread) (sigpend : SigPend) : SendVal × Thread :=
  let info := sigpend.info
  if sigpend.notify = .none then (.ign, th)
  else
    match awaiting th info.signo with
    | some id => (.info, handOver th id info)
    | none =>
      let act := th.ctx.action (sigindex info.signo)
      if act.handler = .sigErr ∨ act.handler = .sigIgn then (.ign, th)
      else if sigmask info.signo &&& th.ctx.mask ≠ 0#64 then (.block, blockSignal th sigpend)
      else (.ok, deliver th info)

def doKill (th : Thread) (signo : Nat) : SendVal × Thread :=
  doSignal th ⟨⟨signo, .kill, 1⟩, .signal, false⟩

def doSigQueue (th : Thread) (signo : Nat) (value : Int) : SendVal × Thread :=
  doSignal th ⟨⟨signo, .queue, value⟩, .signal, false⟩

def ready (ctx : SigCtx) (sigset : SigSet) : List Nat :=
  (List.range 64).filter fun i =>
    sigset.getLsbD i && (ctx.kill.getLsbD i || !(ctx.sigQ i).isEmpty)

def take (th : Thread) (sigset : SigSet) : Option (Nat × SigInfo × Thread) :=
  match sigPendGet th.ctx sigset with
  | (some (signo, info), ctx) =>
    some (signo, info,
      { th with ctx := ctx, events := th.events ++ [.taken info (ready th.ctx sigset)] })
  | (none, _) => none

def sigPendRun (th : Thread) : Thread :=
  match take th (~~~th.ctx.mask) with
  | some (signo, info, th) =>
    let act := th.ctx.action (sigindex signo)
    let sigsetOld := th.ctx.mask
    let (th, schedRet) := sigMakeReady th signo (if act.restart then .restart else .eintr)
    sigCtlCreate th ⟨signo, info, act, sigsetOld, 0#64⟩ schedRet
  | none => th

/-- One round of the loop of `_sigPendRunSelf`, up to the call of the handler; `none` ends the
loop. -/
def enterPending (th : Thread) (sigset sigsetOld : SigSet) (after : After) : Option Thread :=
  match take th sigset with
  | some (signo, info, th) =>
    let act := th.ctx.action (sigindex signo)
    some { th with
      ctx := { th.ctx with mask := act.extend signo th.ctx.mask }
      stack := .direct ⟨signo, info, act, sigsetOld, 0#64⟩ sigset after :: th.stack }
  | none => none

def schedSetRet (schedRet : SchedRet) : List Frame → List Frame
  | .wait id timed old :: rest => .wait id timed (if old = .errNone then schedRet else old) :: rest
  | stack => stack

def leaveContext (th : Thread) (schedRet : SchedRet) (waitTimeout : Bool) : Thread :=
  { th with stack := schedSetRet schedRet th.stack, waitTimeout := waitTimeout }

/-- Behind the loop of `_sigPendRunSelf`, when it ran a handler. `sigsuspend` leaves the kernel
here and then puts the old mask back. -/
def loopEnd (th : Thread) (after : After) : Thread :=
  match after with
  | .procmask => th
  | .suspend sigsetOld => { th with stack := .suspend sigsetOld :: th.stack }
  | .sigReturn schedRet waitTimeout => leaveContext th schedRet waitTimeout

/-- The handler on top of the stack returns: to `_sigPendRunSelf`, or to `__sigShell` and from
there to `__sigReturn`. -/
def handlerReturns (th : Thread) : Option Thread :=
  match th.stack with
  | .direct run sigset after :: rest =>
    if run.action.exits run.signo then some { th with exited := true }
    else
      let th := { th with stack := rest, ctx := { th.ctx with mask := run.sigsetOld } }
      some ((enterPending th sigset run.sigsetOld after).getD (loopEnd th after))
  | .context run schedRet waitTimeout :: rest =>
    if run.action.exits run.signo then some { th with exited := true }
    else
      let th := { th with stack := rest, ctx := { th.ctx with mask := run.sigsetOld } }
      some ((enterPending th (~~~run.sigsetOld) run.sigsetOld
        (.sigReturn schedRet waitTimeout)).getD (leaveContext th schedRet waitTimeout))
  | _ => none

def setMask (th : Thread) (mask : SigSet) : Thread :=
  { th with
    ctx := { th.ctx with mask := mask }
    stack := th.stack.map (Frame.free (~~~mask))
    base := if activations th.stack = [] then mask else th.base }

inductive MaskCmd where
  | block
  | unblock
  | setmask
  deriving DecidableEq, Repr

def sigprocmask (th : Thread) (cmd : MaskCmd) (sigset : SigSet) : Thread :=
  match cmd with
  | .block => setMask th (th.ctx.mask ||| (sigset &&& ~~~signoUnmask))
  | .unblock =>
    let th := setMask th (th.ctx.mask &&& ~~~sigset)
    (enterPending th (~~~th.ctx.mask) th.ctx.mask .procmask).getD th
  | .setmask =>
    let th := setMask th (sigset &&& ~~~signoUnmask)
    (enterPending th (~~~th.ctx.mask) th.ctx.mask .procmask).getD th

def sigsuspend (th : Thread) (sigset : SigSet) : Thread :=
  let sigsetOld := th.ctx.mask
  let th := setMask th (sigset &&& ~~~signoUnmask)
  (enterPending th (~~~th.ctx.mask) th.ctx.mask (.suspend sigsetOld)).getD
    { th with pend := true, stack := .suspend sigsetOld :: th.stack }

inductive WaitFor where
  | untimed
  | forever
  | ticks (n : Nat)
  deriving DecidableEq, Repr

def returnAtOnce (th : Thread) (result : WaitResult) : Thread :=
  { th with results := th.results ++ [(th.nextWait, result)], nextWait := th.nextWait + 1 }

def sigtimedwait (th : Thread) (sigset : SigSet) (time : WaitFor) : Thread :=
  match take th sigset with
  | some (_, info, th) => returnAtOnce th (.signal (some info))
  | none =>
    if time = .ticks 0 then returnAtOnce th .eagain
    else
      { th with
        ctx := { th.ctx with sigwait := some th.nextWait }
        stack := .wait th.nextWait (time ≠ .untimed) .errNone :: th.stack
        pend := true
        delay := time ≠ .untimed && time ≠ .forever
        waitTimeout := if time = .untimed then th.waitTimeout else false
        sigwt := update th.sigwt th.nextWait ⟨sigset, none⟩
        nextWait := th.nextWait + 1 }

def threadTick (th : Thread) : Thread :=
  { th with delay := false, pend := false, waitTimeout := th.pend }

def resume (th : Thread) : Option Thread :=
  match th.stack with
  | .suspend sigsetOld :: rest =>
    some (sigprocmask { th with stack := rest } .setmask sigsetOld)
  | .wait id timed schedRet :: rest =>
    let result :=
      if schedRet ≠ .errNone then .eintr
      else if timed && th.waitTimeout then .eagain
      else .signal (th.sigwt id).info
    some { th with
      stack := rest
      ctx := { th.ctx with sigwait := none }
      results := th.results ++ [(id, result)] }
  | _ => none

inductive Act where
  | kill (signo : Nat)
  | sigqueue (signo : Nat) (value : Int)
  | pendRun
  | tick
  | exit
  | procmask (cmd : MaskCmd) (sigset : SigSet)
  | suspend (sigset : SigSet)
  | wait (sigset : SigSet) (time : WaitFor)
  | ret
  | resume
  deriving DecidableEq, Repr

def Thread.running (th : Thread) : Bool :=
  !th.pend && match th.stack with
    | .suspend _ :: _ => false
    | .wait _ _ _ :: _ => false
    | _ => true

def step (th : Thread) (a : Act) : Option Thread :=
  if th.exited then none
  else
    match a with
    | .kill signo => some (if issig signo then (doKill th signo).2 else th)
    | .sigqueue signo value => some (if issig signo then (doSigQueue th signo value).2 else th)
    | .pendRun => some (sigPendRun th)
    | .tick => if th.delay then some (threadTick th) else none
    | .exit => some { th with exited := true }
    | .procmask cmd sigset => if th.running then some (sigprocmask th cmd sigset) else none
    | .suspend sigset => if th.running then some (sigsuspend th sigset) else none
    | .wait sigset time => if th.running then some (sigtimedwait th sigset time) else none
    | .ret => if th.running then handlerReturns th else none
    | .resume => if th.pend then none else SignalLib.resume th

/-- A thread as `__sigTaskCreateHook` leaves it; the mask and the actions are inherited. -/
def newThread (mask : SigSet) (action : Nat → SigAction) : Thread where
  ctx := ⟨mask, 0#64, 0#64, action, fun _ => [], none⟩
  stack := []
  pend := false
  delay := false
  waitTimeout := false
  sigwt := fun _ => ⟨0#64, none⟩
  nextWait := 0
  exited := false
  base := mask
  events := []
  told := []
  results := []

def userAction : Nat → SigAction := fun _ => ⟨.user 0, 0#64, false, false⟩

/-- `_sigPendGet` chose the lowest pending signal of the set and took its kill, or else the first
instance of its queue. -/
inductive Gets (ctx : SigCtx) (sigset : SigSet) : Nat → SigInfo → SigCtx → Prop where
  | kill {i : Nat} (hbit : (sigset &&& ctx.pending).getLsbD i = true)
      (hlow : ∀ j < i, (sigset &&& ctx.pending).getLsbD j = false)
      (hkill : ctx.kill.getLsbD i = true) :
      Gets ctx sigset (i + 1) ⟨i + 1, .kill, ↑(i + 1)⟩
        { ctx with
          kill := ctx.kill &&& ~~~sigmask (i + 1)
          pending := ctx.pending &&& ~~~sigmask (i + 1) }
  | queue {i : Nat} {info : SigInfo} {rest : List SigInfo}
      (hbit : (sigset &&& ctx.pending).getLsbD i = true)
      (hlow : ∀ j < i, (sigset &&& ctx.pending).getLsbD j = false)
      (hkill : ctx.kill.getLsbD i = false) (hqueue : ctx.sigQ i = info :: rest) :
      Gets ctx sigset (i + 1) info
        { ctx with
          sigQ := update ctx.sigQ i rest
          pending := if rest = [] then ctx.pending &&& ~~~sigmask (i + 1) else ctx.pending }

theorem sigPendGet_lowest {ctx : SigCtx} {sigset : SigSet} {i : Nat}
    (hbit : (sigset &&& ctx.pending).getLsbD i = true)
    (hlow : ∀ j < i, (sigset &&& ctx.pending).getLsbD j = false) :
    sigPendGet ctx sigset =
      if ctx.kill.getLsbD i = true then
        (some (i + 1, ⟨i + 1, .kill, ↑(i + 1)⟩),
          { ctx with
            kill := ctx.kill &&& ~~~sigmask (i + 1)
            pending := ctx.pending &&& ~~~sigmask (i + 1) })
      else
        match ctx.sigQ i with
        | info :: rest =>
          (some (i + 1, info),
            { ctx with
              sigQ := update ctx.sigQ i rest
              pending := if rest = [] then ctx.pending &&& ~~~sigmask (i + 1) else ctx.pending })
        | [] => (none, ctx) := by
  have hi : i < 64 := BitVec.lt_of_getLsbD hbit
  have hne : sigset &&& ctx.pending ≠ 0#64 := by
    intro hzero
    rw [hzero] at hbit
    simp at hbit
  have htest := @sigmask_and_ne_zero (i + 1) (by omega) ctx.kill
  unfold sigPendGet
  simp only [hne, if_false, and_neg_eq_sigmask hbit hlow, sigGetLsb_sigmask i hi, htest]
  rfl

theorem Gets.eq {ctx ctx' : SigCtx} {sigset : SigSet} {signo : Nat} {info : SigInfo}
    (h : Gets ctx sigset signo info ctx') : sigPendGet ctx sigset = (some (signo, info), ctx') := by
  cases h with
  | kill hbit hlow hkill => rw [sigPendGet_lowest hbit hlow, if_pos hkill]
  | queue hbit hlow hkill hqueue =>
    rw [sigPendGet_lowest hbit hlow, hkill, hqueue]
    rfl

theorem sigPendGet_cases (ctx : SigCtx) (sigset : SigSet) :
    (sigPendGet ctx sigset = (none, ctx) ∧ (sigset &&& ctx.pending = 0#64 ∨
      ∃ i, (sigset &&& ctx.pending).getLsbD i = true ∧ ctx.kill.getLsbD i = false ∧
        ctx.sigQ i = [])) ∨
    ∃ signo info ctx', Gets ctx sigset signo info ctx' := by
  by_cases hzero : sigset &&& ctx.pending = 0#64
  · left
    simp [sigPendGet, hzero]
  · obtain ⟨i, hi, hbit, hlow⟩ := exists_lowest hzero
    cases hkill : ctx.kill.getLsbD i with
    | true =>
      right
      exact ⟨_, _, _, .kill hbit hlow hkill⟩
    | false =>
      cases hqueue : ctx.sigQ i with
      | nil =>
        left
        rw [sigPendGet_lowest hbit hlow, hkill, hqueue]
        exact ⟨rfl, Or.inr ⟨i, hbit, hkill, hqueue⟩⟩
      | cons info rest =>
        right
        exact ⟨_, _, _, .queue hbit hlow hkill hqueue⟩

def tookFrom (th : Thread) (sigset : SigSet) (info : SigInfo) (ctx' : SigCtx) : Thread :=
  { th with ctx := ctx', events := th.events ++ [.taken info (ready th.ctx sigset)] }

theorem Gets.take {th : Thread} {sigset : SigSet} {signo : Nat} {info : SigInfo} {ctx' : SigCtx}
    (h : Gets th.ctx sigset signo info ctx') :
    SignalLib.take th sigset = some (signo, info, tookFrom th sigset info ctx') := by
  rw [SignalLib.take, h.eq]
  rfl

theorem take_eq_some {th th' : Thread} {sigset : SigSet} {signo : Nat} {info : SigInfo}
    (h : take th sigset = some (signo, info, th')) :
    ∃ ctx', Gets th.ctx sigset signo info ctx' ∧ th' = tookFrom th sigset info ctx' := by
  obtain ⟨hnone, -⟩ | ⟨s, i, ctx', hgets⟩ := sigPendGet_cases th.ctx sigset
  · simp [take, hnone] at h
  · rw [hgets.take] at h
    simp only [Option.some.injEq, Prod.mk.injEq] at h
    obtain ⟨rfl, rfl, rfl⟩ := h
    exact ⟨ctx', hgets, rfl⟩

theorem Gets.mem {ctx ctx' : SigCtx} {sigset : SigSet} {signo : Nat} {info : SigInfo}
    (h : Gets ctx sigset signo info ctx') :
    sigset.getLsbD (sigindex signo) = true ∧ signo - 1 < 64 := by
  cases h with
  | kill hbit _ _ =>
    rw [BitVec.getLsbD_and, Bool.and_eq_true] at hbit
    exact ⟨hbit.1, BitVec.lt_of_getLsbD hbit.1⟩
  | queue hbit _ _ _ =>
    rw [BitVec.getLsbD_and, Bool.and_eq_true] at hbit
    exact ⟨hbit.1, BitVec.lt_of_getLsbD hbit.1⟩

theorem doSignal_cases (th : Thread) (sigpend : SigPend) (hsig : issig sigpend.info.signo) :
    doSignal th sigpend = (.ign, th) ∨
    (∃ id, awaiting th sigpend.info.signo = some id ∧
      doSignal th sigpend = (.info, handOver th id sigpend.info)) ∨
    (th.ctx.mask.getLsbD (sigindex sigpend.info.signo) = true ∧
      doSignal th sigpend = (.block, blockSignal th sigpend)) ∨
    (awaiting th sigpend.info.signo = none ∧
      th.ctx.mask.getLsbD (sigindex sigpend.info.signo) = false ∧
        doSignal th sigpend = (.ok, deliver th sigpend.info)) := by
  have hlt : sigpend.info.signo - 1 < 64 := by
    have := hsig.2
    omega
  simp only [doSignal]
  split
  · exact Or.inl rfl
  · cases hwait : awaiting th sigpend.info.signo with
    | some id => exact Or.inr (Or.inl ⟨id, rfl, rfl⟩)
    | none =>
      simp only [sigmask_and_ne_zero hlt]
      split
      · exact Or.inl rfl
      · split
        · next hmask => exact Or.inr (Or.inr (Or.inl ⟨hmask, rfl⟩))
        · next hmask =>
          rw [Bool.not_eq_true] at hmask
          exact Or.inr (Or.inr (Or.inr ⟨trivial, hmask, rfl⟩))

theorem blockSignal_cases (th : Thread) (sigpend : SigPend) :
    blockSignal th sigpend = th ∨
    ∃ pending kill sigQ, blockSignal th sigpend =
      { th with
        ctx := { th.ctx with pending := pending, kill := kill, sigQ := sigQ }
        events := th.events ++ [.sent sigpend.info] } := by
  unfold blockSignal
  split
  · exact Or.inr ⟨_, _, th.ctx.sigQ, rfl⟩
  · split
    · exact Or.inl rfl
    · split
      · exact Or.inr ⟨_, th.ctx.kill, _, rfl⟩
      · exact Or.inl rfl

section MakeReady

variable (th : Thread) (signo : Nat) (saType : SchedRet)

theorem sigMakeReady_fst : ∃ pend delay waitTimeout, (sigMakeReady th signo saType).1 =
    { th with pend := pend, delay := delay, waitTimeout := waitTimeout } := by
  unfold sigMakeReady
  split
  · exact ⟨th.pend, th.delay, th.waitTimeout, rfl⟩
  · split
    · exact ⟨_, _, _, rfl⟩
    · exact ⟨th.pend, _, _, rfl⟩

@[simp] theorem sigMakeReady_ctx : (sigMakeReady th signo saType).1.ctx = th.ctx := by
  obtain ⟨pend, delay, waitTimeout, h⟩ := sigMakeReady_fst th signo saType
  rw [h]

@[simp] theorem sigMakeReady_stack : (sigMakeReady th signo saType).1.stack = th.stack := by
  obtain ⟨pend, delay, waitTimeout, h⟩ := sigMakeReady_fst th signo saType
  rw [h]

@[simp] theorem sigMakeReady_exited : (sigMakeReady th signo saType).1.exited = th.exited := by
  obtain ⟨pend, delay, waitTimeout, h⟩ := sigMakeReady_fst th signo saType
  rw [h]

@[simp] theorem sigMakeReady_told : (sigMakeReady th signo saType).1.told = th.told := by
  obtain ⟨pend, delay, waitTimeout, h⟩ := sigMakeReady_fst th signo saType
  rw [h]

@[simp] theorem sigMakeReady_base : (sigMakeReady th signo saType).1.base = th.base := by
  obtain ⟨pend, delay, waitTimeout, h⟩ := sigMakeReady_fst th signo saType
  rw [h]

@[simp] theorem sigMakeReady_events : (sigMakeReady th signo saType).1.events = th.events := by
  obtain ⟨pend, delay, waitTimeout, h⟩ := sigMakeReady_fst th signo saType
  rw [h]

end MakeReady

theorem schedSetRet_cases (schedRet : SchedRet) (stack : List Frame) :
    schedSetRet schedRet stack = stack ∨ ∃ id timed old new rest,
      stack = .wait id timed old :: rest ∧
        schedSetRet schedRet stack = .wait id timed new :: rest := by
  unfold schedSetRet
  split
  · exact Or.inr ⟨_, _, _, _, _, rfl, rfl⟩
  · exact Or.inl rfl

theorem Gets.frame {ctx ctx' : SigCtx} {sigset : SigSet} {signo : Nat} {info : SigInfo}
    (h : Gets ctx sigset signo info ctx') :
    ctx'.mask = ctx.mask ∧ ctx'.action = ctx.action ∧ ctx'.sigwait = ctx.sigwait := by
  cases h <;> exact ⟨rfl, rfl, rfl⟩

theorem Gets.congr {ctx ctx₂ ctx' : SigCtx} {sigset : SigSet} {signo : Nat} {info : SigInfo}
    (h : Gets ctx sigset signo info ctx') (hpend : ctx₂.pending = ctx.pending)
    (hkill : ctx₂.kill = ctx.kill) (hq : ctx₂.sigQ = ctx.sigQ) :
    ∃ ctx₂', Gets ctx₂ sigset signo info ctx₂' ∧ ctx₂'.pending = ctx'.pending ∧
      ctx₂'.kill = ctx'.kill ∧ ctx₂'.sigQ = ctx'.sigQ := by
  cases h with
  | kill hbit hlow hbitk =>
    refine ⟨_, .kill (hpend ▸ hbit) (hpend ▸ hlow) (hkill ▸ hbitk), ?_, ?_, hq⟩
    · rw [hpend]
    · rw [hkill]
  | queue hbit hlow hbitk hqueue =>
    refine ⟨_, .queue (hpend ▸ hbit) (hpend ▸ hlow) (hkill ▸ hbitk) (hq ▸ hqueue), ?_, hkill, ?_⟩
    · rw [hpend]
    · rw [hq]

theorem ready_congr {ctx ctx₂ : SigCtx} (hkill : ctx₂.kill = ctx.kill) (hq : ctx₂.sigQ = ctx.sigQ)
    (sigset : SigSet) : ready ctx₂ sigset = ready ctx sigset := by
  rw [ready, ready, hkill, hq]

theorem take_eq_none_iff {th : Thread} {sigset : SigSet} :
    take th sigset = none ↔ ∀ signo info ctx', ¬ Gets th.ctx sigset signo info ctx' := by
  constructor
  · intro h signo info ctx' hgets
    rw [hgets.take] at h
    exact absurd h (by simp)
  · intro h
    cases htake : take th sigset with
    | none => rfl
    | some taken =>
      obtain ⟨ctx', hgets, -⟩ := @take_eq_some th taken.2.2 sigset taken.1 taken.2.1 htake
      exact absurd hgets (h _ _ _)

end SylixOS.SignalLib
