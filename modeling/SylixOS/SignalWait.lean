import SylixOS.SignalLib
import SylixOS.StepRuns

/-! Waiting for signals. A signal that is handed to a wait must be what the wait
returns; that depends only on how the thread was woken, so the stack is looked at
through what each frame gives back to the one below it. -/

namespace SylixOS.SignalWait
open SignalLib StepRuns Function

inductive Shape where
  | handler (gives : Option (SchedRet × Bool))
  | suspend
  | wait (id : Nat) (timed : Bool) (schedRet : SchedRet)
  deriving DecidableEq, Repr

def given : After → Option (SchedRet × Bool)
  | .procmask => none
  | .suspend _ => none
  | .sigReturn schedRet waitTimeout => some (schedRet, waitTimeout)

def shape : Frame → Shape
  | .context _ schedRet waitTimeout => .handler (some (schedRet, waitTimeout))
  | .direct _ _ after => .handler (given after)
  | .suspend _ => .suspend
  | .wait id timed schedRet => .wait id timed schedRet

structure View where
  shapes : List Shape
  pend : Bool
  delay : Bool
  waitTimeout : Bool
  sigwait : Option Nat
  sigwt : Nat → SigWait
  nextWait : Nat
  told : List (Nat × SigInfo)
  results : List (Nat × WaitResult)

def view (th : Thread) : View where
  shapes := th.stack.map shape
  pend := th.pend
  delay := th.delay
  waitTimeout := th.waitTimeout
  sigwait := th.ctx.sigwait
  sigwt := th.sigwt
  nextWait := th.nextWait
  told := th.told
  results := th.results

def Shape.id? : Shape → Option Nat
  | .wait id _ _ => some id
  | _ => none

def waitIds (shapes : List Shape) : List Nat := shapes.filterMap Shape.id?

def inCall : List Shape → Bool
  | .suspend :: _ => true
  | .wait _ _ _ :: _ => true
  | _ => false

def handed : Thread × Act × Thread → Option (Nat × SigInfo)
  | (th, .kill signo, _) =>
    if issig signo ∧ (doKill th signo).1 = .info then
      th.ctx.sigwait.map fun id => (id, ⟨signo, .kill, 1⟩)
    else none
  | (th, .sigqueue signo value, _) =>
    if issig signo ∧ (doSigQueue th signo value).1 = .info then
      th.ctx.sigwait.map fun id => (id, ⟨signo, .queue, value⟩)
    else none
  | _ => none

def giveRet (ret : SchedRet) : List Shape → List Shape
  | .wait id timed old :: rest => .wait id timed (if old = .errNone then ret else old) :: rest
  | shapes => shapes

def View.woken (v : View) (waitTimeout : Bool) : View :=
  { v with pend := false, delay := false, waitTimeout := waitTimeout }

inductive Move (v : View) : View → Prop where
  | stay : Move v v
  | hand {id : Nat} {timed : Bool} {ret : SchedRet} {rest : List Shape} (info : SigInfo)
      (hpend : v.pend = true) (htop : v.shapes = .wait id timed ret :: rest) (hwait : v.sigwait = some id) :
      Move v { v.woken false with
        sigwait := none
        sigwt := update v.sigwt id ⟨(v.sigwt id).sigset, some info⟩
        told := v.told ++ [(id, info)] }
  | overlay (hpend : v.pend = false) (hdelay : v.delay = false) :
      Move v { v with shapes := .handler (some (.errNone, v.waitTimeout)) :: v.shapes }
  | interrupt (hpend : v.pend = true ∨ v.delay = true) (waitTimeout : Bool) (ret : SchedRet) :
      Move v { v.woken waitTimeout with
        shapes := .handler (some (ret, waitTimeout)) :: v.shapes }
  | tick (hdelay : v.delay = true) : Move v (v.woken v.pend)
  | call (hpend : v.pend = false) (hcall : inCall v.shapes = false) :
      Move v { v with shapes := .handler none :: v.shapes }
  | suspend (hpend : v.pend = false) (hcall : inCall v.shapes = false) :
      Move v { v with shapes := .suspend :: v.shapes, pend := true }
  | wait (hpend : v.pend = false) (hcall : inCall v.shapes = false) (sigset : SigSet)
      (timed delay waitTimeout : Bool) :
      Move v { v with
        shapes := .wait v.nextWait timed .errNone :: v.shapes
        pend := true
        delay := delay
        waitTimeout := waitTimeout
        sigwait := some v.nextWait
        sigwt := update v.sigwt v.nextWait ⟨sigset, none⟩
        nextWait := v.nextWait + 1 }
  | atOnce (result : WaitResult) :
      Move v { v with
        nextWait := v.nextWait + 1
        results := v.results ++ [(v.nextWait, result)] }
  | leaveContext {ret : SchedRet} {waitTimeout : Bool} {rest : List Shape} (hpend : v.pend = false)
      (htop : v.shapes = .handler (some (ret, waitTimeout)) :: rest) :
      Move v { v with shapes := giveRet ret rest, waitTimeout := waitTimeout }
  | leaveLoop {rest : List Shape} (hpend : v.pend = false) (htop : v.shapes = .handler none :: rest) :
      Move v { v with shapes := rest }
  | leaveSuspend {rest : List Shape} (hpend : v.pend = false)
      (htop : v.shapes = .handler none :: rest) :
      Move v { v with shapes := .suspend :: rest }
  | resume {rest : List Shape} (hpend : v.pend = false) (htop : v.shapes = .suspend :: rest) :
      Move v { v with shapes := rest }
  | resumeRun {rest : List Shape} (hpend : v.pend = false) (htop : v.shapes = .suspend :: rest) :
      Move v { v with shapes := .handler none :: rest }
  | finish {id : Nat} {timed : Bool} {ret : SchedRet} {rest : List Shape}
      (hpend : v.pend = false) (htop : v.shapes = .wait id timed ret :: rest) :
      Move v { v with
        shapes := rest
        sigwait := none
        results := v.results ++ [(id,
          if ret ≠ .errNone then .eintr
          else if timed && v.waitTimeout then .eagain
          else .signal (v.sigwt id).info)] }

/-- A signal that the thread waits for comes while the thread is still blocked in that wait. -/
def HandedBlocked (th : Thread) (a : Act) : Prop :=
  ∀ signo, (a = .kill signo ∨ ∃ value, a = .sigqueue signo value) → issig signo →
    ∀ id, awaiting th signo = some id →
      th.pend = true ∧ ∃ timed ret rest, th.stack = .wait id timed ret :: rest

theorem shape_free (sigset : SigSet) (f : Frame) : shape (f.free sigset) = shape f := by
  cases f <;> rfl

theorem view_setMask (th : Thread) (mask : SigSet) : view (setMask th mask) = view th := by
  simp only [view, setMask, List.map_map]
  congr 1
  apply List.map_congr_left
  exact fun f _ => shape_free _ f

theorem running_iff {th : Thread} :
    th.running = true ↔ (view th).pend = false ∧ inCall (view th).shapes = false := by
  unfold Thread.running view
  cases hstack : th.stack with
  | nil => simp [inCall]
  | cons f rest =>
    cases f with
    | direct run sigset after => simp [shape, inCall]
    | context run schedRet waitTimeout => simp [shape, inCall]
    | suspend sigsetOld => simp [shape, inCall]
    | wait id timed schedRet => simp [shape, inCall]

theorem awaiting_eq_some {th : Thread} {signo id : Nat} (h : awaiting th signo = some id) :
    th.ctx.sigwait = some id := by
  unfold awaiting at h
  cases hwait : th.ctx.sigwait with
  | none => simp [hwait] at h
  | some id' =>
    simp only [hwait] at h
    split at h
    · exact h
    · exact absurd h (by simp)

theorem move_sigCtlCreate (th : Thread) (signo : Nat) (saType : SchedRet) (run : Activation) :
    Move (view th) (view (sigCtlCreate (sigMakeReady th signo saType).1 run
      (sigMakeReady th signo saType).2)) := by
  unfold sigMakeReady
  by_cases hready : (!th.pend && !th.delay) = true
  · rw [if_pos hready]
    simp only [Bool.and_eq_true, Bool.not_eq_true'] at hready
    exact .overlay hready.1 hready.2
  · rw [if_neg hready]
    have hblocked : (view th).pend = true ∨ (view th).delay = true := by
      cases hpend : th.pend <;> cases hdelay : th.delay <;> simp_all [view]
    by_cases hpend : th.pend = true
    · rw [if_pos hpend]
      exact .interrupt hblocked _ _
    · rw [if_neg hpend]
      rw [Bool.not_eq_true] at hpend
      have := Move.interrupt hblocked false saType
      simpa [View.woken, view, sigCtlCreate, shape, hpend] using this

theorem view_tookFrom {th : Thread} {sigset : SigSet} {signo : Nat} {info : SigInfo}
    {ctx' : SigCtx} (h : Gets th.ctx sigset signo info ctx') :
    view (tookFrom th sigset info ctx') = view th := by
  simp [view, tookFrom, h.frame.2.2]

theorem view_enterPending {th th' : Thread} {sigset sigsetOld : SigSet} {after : After}
    (h : enterPending th sigset sigsetOld after = some th') :
    view th' = { view th with shapes := .handler (given after) :: (view th).shapes } := by
  unfold enterPending at h
  cases htake : take th sigset with
  | none => simp [htake] at h
  | some taken =>
    obtain ⟨signo, info, th₁⟩ := taken
    obtain ⟨ctx', hgets, rfl⟩ := take_eq_some htake
    simp only [htake, Option.some.injEq] at h
    subst h
    simp [view, tookFrom, shape, hgets.frame.2.2]

theorem move_handOver {th : Thread} {id : Nat} {info : SigInfo}
    (hwait : awaiting th info.signo = some id) (hpend : th.pend = true) {timed : Bool}
    {ret : SchedRet} {rest : List Frame} (htop : th.stack = .wait id timed ret :: rest) :
    Move (view th) (view (handOver th id info)) := by
  have hshape : (view th).shapes = .wait id timed ret :: rest.map shape := by
    simp [view, htop, shape]
  have hsame : awaiting { th with
      sigwt := update th.sigwt id ⟨(th.sigwt id).sigset, some info⟩ } info.signo =
        some id := by
    have hset := awaiting_eq_some hwait
    simp only [awaiting, hset] at hwait ⊢
    simpa using hwait
  have hready : sigMakeReady { th with
      sigwt := update th.sigwt id ⟨(th.sigwt id).sigset, some info⟩ } info.signo .eintr =
        ({ th with
          sigwt := update th.sigwt id ⟨(th.sigwt id).sigset, some info⟩
          delay := false, pend := false, waitTimeout := false }, .eintr) := by
    rw [sigMakeReady, if_neg (by simp [hpend]), if_pos hpend, hsame]
    rfl
  simp only [handOver, hready]
  exact .hand info hpend hshape (awaiting_eq_some hwait)

theorem move_doSignal {th : Thread} {info : SigInfo} (hsig : issig info.signo)
    (hblocked : ∀ id, awaiting th info.signo = some id →
      th.pend = true ∧ ∃ timed ret rest, th.stack = .wait id timed ret :: rest) :
    Move (view th) (view (doSignal th ⟨info, .signal, false⟩).2) := by
  obtain heq | ⟨id, hwait, heq⟩ | ⟨-, heq⟩ | ⟨-, -, heq⟩ :=
    doSignal_cases th ⟨info, .signal, false⟩ hsig
  · rw [heq]
    exact .stay
  · rw [heq]
    obtain ⟨hpend, timed, ret, rest, htop⟩ := hblocked id hwait
    exact move_handOver hwait hpend htop
  · rw [heq]
    obtain hsame | ⟨pending, kill, sigQ, hkept⟩ := blockSignal_cases th ⟨info, .signal, false⟩
    · rw [hsame]
      exact .stay
    · rw [hkept]
      exact .stay
  · rw [heq]
    exact move_sigCtlCreate { th with ctx := { th.ctx with
      mask := (th.ctx.action (sigindex info.signo)).extend info.signo th.ctx.mask } } _ _ _

theorem move_sigPendRun (th : Thread) : Move (view th) (view (sigPendRun th)) := by
  unfold sigPendRun
  cases htake : take th (~~~th.ctx.mask) with
  | none => exact .stay
  | some taken =>
    obtain ⟨signo, info, th₁⟩ := taken
    obtain ⟨ctx', hgets, rfl⟩ := take_eq_some htake
    rw [← view_tookFrom hgets]
    exact move_sigCtlCreate _ _ _ _

theorem move_enterPending {v : View} {th th₂ : Thread} {sigset sigsetOld : SigSet} {after : After}
    (hrun : Move v { view th with shapes := .handler (given after) :: (view th).shapes })
    (hend : Move v (view th₂)) :
    Move v (view ((enterPending th sigset sigsetOld after).getD th₂)) := by
  cases henter : enterPending th sigset sigsetOld after with
  | none => exact hend
  | some entered =>
    rw [Option.getD_some, view_enterPending henter]
    exact hrun

theorem move_sigtimedwait {th : Thread} (hrunning : th.running = true) (sigset : SigSet)
    (time : WaitFor) : Move (view th) (view (sigtimedwait th sigset time)) := by
  obtain ⟨hpend, hcall⟩ := running_iff.mp hrunning
  unfold sigtimedwait
  cases htake : take th sigset with
  | some taken =>
    obtain ⟨signo, info, th₁⟩ := taken
    obtain ⟨ctx', hgets, rfl⟩ := take_eq_some htake
    have hview : view (returnAtOnce (tookFrom th sigset info ctx') (.signal (some info))) =
        { view th with
          nextWait := (view th).nextWait + 1
          results := (view th).results ++ [((view th).nextWait, .signal (some info))] } := by
      rw [← view_tookFrom hgets]
      rfl
    dsimp only
    rw [hview]
    exact .atOnce _
  | none =>
    dsimp only
    split
    · exact .atOnce _
    · exact .wait hpend hcall sigset _ _ _

theorem shapes_leaveContext (th : Thread) (ret : SchedRet) (waitTimeout : Bool) :
    (leaveContext th ret waitTimeout).stack.map shape = giveRet ret (th.stack.map shape) := by
  unfold leaveContext
  cases hstack : th.stack with
  | nil => rfl
  | cons f rest => cases f <;> rfl

theorem move_leaveContext {th th₁ : Thread} {ret : SchedRet} {waitTimeout : Bool}
    (hpend : th.pend = false)
    (htop : (view th).shapes = .handler (some (ret, waitTimeout)) :: th₁.stack.map shape)
    (hview : view th₁ = { view th with shapes := th₁.stack.map shape }) :
    Move (view th) (view (leaveContext th₁ ret waitTimeout)) := by
  have hmove := Move.leaveContext hpend htop
  have heq : view (leaveContext th₁ ret waitTimeout) =
      { view th₁ with
        shapes := giveRet ret (th₁.stack.map shape), waitTimeout := waitTimeout } := by
    rw [← shapes_leaveContext th₁ ret waitTimeout]
    rfl
  rw [heq, hview]
  exact hmove

theorem move_handlerReturns {th th' : Thread} (hrunning : th.running = true)
    (hret : handlerReturns th = some th') : Move (view th) (view th') := by
  obtain ⟨hpend, -⟩ := running_iff.mp hrunning
  unfold handlerReturns at hret
  split at hret
  · next run sigset after rest hstack =>
    have htop : (view th).shapes = .handler (given after) :: rest.map shape := by
      simp [view, hstack, shape]
    split at hret
    · obtain rfl := Option.some.inj hret
      exact .stay
    · obtain rfl := Option.some.inj hret
      apply move_enterPending
      · have hsame : { view th with shapes := .handler (given after) :: rest.map shape } =
            view th := by rw [← htop]
        exact hsame ▸ .stay
      · cases after with
        | procmask => exact .leaveLoop hpend htop
        | suspend sigsetOld => exact .leaveSuspend hpend htop
        | sigReturn schedRet waitTimeout => exact move_leaveContext hpend htop rfl
  · next run schedRet waitTimeout rest hstack =>
    have htop : (view th).shapes = .handler (some (schedRet, waitTimeout)) :: rest.map shape := by
      simp [view, hstack, shape]
    split at hret
    · obtain rfl := Option.some.inj hret
      exact .stay
    · obtain rfl := Option.some.inj hret
      apply move_enterPending
      · have hsame : { view th with
            shapes := .handler (some (schedRet, waitTimeout)) :: rest.map shape } = view th := by
          rw [← htop]
        exact hsame ▸ .stay
      · exact move_leaveContext hpend htop rfl
  · exact absurd hret (by simp)

theorem move_resume {th th' : Thread} (hpend : th.pend = false)
    (hres : SignalLib.resume th = some th') : Move (view th) (view th') := by
  unfold SignalLib.resume at hres
  split at hres
  · next sigsetOld rest hstack =>
    have htop : (view th).shapes = .suspend :: rest.map shape := by
      simp [view, hstack, shape]
    obtain rfl := Option.some.inj hres
    apply move_enterPending
    · rw [view_setMask]
      exact .resumeRun hpend htop
    · rw [view_setMask]
      exact .resume hpend htop
  · next id timed ret rest hstack =>
    have htop : (view th).shapes = .wait id timed ret :: rest.map shape := by
      simp [view, hstack, shape]
    obtain rfl := Option.some.inj hres
    exact .finish hpend htop
  · exact absurd hres (by simp)

theorem step_move {th th' : Thread} {a : Act} (hblocked : HandedBlocked th a)
    (hstep : step th a = some th') : Move (view th) (view th') := by
  unfold step at hstep
  split at hstep
  · exact absurd hstep (by simp)
  · cases a with
    | kill signo =>
      obtain rfl := Option.some.inj hstep
      by_cases hsig : issig signo
      · rw [if_pos hsig]
        exact move_doSignal hsig (hblocked signo (Or.inl rfl) hsig)
      · rw [if_neg hsig]
        exact .stay
    | sigqueue signo value =>
      obtain rfl := Option.some.inj hstep
      by_cases hsig : issig signo
      · rw [if_pos hsig]
        exact move_doSignal hsig (hblocked signo (Or.inr ⟨value, rfl⟩) hsig)
      · rw [if_neg hsig]
        exact .stay
    | pendRun =>
      obtain rfl := Option.some.inj hstep
      exact move_sigPendRun th
    | tick =>
      obtain ⟨hdelay, rfl⟩ := by simpa using hstep
      exact .tick hdelay
    | exit =>
      obtain rfl := Option.some.inj hstep
      exact .stay
    | procmask cmd sigset =>
      obtain ⟨hrunning, rfl⟩ := by simpa using hstep
      obtain ⟨hpend, hcall⟩ := running_iff.mp hrunning
      cases cmd with
      | block =>
        rw [sigprocmask, view_setMask]
        exact .stay
      | unblock =>
        apply move_enterPending <;> rw [view_setMask]
        · exact .call hpend hcall
        · exact .stay
      | setmask =>
        apply move_enterPending <;> rw [view_setMask]
        · exact .call hpend hcall
        · exact .stay
    | suspend sigset =>
      obtain ⟨hrunning, rfl⟩ := by simpa using hstep
      obtain ⟨hpend, hcall⟩ := running_iff.mp hrunning
      apply move_enterPending
      · rw [view_setMask]
        exact .call hpend hcall
      · have hmove := Move.suspend hpend hcall
        rw [← view_setMask th (sigset &&& ~~~signoUnmask)] at hmove ⊢
        exact hmove
    | wait sigset time =>
      obtain ⟨hrunning, rfl⟩ := by simpa using hstep
      exact move_sigtimedwait hrunning sigset time
    | ret =>
      obtain ⟨hrunning, hret⟩ := by simpa using hstep
      exact move_handlerReturns hrunning hret
    | resume =>
      obtain ⟨hpend, hres⟩ := by simpa using hstep
      exact move_resume hpend hres

/-- A wait that was handed a signal will not find a time-out, and it gets nothing from the
scheduler: the thread is ready to go on with it, or the handler above it gives back nothing. -/
def Settles (v : View) (above : List Shape) : Prop :=
  match above.getLast? with
  | none => v.pend = false ∧ v.delay = false ∧ v.waitTimeout = false
  | some s => s = .handler (some (.errNone, false))

structure Inv (v : View) : Prop where
  blocked : v.pend = true → inCall v.shapes = true
  unread : v.pend = true → ∀ id timed ret rest, v.shapes = .wait id timed ret :: rest →
    ret = .errNone
  timed : v.delay = true → v.pend = true
  nodup : (waitIds v.shapes).Nodup
  fresh : ∀ id ∈ waitIds v.shapes, id < v.nextWait
  done : ∀ id r, (id, r) ∈ v.results → id < v.nextWait ∧ id ∉ waitIds v.shapes
  once : (v.told.map Prod.fst).Nodup
  inProgress : ∀ id info, (id, info) ∈ v.told →
    id ∈ waitIds v.shapes ∨ (id, .signal (some info)) ∈ v.results
  installed : ∀ id, v.sigwait = some id → id ∈ waitIds v.shapes ∧ id ∉ v.told.map Prod.fst
  kept : ∀ id info, (id, info) ∈ v.told → (v.sigwt id).info = some info
  settles : ∀ above below id timed ret, v.shapes = above ++ .wait id timed ret :: below →
    id ∈ v.told.map Prod.fst → ret = .errNone ∧ Settles v above
  returned : ∀ id r, (id, r) ∈ v.results → ∀ info, (id, info) ∈ v.told → r = .signal (some info)

theorem Settles.push {v : View} {above : List Shape} {s : Shape} (h : Settles v above)
    (htop : above = [] → s = .handler (some (.errNone, false))) (v' : View) :
    Settles v' (s :: above) := by
  cases above with
  | nil => exact htop rfl
  | cons a as =>
    unfold Settles at h ⊢
    rwa [List.getLast?_cons_cons]

theorem Settles.pop {v v' : View} {above : List Shape} {s : Shape} (h : Settles v (s :: above))
    (htop : above = [] → s = .handler (some (.errNone, false)) → Settles v' []) :
    Settles v' above := by
  cases above with
  | nil => exact htop rfl h
  | cons a as =>
    unfold Settles at h ⊢
    rwa [List.getLast?_cons_cons] at h

theorem append_wait_of_cons {s : Shape} {shapes above below : List Shape} {id : Nat} {timed : Bool}
    {ret : SchedRet} (hs : s.id? = none) (h : s :: shapes = above ++ .wait id timed ret :: below) :
    ∃ above', above = s :: above' ∧ shapes = above' ++ .wait id timed ret :: below := by
  cases above with
  | nil =>
    obtain ⟨rfl, -⟩ := List.cons.inj h
    exact absurd hs (by simp [Shape.id?])
  | cons a above' =>
    obtain ⟨rfl, hrest⟩ := List.cons.inj h
    exact ⟨above', rfl, hrest⟩

theorem waitIds_cons {s : Shape} (hs : s.id? = none) (shapes : List Shape) :
    waitIds (s :: shapes) = waitIds shapes := by
  simp [waitIds, hs]

theorem waitIds_cons_wait (id : Nat) (timed : Bool) (ret : SchedRet) (shapes : List Shape) :
    waitIds (.wait id timed ret :: shapes) = id :: waitIds shapes := by
  simp [waitIds, Shape.id?]

theorem waitIds_giveRet (ret : SchedRet) (shapes : List Shape) :
    waitIds (giveRet ret shapes) = waitIds shapes := by
  unfold giveRet
  split
  · rw [waitIds_cons_wait, waitIds_cons_wait]
  · rfl

theorem Inv.reshape {v v' : View} (h : Inv v) (hids : waitIds v'.shapes = waitIds v.shapes)
    (hsame : (v'.nextWait, v'.sigwait, v'.sigwt, v'.told, v'.results) =
      (v.nextWait, v.sigwait, v.sigwt, v.told, v.results))
    (blocked : v'.pend = true → inCall v'.shapes = true)
    (unread : v'.pend = true → ∀ id timed ret rest, v'.shapes = .wait id timed ret :: rest →
      ret = .errNone)
    (timed : v'.delay = true → v'.pend = true)
    (settles : ∀ above below id timed ret, v'.shapes = above ++ .wait id timed ret :: below →
      id ∈ v.told.map Prod.fst → ret = .errNone ∧ Settles v' above) : Inv v' := by
  simp only [Prod.mk.injEq] at hsame
  obtain ⟨hnext, hwait, hwt, htold, hresults⟩ := hsame
  refine ⟨blocked, unread, timed, ?_, ?_, ?_, ?_, ?_, ?_, ?_, ?_, ?_⟩
  · rw [hids]
    exact h.nodup
  · rw [hids, hnext]
    exact h.fresh
  · rw [hids, hnext, hresults]
    exact h.done
  · rw [htold]
    exact h.once
  · rw [hids, htold, hresults]
    exact h.inProgress
  · rw [hids, hwait, htold]
    exact h.installed
  · rw [htold, hwt]
    exact h.kept
  · rw [htold]
    exact settles
  · rw [htold, hresults]
    exact h.returned

theorem Inv.push {v v' : View} (h : Inv v) {s : Shape} (hs : s.id? = none)
    (hshapes : v'.shapes = s :: v.shapes)
    (hsame : (v'.nextWait, v'.sigwait, v'.sigwt, v'.told, v'.results) =
      (v.nextWait, v.sigwait, v.sigwt, v.told, v.results))
    (blocked : v'.pend = true → inCall v'.shapes = true) (timed : v'.delay = true → v'.pend = true)
    (hgives : inCall v.shapes = true → v.pend = false → v.delay = false → v.waitTimeout = false →
      s = .handler (some (.errNone, false))) : Inv v' := by
  refine h.reshape ?_ hsame blocked ?_ timed ?_
  · rw [hshapes]
    exact waitIds_cons hs _
  · intro _ id timed ret rest heq
    rw [hshapes] at heq
    obtain ⟨rfl, -⟩ := List.cons.inj heq
    exact absurd hs (by simp [Shape.id?])
  · intro above below id timed ret heq hid
    rw [hshapes] at heq
    obtain ⟨above', rfl, hrest⟩ := append_wait_of_cons hs heq
    obtain ⟨hret, hsettles⟩ := h.settles above' below id timed ret hrest hid
    refine ⟨hret, hsettles.push ?_ v'⟩
    rintro rfl
    obtain ⟨hp, hd, hw⟩ := hsettles
    apply hgives _ hp hd hw
    rw [hrest]
    rfl

theorem Inv.replace {v v' : View} (h : Inv v) {s : Shape} {rest : List Shape}
    (htop : v.shapes = s :: rest) (hs : s.id? = none)
    (hgives : s ≠ .handler (some (.errNone, false)))
    (hshapes : v'.shapes = rest ∨ ∃ s', s'.id? = none ∧ v'.shapes = s' :: rest)
    (hsame : (v'.nextWait, v'.sigwait, v'.sigwt, v'.told, v'.results) =
      (v.nextWait, v.sigwait, v.sigwt, v.told, v.results))
    (hpend : v'.pend = false) (hdelay : v'.delay = false) : Inv v' := by
  refine h.reshape ?_ hsame ?_ ?_ ?_ ?_
  · rw [htop, waitIds_cons hs]
    rcases hshapes with heq | ⟨s', hs', heq⟩
    · rw [heq]
    · rw [heq, waitIds_cons hs']
  · intro hp
    rw [hpend] at hp
    exact absurd hp (by decide)
  · intro hp
    rw [hpend] at hp
    exact absurd hp (by decide)
  · intro hd
    rw [hdelay] at hd
    exact absurd hd (by decide)
  · intro above below id timed ret heq hid
    -- the frames above the wait, without the one that is on top now
    have hold : ∀ above', rest = above' ++ .wait id timed ret :: below →
        ret = .errNone ∧ Settles v (s :: above') := by
      intro above' hrest
      apply h.settles (s :: above') below id timed ret _ hid
      rw [htop, hrest]
      rfl
    rcases hshapes with hrest | ⟨s', hs', hnew⟩
    · obtain ⟨hret, hsettles⟩ := hold above (by rw [← hrest, heq])
      refine ⟨hret, hsettles.pop ?_⟩
      exact fun _ hhandler => absurd hhandler hgives
    · rw [hnew] at heq
      obtain ⟨above', rfl, hrest⟩ := append_wait_of_cons hs' heq
      obtain ⟨hret, hsettles⟩ := hold above' hrest
      refine ⟨hret, ?_⟩
      have hbelow : above' ≠ [] := by
        rintro rfl
        exact hgives hsettles
      have hpop : Settles v above' := hsettles.pop fun hnil _ => absurd hnil hbelow
      exact hpop.push (fun hnil => absurd hnil hbelow) v'

theorem Settles.congr {v v' : View} {above : List Shape} (h : Settles v above) (hne : above ≠ []) :
    Settles v' above := by
  obtain ⟨s, hs⟩ := Option.ne_none_iff_exists'.mp (mt List.getLast?_eq_none_iff.mp hne)
  unfold Settles at h ⊢
  rw [hs] at h ⊢
  exact h

theorem waitIds_append (above below : List Shape) :
    waitIds (above ++ below) = waitIds above ++ waitIds below := List.filterMap_append

theorem Inv.hand {v : View} (h : Inv v) {id : Nat} {timed : Bool} {ret : SchedRet}
    {rest : List Shape} (info : SigInfo) (hpend : v.pend = true)
    (htop : v.shapes = .wait id timed ret :: rest) (hwait : v.sigwait = some id) :
    Inv { v.woken false with
      sigwait := none
      sigwt := update v.sigwt id ⟨(v.sigwt id).sigset, some info⟩
      told := v.told ++ [(id, info)] } := by
  obtain ⟨hin, hnew⟩ := h.installed id hwait
  have hold : ∀ id' info', (id', info') ∈ v.told → id' ≠ id := by
    rintro id' info' hmem rfl
    exact hnew (List.mem_map_of_mem hmem)
  have hids : waitIds v.shapes = id :: waitIds rest := by
    rw [htop, waitIds_cons_wait]
  refine ⟨?_, ?_, ?_, h.nodup, h.fresh, h.done, ?_, ?_, ?_, ?_, ?_, ?_⟩
  · exact fun hp => absurd hp (by simp [View.woken])
  · exact fun hp => absurd hp (by simp [View.woken])
  · exact fun hd => absurd hd (by simp [View.woken])
  · simp only [List.map_append, List.map_cons, List.map_nil]
    exact List.nodup_append.mpr ⟨h.once, by simp, fun a ha b hb => by
      rw [List.mem_singleton.mp hb]
      rintro rfl
      exact hnew ha⟩
  · intro id' info' hmem
    rcases List.mem_append.mp hmem with hmem | hmem
    · exact h.inProgress id' info' hmem
    · obtain ⟨rfl, rfl⟩ : id' = id ∧ info' = info := by simpa using hmem
      exact Or.inl hin
  · exact fun id' hsome => absurd hsome (by simp)
  · intro id' info' hmem
    rcases List.mem_append.mp hmem with hmem | hmem
    · show (update v.sigwt id _ id').info = some info'
      rw [update_of_ne (hold id' info' hmem)]
      exact h.kept id' info' hmem
    · obtain ⟨rfl, rfl⟩ : id' = id ∧ info' = info := by simpa using hmem
      show (update v.sigwt id' _ id').info = some info'
      rw [update_self]
  · intro above below id' timed' ret' heq hid
    have hshapes : v.shapes = above ++ .wait id' timed' ret' :: below := heq
    simp only [List.map_append, List.map_cons, List.map_nil, List.mem_append,
      List.mem_singleton] at hid
    cases above with
    | nil =>
      rw [htop] at hshapes
      obtain ⟨hframe, -⟩ := List.cons.inj hshapes
      simp only [Shape.wait.injEq] at hframe
      obtain ⟨rfl, rfl, rfl⟩ := hframe
      exact ⟨h.unread hpend _ _ _ _ htop, rfl, rfl, rfl⟩
    | cons a above' =>
      have hne : id' ≠ id := by
        rintro rfl
        have hcons : a :: above' ++ .wait id' timed' ret' :: below =
            .wait id' timed ret :: rest := hshapes.symm.trans htop
        obtain ⟨rfl, hrest⟩ := List.cons.inj hcons
        have hrest' : rest = above' ++ .wait id' timed' ret' :: below := hrest.symm
        have hnodup := h.nodup
        rw [hids, hrest', waitIds_append, waitIds_cons_wait] at hnodup
        exact (List.nodup_cons.mp hnodup).1 (by simp)
      have htold := hid.resolve_right hne
      obtain ⟨hret, hsettles⟩ := h.settles _ below id' timed' ret' hshapes htold
      exact ⟨hret, hsettles.congr (List.cons_ne_nil a above')⟩
  · intro id' r hr info' hmem
    rcases List.mem_append.mp hmem with hmem | hmem
    · exact h.returned id' r hr info' hmem
    · obtain ⟨rfl, rfl⟩ : id' = id ∧ info' = info := by simpa using hmem
      exact absurd hin (h.done id' r hr).2

theorem Inv.told_lt {v : View} (h : Inv v) {id : Nat} {info : SigInfo}
    (hmem : (id, info) ∈ v.told) : id < v.nextWait := by
  rcases h.inProgress id info hmem with hin | hdone
  · exact h.fresh id hin
  · exact (h.done id _ hdone).1

theorem Inv.atOnce {v : View} (h : Inv v) (result : WaitResult) :
    Inv { v with
      nextWait := v.nextWait + 1
      results := v.results ++ [(v.nextWait, result)] } := by
  refine ⟨h.blocked, h.unread, h.timed, h.nodup, fun id hid => Nat.lt_succ_of_lt (h.fresh id hid),
    fun id r hr => ?_, h.once, fun id info hmem => ?_, h.installed, h.kept, ?_,
    fun id r hr info hmem => ?_⟩
  · rcases List.mem_append.mp hr with hr | hr
    · obtain ⟨hlt, hnot⟩ := h.done id r hr
      exact ⟨Nat.lt_succ_of_lt hlt, hnot⟩
    · obtain ⟨rfl, -⟩ : id = v.nextWait ∧ r = result := by simpa using hr
      exact ⟨Nat.lt_succ_self _, fun hin => absurd (h.fresh _ hin) (Nat.lt_irrefl _)⟩
  · rcases h.inProgress id info hmem with hin | hdone
    · exact Or.inl hin
    · exact Or.inr (List.mem_append_left _ hdone)
  · intro above below id timed ret heq hid
    obtain ⟨hret, hsettles⟩ := h.settles above below id timed ret heq hid
    exact ⟨hret, hsettles⟩
  · rcases List.mem_append.mp hr with hr | hr
    · exact h.returned id r hr info hmem
    · obtain ⟨rfl, -⟩ : id = v.nextWait ∧ r = result := by simpa using hr
      exact absurd (h.told_lt hmem) (Nat.lt_irrefl _)

theorem Inv.wait {v : View} (h : Inv v) (hcall : inCall v.shapes = false) (sigset : SigSet)
    (timed delay waitTimeout : Bool) :
    Inv { v with
      shapes := .wait v.nextWait timed .errNone :: v.shapes
      pend := true
      delay := delay
      waitTimeout := waitTimeout
      sigwait := some v.nextWait
      sigwt := update v.sigwt v.nextWait ⟨sigset, none⟩
      nextWait := v.nextWait + 1 } := by
  have hnew : ∀ id info, (id, info) ∈ v.told → id < v.nextWait := fun _ _ hmem => h.told_lt hmem
  have hnotold : v.nextWait ∉ v.told.map Prod.fst := by
    intro hmem
    obtain ⟨⟨id, info⟩, hmem, heq⟩ := List.mem_map.mp hmem
    have := hnew id info hmem
    simp only at heq
    omega
  refine ⟨fun _ => rfl, ?_, fun _ => rfl, ?_, ?_, ?_, h.once, ?_, ?_, ?_, ?_, h.returned⟩
  · intro _ id timed' ret rest heq
    obtain ⟨hframe, -⟩ := List.cons.inj heq
    simp only [Shape.wait.injEq] at hframe
    exact hframe.2.2.symm
  · rw [waitIds_cons_wait]
    exact List.nodup_cons.mpr ⟨fun hmem => absurd (h.fresh _ hmem) (Nat.lt_irrefl _), h.nodup⟩
  · rw [waitIds_cons_wait]
    intro id hid
    rcases List.mem_cons.mp hid with rfl | hid
    · exact Nat.lt_succ_self _
    · exact Nat.lt_succ_of_lt (h.fresh id hid)
  · intro id r hr
    obtain ⟨hlt, hnot⟩ := h.done id r hr
    rw [waitIds_cons_wait]
    refine ⟨Nat.lt_succ_of_lt hlt, fun hmem => ?_⟩
    rcases List.mem_cons.mp hmem with rfl | hmem
    · exact absurd hlt (Nat.lt_irrefl _)
    · exact hnot hmem
  · intro id info hmem
    rw [waitIds_cons_wait]
    rcases h.inProgress id info hmem with hin | hdone
    · exact Or.inl (List.mem_cons_of_mem _ hin)
    · exact Or.inr hdone
  · intro id hsome
    obtain rfl := Option.some.inj hsome
    rw [waitIds_cons_wait]
    exact ⟨List.mem_cons_self, hnotold⟩
  · intro id info hmem
    show (update v.sigwt v.nextWait _ id).info = some info
    rw [update_of_ne (Nat.ne_of_lt (hnew id info hmem))]
    exact h.kept id info hmem
  · intro above below id timed' ret heq hid
    cases above with
    | nil =>
      obtain ⟨hframe, -⟩ := List.cons.inj heq
      simp only [Shape.wait.injEq] at hframe
      obtain ⟨rfl, -, -⟩ := hframe
      exact absurd hid hnotold
    | cons a above' =>
      obtain ⟨rfl, hrest⟩ := List.cons.inj heq
      obtain ⟨hret, hsettles⟩ := h.settles above' below id timed' ret hrest hid
      refine ⟨hret, hsettles.push ?_ _⟩
      rintro rfl
      rw [hrest] at hcall
      exact absurd hcall (by simp [inCall])

theorem giveRet_cases (ret : SchedRet) (shapes : List Shape) :
    giveRet ret shapes = shapes ∨ ∃ id timed rest, shapes = .wait id timed .errNone :: rest ∧
      giveRet ret shapes = .wait id timed ret :: rest := by
  unfold giveRet
  split
  · next id timed old rest =>
    by_cases hold : old = .errNone
    · right
      exact ⟨id, timed, rest, by rw [hold], by rw [if_pos hold]⟩
    · left
      rw [if_neg hold]
  · exact Or.inl rfl

theorem Inv.leaveContext {v : View} (h : Inv v) {ret : SchedRet} {waitTimeout : Bool}
    {rest : List Shape} (hpend : v.pend = false)
    (htop : v.shapes = .handler (some (ret, waitTimeout)) :: rest) :
    Inv { v with shapes := giveRet ret rest, waitTimeout := waitTimeout } := by
  have hdelay : v.delay = false := by
    by_contra hd
    rw [Bool.not_eq_false] at hd
    rw [h.timed hd] at hpend
    exact absurd hpend (by decide)
  refine h.reshape ?_ rfl ?_ ?_ h.timed ?_
  · rw [waitIds_giveRet, htop, waitIds_cons rfl]
  · exact fun hp => absurd (hpend.symm.trans hp) (by decide)
  · exact fun hp => absurd (hpend.symm.trans hp) (by decide)
  · intro above below id timed ret' heq hid
    have hold : ∀ above' old, rest = above' ++ .wait id timed old :: below →
        old = .errNone ∧ Settles v (.handler (some (ret, waitTimeout)) :: above') := by
      intro above' old hrest
      apply h.settles (.handler (some (ret, waitTimeout)) :: above') below id timed old _ hid
      rw [htop, hrest]
      rfl
    have hshapes : giveRet ret rest = above ++ .wait id timed ret' :: below := heq
    obtain hsame | ⟨id₁, timed₁, rest₁, hrest, hgive⟩ := giveRet_cases ret rest
    · obtain ⟨hret, hsettles⟩ := hold above ret' (by rw [← hsame, hshapes])
      refine ⟨hret, hsettles.pop ?_⟩
      intro _ hhandler
      simp only [Shape.handler.injEq, Option.some.injEq, Prod.mk.injEq] at hhandler
      exact ⟨hpend, hdelay, hhandler.2⟩
    · rw [hgive] at hshapes
      cases above with
      | nil =>
        obtain ⟨hframe, rfl⟩ := List.cons.inj hshapes
        simp only [Shape.wait.injEq] at hframe
        obtain ⟨rfl, rfl, rfl⟩ := hframe
        obtain ⟨-, hsettles⟩ := hold [] .errNone hrest
        have hhandler : Shape.handler (some (ret, waitTimeout)) =
            .handler (some (.errNone, false)) := hsettles
        simp only [Shape.handler.injEq, Option.some.injEq, Prod.mk.injEq] at hhandler
        exact ⟨hhandler.1, hpend, hdelay, hhandler.2⟩
      | cons a above' =>
        obtain ⟨rfl, hrest₁⟩ := List.cons.inj hshapes
        have hrest' : rest₁ = above' ++ .wait id timed ret' :: below := hrest₁
        obtain ⟨hret, hsettles⟩ := hold (.wait id₁ timed₁ .errNone :: above') ret' (by
          rw [hrest, hrest']
          rfl)
        refine ⟨hret, ?_⟩
        have hpop : Settles v (.wait id₁ timed₁ .errNone :: above') :=
          hsettles.pop fun hnil => absurd hnil (List.cons_ne_nil _ _)
        cases above' with
        | nil => exact absurd hpop (by simp [Settles])
        | cons b above'' =>
          have habove : Settles v (b :: above'') :=
            hpop.pop fun hnil => absurd hnil (List.cons_ne_nil _ _)
          exact habove.push (fun hnil => absurd hnil (List.cons_ne_nil _ _)) _

def waitResult (v : View) (id : Nat) (timed : Bool) (ret : SchedRet) : WaitResult :=
  if ret ≠ .errNone then .eintr
  else if timed && v.waitTimeout then .eagain
  else .signal (v.sigwt id).info

theorem Inv.finish {v : View} (h : Inv v) {id : Nat} {timed : Bool} {ret : SchedRet}
    {rest : List Shape} (hpend : v.pend = false) (htop : v.shapes = .wait id timed ret :: rest) :
    Inv { v with
      shapes := rest
      sigwait := none
      results := v.results ++ [(id, waitResult v id timed ret)] } := by
  have hids : waitIds v.shapes = id :: waitIds rest := by
    rw [htop, waitIds_cons_wait]
  have hnodup := h.nodup
  rw [hids] at hnodup
  have hresult : ∀ info, (id, info) ∈ v.told → waitResult v id timed ret = .signal (some info) := by
    intro info hmem
    obtain ⟨rfl, -, -, hw⟩ := h.settles [] rest id timed ret htop (List.mem_map_of_mem hmem)
    simp [waitResult, hw, h.kept id info hmem]
  refine ⟨?_, ?_, h.timed, (List.nodup_cons.mp hnodup).2, ?_, ?_, h.once, ?_, ?_, h.kept, ?_, ?_⟩
  · exact fun hp => absurd (hpend.symm.trans hp) (by decide)
  · exact fun hp => absurd (hpend.symm.trans hp) (by decide)
  · intro id' hid
    exact h.fresh id' (by rw [hids]; exact List.mem_cons_of_mem _ hid)
  · intro id' r hr
    rcases List.mem_append.mp hr with hr | hr
    · obtain ⟨hlt, hnot⟩ := h.done id' r hr
      exact ⟨hlt, fun hmem => hnot (by rw [hids]; exact List.mem_cons_of_mem _ hmem)⟩
    · obtain ⟨rfl, -⟩ : id' = id ∧ r = _ := by simpa using hr
      refine ⟨h.fresh id' ?_, (List.nodup_cons.mp hnodup).1⟩
      rw [hids]
      exact List.mem_cons_self
  · intro id' info hmem
    rcases h.inProgress id' info hmem with hin | hdone
    · rw [hids] at hin
      rcases List.mem_cons.mp hin with rfl | hin
      · right
        rw [← hresult info hmem]
        exact List.mem_append_right _ (List.mem_singleton.mpr rfl)
      · exact Or.inl hin
    · exact Or.inr (List.mem_append_left _ hdone)
  · exact fun id' hsome => absurd hsome (by simp)
  · intro above below id' timed' ret' heq hid
    have hrest : rest = above ++ .wait id' timed' ret' :: below := heq
    obtain ⟨hret, hsettles⟩ := h.settles (.wait id timed ret :: above) below id' timed' ret' (by
      rw [htop, hrest]
      rfl) hid
    refine ⟨hret, hsettles.pop ?_⟩
    intro _ hwait
    exact absurd hwait (by simp)
  · intro id' r hr info hmem
    rcases List.mem_append.mp hr with hr | hr
    · exact h.returned id' r hr info hmem
    · obtain ⟨rfl, rfl⟩ : id' = id ∧ r = _ := by simpa using hr
      exact hresult info hmem

theorem Inv.move {v v' : View} (h : Inv v) (hmove : Move v v') : Inv v' := by
  have hready : v.pend = false → v.delay = false := by
    intro hpend
    by_contra hd
    rw [Bool.not_eq_false] at hd
    rw [h.timed hd] at hpend
    exact absurd hpend (by decide)
  cases hmove with
  | stay => exact h
  | hand info hpend htop hwait => exact h.hand info hpend htop hwait
  | overlay hpend hdelay =>
    refine h.push rfl rfl rfl ?_ h.timed ?_
    · exact fun hp => absurd (hpend.symm.trans hp) (by decide)
    · intro _ _ _ hw
      rw [hw]
  | interrupt hpend waitTimeout ret =>
    refine h.push rfl rfl rfl ?_ ?_ ?_
    · exact fun hp => absurd hp (by simp [View.woken])
    · exact fun hd => absurd hd (by simp [View.woken])
    · intro _ hp hd _
      rw [hp, hd] at hpend
      exact absurd hpend (by decide)
  | tick hdelay =>
    refine h.reshape rfl rfl ?_ ?_ ?_ ?_
    · exact fun hp => absurd hp (by simp [View.woken])
    · exact fun hp => absurd hp (by simp [View.woken])
    · exact fun hd => absurd hd (by simp [View.woken])
    · intro above below id timed ret heq hid
      obtain ⟨hret, hsettles⟩ := h.settles above below id timed ret heq hid
      refine ⟨hret, hsettles.congr ?_⟩
      rintro rfl
      rw [hsettles.2.1] at hdelay
      exact absurd hdelay (by decide)
  | call hpend hcall =>
    refine h.push rfl rfl rfl ?_ h.timed ?_
    · exact fun hp => absurd (hpend.symm.trans hp) (by decide)
    · exact fun hc => absurd (hcall.symm.trans hc) (by decide)
  | suspend hpend hcall =>
    refine h.push rfl rfl rfl (fun _ => rfl) (fun _ => rfl) ?_
    exact fun hc => absurd (hcall.symm.trans hc) (by decide)
  | wait hpend hcall sigset timed delay waitTimeout =>
    exact h.wait hcall sigset timed delay waitTimeout
  | atOnce result => exact h.atOnce result
  | leaveContext hpend htop => exact h.leaveContext hpend htop
  | leaveLoop hpend htop =>
    exact h.replace htop rfl (by simp) (Or.inl rfl) rfl hpend (hready hpend)
  | leaveSuspend hpend htop =>
    exact h.replace htop rfl (by simp) (Or.inr ⟨.suspend, rfl, rfl⟩) rfl hpend (hready hpend)
  | resume hpend htop =>
    exact h.replace htop rfl (by simp) (Or.inl rfl) rfl hpend (hready hpend)
  | resumeRun hpend htop =>
    exact h.replace htop rfl (by simp) (Or.inr ⟨.handler none, rfl, rfl⟩) rfl hpend (hready hpend)
  | finish hpend htop => exact h.finish hpend htop

end SylixOS.SignalWait
