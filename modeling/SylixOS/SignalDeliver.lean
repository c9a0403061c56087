import SylixOS.SignalLib
import SylixOS.StepRuns

/-! Blocked signals. What waits behind the mask is a set of kills and a queue for each
signal; the pending set must say which of them are there. The events of a run show that
nothing is taken that was not sent, nothing twice and nothing out of turn. -/

namespace SylixOS.SignalDeliver
open SignalLib StepRuns Function

def sentTo (i : Nat) : Event → Option SigInfo
  | .sent info => if sigindex info.signo = i ∧ info.code ≠ .kill then some info else none
  | .taken _ _ => none

def takenFrom (i : Nat) : Event → Option SigInfo
  | .sent _ => none
  | .taken info _ => if sigindex info.signo = i ∧ info.code ≠ .kill then some info else none

def killOf (i : Nat) : Event → Option Bool
  | .sent info => if sigindex info.signo = i ∧ info.code = .kill then some true else none
  | .taken info _ => if sigindex info.signo = i ∧ info.code = .kill then some false else none

def queued (i : Nat) (events : List Event) : List SigInfo := events.filterMap (sentTo i)

def dequeued (i : Nat) (events : List Event) : List SigInfo :=
  events.filterMap (takenFrom i)

/-- Whether a kill is outstanding after the kills (`true`) and the kill instances taken (`false`);
`none` when an instance was taken without a kill before it. -/
def outstanding : Bool → List Bool → Option Bool
  | b, [] => some b
  | _, true :: es => outstanding true es
  | true, false :: es => outstanding false es
  | false, false :: _ => none

def killed (i : Nat) (events : List Event) : Option Bool :=
  outstanding false (events.filterMap (killOf i))

def isDirect : Frame → Bool
  | .direct _ _ _ => true
  | _ => false

def retSet : List Frame → Option SigSet
  | .direct run sigset _ :: _ => if run.action.exits run.signo then none else some sigset
  | .context run _ _ :: _ =>
    if run.action.exits run.signo then none else some (~~~run.sigsetOld)
  | _ => none

def resumeSet : List Frame → Option SigSet
  | .suspend sigsetOld :: _ => some (~~~(sigsetOld &&& ~~~signoUnmask))
  | _ => none

def getSet (th : Thread) : Act → Option SigSet
  | .pendRun => some (~~~th.ctx.mask)
  | .procmask .unblock sigset => some (~~~(th.ctx.mask &&& ~~~sigset))
  | .procmask .setmask sigset => some (~~~(sigset &&& ~~~signoUnmask))
  | .suspend sigset => some (~~~(sigset &&& ~~~signoUnmask))
  | .wait sigset _ => some sigset
  | .ret => retSet th.stack
  | .resume => resumeSet th.stack
  | _ => none

def below (th : Thread) (a : Act) : List Activation :=
  if a = .ret then (activations th.stack).tail else activations th.stack

def entered : Thread × Act × Thread → Option Activation
  | (th, a, th') =>
    if th'.exited = false ∧ (below th a).length < (activations th'.stack).length then
      (activations th'.stack).head?
    else none

def returnedAtOnce : Thread × Act × Thread → Option SigInfo
  | (th, _, th') =>
    match th'.results.drop th.results.length with
    | [(_, .signal (some info))] => some info
    | _ => none

def found (e : Thread × Act × Thread) : Option SigInfo :=
  match e with
  | (_, .wait _ _, _) => returnedAtOnce e
  | _ => (entered e).map Activation.info

def blocked : Thread × Act × Thread → Option SigInfo
  | (th, .kill signo, _) =>
    if issig signo ∧ (doKill th signo).1 = .block then some ⟨signo, .kill, 1⟩ else none
  | (th, .sigqueue signo value, _) =>
    if issig signo ∧ (doSigQueue th signo value).1 = .block then some ⟨signo, .queue, value⟩
    else none
  | _ => none

def observe (e : Thread × Act × Thread) : List Event :=
  match getSet e.1 e.2.1 with
  | some sigset => ((found e).map fun info => Event.taken info (ready e.1.ctx sigset)).toList
  | none => ((blocked e).map Event.sent).toList

/-- A handler is entered with the information of its own signal, by the action of the thread. -/
def EntersHandler (e : Thread × Act × Thread) : Prop :=
  ∀ run, entered e = some run →
    run.signo = run.info.signo ∧ run.action = e.1.ctx.action (sigindex run.signo)

/-- The state of a thread agrees with what was sent to it while it blocked the signals, and with
the handlers that have been run for it. -/
structure Delivered (h : List (Thread × Act × Thread)) (th : Thread) : Prop where
  /-- A signal is pending exactly when it was killed or has instances in its queue. -/
  synced : ∀ i, th.ctx.pending.getLsbD i = true ↔
    th.ctx.kill.getLsbD i = true ∨ th.ctx.sigQ i ≠ []
  /-- The queued instances are taken once each and in sending order. -/
  fifo : ∀ i, queued i (h.flatMap observe) = dequeued i (h.flatMap observe) ++ th.ctx.sigQ i
  /-- The kills since the last kill instance stand for one instance. -/
  kills : ∀ i, killed i (h.flatMap observe) = some (th.ctx.kill.getLsbD i)
  /-- Of the signals that had something ready, the lowest one is taken. -/
  lowest : ∀ info ready, Event.taken info ready ∈ h.flatMap observe →
    ∀ j ∈ ready, sigindex info.signo ≤ j
  /-- What is taken is run by the handler of its signal. -/
  handlers : ∀ e ∈ h, EntersHandler e
  /-- Outside of the loops that run pending signals, none is left that is not blocked. -/
  idle : (∀ f ∈ th.stack, isDirect f = false) → ∀ i < 64, th.ctx.mask.getLsbD i = false →
    th.ctx.pending.getLsbD i = false ∧ th.ctx.sigQ i = []

/-- The signal that `_sigPendGet` chooses does not have both a kill and queued instances. -/
def UnmixedIn (th : Thread) (sigset : SigSet) : Prop :=
  ∀ i, (sigset &&& th.ctx.pending).getLsbD i = true →
    (∀ j < i, (sigset &&& th.ctx.pending).getLsbD j = false) →
      th.ctx.kill.getLsbD i = true → th.ctx.sigQ i = []

def Unmixed (th : Thread) (a : Act) : Prop :=
  ∀ sigset, getSet th a = some sigset → UnmixedIn th sigset

def waiting (th : Thread) : SigSet × SigSet × (Nat → List SigInfo) × List Event :=
  (th.ctx.pending, th.ctx.kill, th.ctx.sigQ, th.events)

theorem waiting_eq_iff {th th' : Thread} : waiting th' = waiting th ↔
    th'.ctx.pending = th.ctx.pending ∧ th'.ctx.kill = th.ctx.kill ∧ th'.ctx.sigQ = th.ctx.sigQ ∧
      th'.events = th.events := by
  simp [waiting]

def afterTake (th : Thread) (sigset : SigSet) : Thread :=
  match take th sigset with
  | some (_, _, th') => th'
  | none => th

theorem waiting_afterTake_congr {th th' : Thread} (h : waiting th' = waiting th)
    (sigset : SigSet) : waiting (afterTake th' sigset) = waiting (afterTake th sigset) := by
  obtain ⟨hpend, hkill, hq, hevents⟩ := waiting_eq_iff.mp h
  unfold afterTake
  cases htake : take th sigset with
  | none =>
    have hnone : take th' sigset = none := by
      rw [take_eq_none_iff] at htake ⊢
      intro signo info ctx' hgets
      obtain ⟨ctx₂', hgets₂, -⟩ := hgets.congr hpend.symm hkill.symm hq.symm
      exact htake _ _ _ hgets₂
    rw [hnone]
    exact h
  | some taken =>
    obtain ⟨signo, info, th₁⟩ := taken
    obtain ⟨ctx', hgets, rfl⟩ := take_eq_some htake
    obtain ⟨ctx₂', hgets₂, hpend', hkill', hq'⟩ := hgets.congr hpend hkill hq
    rw [hgets₂.take]
    simp only [waiting, tookFrom, hpend', hkill', hq', hevents, ready_congr hkill hq]

theorem waiting_enterPending {th th₂ : Thread} (h : waiting th₂ = waiting th)
    (sigset sigsetOld : SigSet) (after : After) :
    waiting ((enterPending th sigset sigsetOld after).getD th₂) = waiting (afterTake th sigset) := by
  unfold enterPending afterTake
  cases htake : take th sigset with
  | none => exact h
  | some taken => rfl

theorem waiting_setMask (th : Thread) (mask : SigSet) :
    waiting (setMask th mask) = waiting th := rfl

theorem waiting_deliver (th : Thread) (info : SigInfo) :
    waiting (deliver th info) = waiting th := by
  simp [waiting, deliver, sigCtlCreate]

theorem waiting_handOver (th : Thread) (id : Nat) (info : SigInfo) :
    waiting (handOver th id info) = waiting th := by
  simp [waiting, handOver]

theorem waiting_sigPendRun (th : Thread) :
    waiting (sigPendRun th) = waiting (afterTake th (~~~th.ctx.mask)) := by
  unfold sigPendRun afterTake
  cases htake : take th (~~~th.ctx.mask) with
  | none => rfl
  | some taken =>
    simp [waiting, sigCtlCreate]

theorem waiting_loopEnd (th : Thread) (after : After) :
    waiting (loopEnd th after) = waiting th := by
  cases after <;> rfl

theorem waiting_sigtimedwait (th : Thread) (sigset : SigSet) (time : WaitFor) :
    waiting (sigtimedwait th sigset time) = waiting (afterTake th sigset) := by
  unfold sigtimedwait afterTake
  cases htake : take th sigset with
  | none =>
    dsimp only
    split <;> rfl
  | some taken => rfl

def Kept (th th' : Thread) : Prop :=
  ∃ info : SigInfo, issig info.signo ∧ th.ctx.mask.getLsbD (sigindex info.signo) = true ∧
    waiting th' = waiting (blockSignal th ⟨info, .signal, false⟩)

theorem doSignal_kept (th : Thread) {info : SigInfo} (hsig : issig info.signo) :
    Kept th (doSignal th ⟨info, .signal, false⟩).2 ∨
      waiting (doSignal th ⟨info, .signal, false⟩).2 = waiting th := by
  obtain heq | ⟨id, -, heq⟩ | ⟨hmask, heq⟩ | ⟨-, -, heq⟩ :=
    doSignal_cases th ⟨info, .signal, false⟩ hsig
  · right
    rw [heq]
  · right
    rw [heq, waiting_handOver]
  · left
    rw [heq]
    exact ⟨info, hsig, hmask, rfl⟩
  · right
    rw [heq, waiting_deliver]

theorem step_waiting {th th' : Thread} {a : Act} (hstep : step th a = some th') :
    (∃ sigset, getSet th a = some sigset ∧ waiting th' = waiting (afterTake th sigset)) ∨
      getSet th a = none ∧ (Kept th th' ∨ waiting th' = waiting th) := by
  unfold step at hstep
  split at hstep
  · exact absurd hstep (by simp)
  · cases a with
    | kill signo =>
      right
      obtain rfl := Option.some.inj hstep
      by_cases hsig : issig signo
      · rw [if_pos hsig]
        exact ⟨rfl, doSignal_kept th hsig⟩
      · rw [if_neg hsig]
        exact ⟨rfl, Or.inr rfl⟩
    | sigqueue signo value =>
      right
      obtain rfl := Option.some.inj hstep
      by_cases hsig : issig signo
      · rw [if_pos hsig]
        exact ⟨rfl, doSignal_kept th hsig⟩
      · rw [if_neg hsig]
        exact ⟨rfl, Or.inr rfl⟩
    | pendRun =>
      left
      obtain rfl := Option.some.inj hstep
      exact ⟨_, rfl, waiting_sigPendRun th⟩
    | tick =>
      obtain ⟨-, rfl⟩ := by simpa using hstep
      exact Or.inr ⟨rfl, Or.inr rfl⟩
    | exit =>
      obtain rfl := Option.some.inj hstep
      exact Or.inr ⟨rfl, Or.inr rfl⟩
    | procmask cmd sigset =>
      obtain ⟨-, rfl⟩ := by simpa using hstep
      cases cmd with
      | block => exact Or.inr ⟨rfl, Or.inr rfl⟩
      | unblock =>
        left
        refine ⟨_, rfl, ?_⟩
        rw [sigprocmask, waiting_enterPending rfl]
        exact waiting_afterTake_congr (waiting_setMask _ _) _
      | setmask =>
        left
        refine ⟨_, rfl, ?_⟩
        rw [sigprocmask, waiting_enterPending rfl]
        exact waiting_afterTake_congr (waiting_setMask _ _) _
    | suspend sigset =>
      obtain ⟨-, rfl⟩ := by simpa using hstep
      left
      refine ⟨_, rfl, ?_⟩
      refine (waiting_enterPending ?_ _ _ _).trans ?_
      · rfl
      · exact waiting_afterTake_congr (waiting_setMask _ _) _
    | wait sigset time =>
      obtain ⟨-, rfl⟩ := by simpa using hstep
      exact Or.inl ⟨_, rfl, waiting_sigtimedwait th sigset time⟩
    | ret =>
      obtain ⟨-, hret⟩ := by simpa using hstep
      unfold handlerReturns at hret
      split at hret
      · next run sigset after rest hstack =>
        have hget : getSet th .ret =
            if run.action.exits run.signo then none else some sigset := congrArg retSet hstack
        rw [hget]
        split at hret
        · next hexits =>
          obtain rfl := Option.some.inj hret
          rw [if_pos hexits]
          exact Or.inr ⟨rfl, Or.inr rfl⟩
        · next hexits =>
          obtain rfl := Option.some.inj hret
          rw [if_neg hexits]
          left
          refine ⟨_, rfl, ?_⟩
          refine (waiting_enterPending (waiting_loopEnd _ _) _ _ _).trans ?_
          apply waiting_afterTake_congr
          rfl
      · next run schedRet waitTimeout rest hstack =>
        have hget : getSet th .ret =
            if run.action.exits run.signo then none else some (~~~run.sigsetOld) :=
          congrArg retSet hstack
        rw [hget]
        split at hret
        · next hexits =>
          obtain rfl := Option.some.inj hret
          rw [if_pos hexits]
          exact Or.inr ⟨rfl, Or.inr rfl⟩
        · next hexits =>
          obtain rfl := Option.some.inj hret
          rw [if_neg hexits]
          left
          refine ⟨_, rfl, ?_⟩
          refine (waiting_enterPending ?_ _ _ _).trans ?_
          · rfl
          · apply waiting_afterTake_congr
            rfl
      · exact absurd hret (by simp)
    | resume =>
      obtain ⟨-, hres⟩ := by simpa using hstep
      unfold SignalLib.resume at hres
      split at hres
      · next sigsetOld rest hstack =>
        have hget : getSet th .resume = some (~~~(sigsetOld &&& ~~~signoUnmask)) :=
          congrArg resumeSet hstack
        rw [hget]
        obtain rfl := Option.some.inj hres
        left
        refine ⟨_, rfl, ?_⟩
        refine (waiting_enterPending ?_ _ _ _).trans ?_
        · rfl
        · apply waiting_afterTake_congr
          rfl
      · next id timed schedRet rest hstack =>
        have hget : getSet th .resume = none := congrArg resumeSet hstack
        obtain rfl := Option.some.inj hres
        exact Or.inr ⟨hget, Or.inr rfl⟩
      · exact absurd hres (by simp)

structure Queued (th : Thread) : Prop where
  synced : ∀ i, th.ctx.pending.getLsbD i = true ↔
    th.ctx.kill.getLsbD i = true ∨ th.ctx.sigQ i ≠ []
  fifo : ∀ i, queued i th.events = dequeued i th.events ++ th.ctx.sigQ i
  kills : ∀ i, killed i th.events = some (th.ctx.kill.getLsbD i)
  lowest : ∀ info ready, Event.taken info ready ∈ th.events → ∀ j ∈ ready, sigindex info.signo ≤ j
  own : ∀ i, ∀ info ∈ th.ctx.sigQ i, info.signo = i + 1 ∧ info.code ≠ .kill

theorem Queued.congr {th th' : Thread} (h : Queued th) (heq : waiting th' = waiting th) :
    Queued th' := by
  obtain ⟨hpend, hkill, hq, hevents⟩ := waiting_eq_iff.mp heq
  refine ⟨?_, ?_, ?_, ?_, ?_⟩
  · rw [hpend, hkill, hq]
    exact h.synced
  · rw [hq, hevents]
    exact h.fifo
  · rw [hkill, hevents]
    exact h.kills
  · rw [hevents]
    exact h.lowest
  · rw [hq]
    exact h.own

theorem outstanding_append (b : Bool) (es : List Bool) (e : Bool) :
    outstanding b (es ++ [e]) = (outstanding b es).bind fun b' => outstanding b' [e] := by
  induction es generalizing b with
  | nil => rfl
  | cons e' es ih => cases b <;> cases e' <;> simp [outstanding, ih]

theorem queued_append (i : Nat) (events : List Event) (e : Event) :
    queued i (events ++ [e]) = queued i events ++ (sentTo i e).toList := by
  simp only [queued, List.filterMap_append]
  cases h : sentTo i e <;> simp [h]

theorem dequeued_append (i : Nat) (events : List Event) (e : Event) :
    dequeued i (events ++ [e]) = dequeued i events ++ (takenFrom i e).toList := by
  simp only [dequeued, List.filterMap_append]
  cases h : takenFrom i e <;> simp [h]

theorem killed_append (i : Nat) (events : List Event) (e : Event) {b : Bool}
    (h : killed i events = some b) :
    killed i (events ++ [e]) = outstanding b (killOf i e).toList := by
  unfold killed at h ⊢
  rw [List.filterMap_append]
  cases he : killOf i e with
  | none => simpa [he, outstanding] using h
  | some k => simp [he, outstanding_append, h]

theorem Queued.sendKill {th : Thread} (h : Queued th) {info : SigInfo} (hsig : issig info.signo)
    (hcode : info.code = .kill) : Queued (blockSignal th ⟨info, .signal, false⟩) := by
  have hlt : info.signo - 1 < 64 := by
    have := hsig.2
    omega
  have hkept : blockSignal th ⟨info, .signal, false⟩ =
      { th with
        ctx := { th.ctx with
          kill := th.ctx.kill ||| sigmask info.signo
          pending := th.ctx.pending ||| sigmask info.signo }
        events := th.events ++ [.sent info] } := by
    simp [blockSignal, hcode]
  rw [hkept]
  refine ⟨?_, ?_, ?_, ?_, h.own⟩
  · intro i
    simp only [BitVec.getLsbD_or, getLsbD_sigmask hlt, Bool.or_eq_true, h.synced i]
    tauto
  · intro i
    simp [queued_append, dequeued_append, sentTo, takenFrom, hcode, h.fifo i]
  · intro i
    simp only [BitVec.getLsbD_or, getLsbD_sigmask hlt]
    rw [killed_append i _ _ (h.kills i)]
    by_cases hi : i = sigindex info.signo
    · cases hb : th.ctx.kill.getLsbD i <;> simp [killOf, hcode, hi, outstanding]
    · simp [killOf, Ne.symm hi, hi, outstanding]
  · intro info' ready hmem
    simp only [List.mem_append, List.mem_singleton, reduceCtorEq, or_false] at hmem
    exact h.lowest info' ready hmem

theorem Queued.sendQueue {th : Thread} (h : Queued th) {info : SigInfo} (hsig : issig info.signo)
    (hcode : info.code ≠ .kill) : Queued (blockSignal th ⟨info, .signal, false⟩) := by
  have hlt : info.signo - 1 < 64 := by
    have := hsig.2
    omega
  have hkept : blockSignal th ⟨info, .signal, false⟩ =
      { th with
        ctx := { th.ctx with
          sigQ := update th.ctx.sigQ (sigindex info.signo)
            (th.ctx.sigQ (sigindex info.signo) ++ [info])
          pending := th.ctx.pending ||| sigmask info.signo }
        events := th.events ++ [.sent info] } := by
    simp [blockSignal, hcode]
  rw [hkept]
  refine ⟨?_, ?_, ?_, ?_, ?_⟩
  · intro i
    simp only [BitVec.getLsbD_or, getLsbD_sigmask hlt, Bool.or_eq_true, h.synced i]
    by_cases hi : i = sigindex info.signo
    · simp [hi]
    · simp [hi]
  · intro i
    by_cases hi : i = sigindex info.signo
    · simp [queued_append, dequeued_append, sentTo, takenFrom, hcode, hi, h.fifo]
    · simp [queued_append, dequeued_append, sentTo, takenFrom, Ne.symm hi, hi, h.fifo i]
  · intro i
    rw [killed_append i _ _ (h.kills i)]
    simp [killOf, hcode, outstanding]
  · intro info' ready hmem
    simp only [List.mem_append, List.mem_singleton, reduceCtorEq, or_false] at hmem
    exact h.lowest info' ready hmem
  · intro i info' hmem
    by_cases hi : i = sigindex info.signo
    · subst hi
      simp only [update_self, List.mem_append, List.mem_singleton] at hmem
      rcases hmem with hmem | rfl
      · exact h.own _ info' hmem
      · have hpos := hsig.1
        refine ⟨?_, hcode⟩
        unfold sigindex
        omega
    · simp only [update_of_ne hi] at hmem
      exact h.own i info' hmem

theorem Queued.ready_pending {th : Thread} (h : Queued th) {sigset : SigSet} {j : Nat}
    (hj : j ∈ ready th.ctx sigset) : (sigset &&& th.ctx.pending).getLsbD j = true := by
  simp only [ready, List.mem_filter, Bool.and_eq_true, Bool.or_eq_true, Bool.not_eq_true',
    List.isEmpty_eq_false_iff] at hj
  rw [BitVec.getLsbD_and, Bool.and_eq_true]
  exact ⟨hj.2.1, (h.synced j).mpr hj.2.2⟩

theorem Queued.take_none {th : Thread} (h : Queued th) {sigset : SigSet}
    (hnone : take th sigset = none) {i : Nat} (hi : sigset.getLsbD i = true) :
    th.ctx.pending.getLsbD i = false := by
  obtain ⟨-, hzero | ⟨k, hbit, hkill, hnull⟩⟩ | ⟨signo, info, ctx', hgets⟩ :=
    sigPendGet_cases th.ctx sigset
  · have hbit := congrArg (fun s => s.getLsbD i) hzero
    simpa [hi] using hbit
  · rw [BitVec.getLsbD_and, Bool.and_eq_true, h.synced k, hkill, hnull] at hbit
    simp at hbit
  · exact absurd hgets (take_eq_none_iff.mp hnone _ _ _)

theorem getLsbD_clear {s : SigSet} {i : Nat} (hi : i < 64) (j : Nat) :
    (s &&& ~~~sigmask (i + 1)).getLsbD j = true ↔ s.getLsbD j = true ∧ j ≠ i := by
  rw [BitVec.getLsbD_and, BitVec.getLsbD_not, getLsbD_sigmask_succ hi]
  constructor
  · intro h
    simp only [Bool.and_eq_true, decide_eq_true_eq, Bool.not_eq_true', decide_eq_false_iff_not] at h
    exact ⟨h.1, h.2.2⟩
  · rintro ⟨hbit, hne⟩
    simp [hbit, hne, BitVec.lt_of_getLsbD hbit]

theorem Queued.afterTake {th : Thread} (h : Queued th) {sigset : SigSet}
    (hunmixed : UnmixedIn th sigset) : Queued (SignalDeliver.afterTake th sigset) := by
  unfold SignalDeliver.afterTake
  cases htake : take th sigset with
  | none => exact h
  | some taken =>
    obtain ⟨signo, info, th₁⟩ := taken
    obtain ⟨ctx', hgets, rfl⟩ := take_eq_some htake
    have hready : ∀ {i : Nat}, (∀ j < i, (sigset &&& th.ctx.pending).getLsbD j = false) →
        ∀ j ∈ ready th.ctx sigset, i ≤ j := by
      intro i hlow j hj
      by_contra hlt
      have hbit := h.ready_pending hj
      rw [hlow j (by omega)] at hbit
      exact absurd hbit (by decide)
    cases hgets with
    | kill hbit hlow hkill =>
      next i =>
      have hi : i < 64 := BitVec.lt_of_getLsbD hbit
      have hempty := hunmixed i hbit hlow hkill
      refine ⟨?_, ?_, ?_, ?_, h.own⟩
      · intro j
        show (th.ctx.pending &&& _).getLsbD j = true ↔ (th.ctx.kill &&& _).getLsbD j = true ∨ _
        rw [getLsbD_clear hi, getLsbD_clear hi, h.synced j]
        by_cases hj : j = i
        · simp [hj, tookFrom, hempty]
        · simp [hj, tookFrom]
      · intro j
        simp [tookFrom, queued_append, dequeued_append, sentTo, takenFrom, h.fifo j]
      · intro j
        have hclear : (th.ctx.kill &&& ~~~sigmask (i + 1)).getLsbD j =
            (th.ctx.kill.getLsbD j && decide (j ≠ i)) := by
          rw [Bool.eq_iff_iff, getLsbD_clear hi]
          simp
        show killed j (th.events ++ _) = some ((th.ctx.kill &&& _).getLsbD j)
        rw [killed_append j _ _ (h.kills j), hclear]
        by_cases hj : j = i
        · simp [killOf, sigindex, hj, hkill, outstanding]
        · simp [killOf, sigindex, Ne.symm hj, hj, outstanding]
      · intro info' r hmem
        rcases List.mem_append.mp hmem with hmem | hmem
        · exact h.lowest info' r hmem
        · obtain ⟨rfl, rfl⟩ : info' = _ ∧ r = _ := by simpa using hmem
          exact hready hlow
    | queue hbit hlow hkill hqueue =>
      next i rest =>
      have hi : i < 64 := BitVec.lt_of_getLsbD hbit
      obtain ⟨hsigno, hcode⟩ := h.own i info (by rw [hqueue]; exact List.mem_cons_self)
      have hindex : sigindex info.signo = i := by simp [sigindex, hsigno]
      refine ⟨?_, ?_, ?_, ?_, ?_⟩
      · intro j
        show (if rest = [] then _ else _ : SigSet).getLsbD j = true ↔
          th.ctx.kill.getLsbD j = true ∨ update th.ctx.sigQ i rest j ≠ []
        by_cases hj : j = i
        · subst hj
          have hpend : th.ctx.pending.getLsbD j = true := by
            rw [BitVec.getLsbD_and, Bool.and_eq_true] at hbit
            exact hbit.2
          by_cases hrest : rest = []
          · rw [if_pos hrest, getLsbD_clear hi]
            simp [hkill, hrest]
          · rw [if_neg hrest]
            simp [hpend, hrest]
        · rw [update_of_ne hj, ← h.synced j]
          split
          · rw [getLsbD_clear hi]
            simp [hj]
          · rfl
      · intro j
        show queued j (th.events ++ _) = dequeued j (th.events ++ _) ++
          update th.ctx.sigQ i rest j
        by_cases hj : j = i
        · subst hj
          simp [queued_append, dequeued_append, sentTo, takenFrom, hindex, hcode, h.fifo, hqueue]
        · have hne : ¬ i = j := fun e => hj e.symm
          simp [queued_append, dequeued_append, sentTo, takenFrom, hindex, hj, hne, h.fifo j]
      · intro j
        show killed j (th.events ++ _) = some (th.ctx.kill.getLsbD j)
        rw [killed_append j _ _ (h.kills j)]
        simp [killOf, hcode, outstanding]
      · intro info' r hmem
        rcases List.mem_append.mp hmem with hmem | hmem
        · exact h.lowest info' r hmem
        · obtain ⟨rfl, rfl⟩ : info' = _ ∧ r = _ := by simpa using hmem
          rw [hindex]
          exact hready hlow
      · intro j info' hmem
        by_cases hj : j = i
        · subst hj
          have hmem' : info' ∈ rest := by simpa [tookFrom] using hmem
          exact h.own j info' (by rw [hqueue]; exact List.mem_cons_of_mem _ hmem')
        · have hmem' : info' ∈ th.ctx.sigQ j := by simpa [tookFrom, hj] using hmem
          exact h.own j info' hmem'

theorem Queued.step {th th' : Thread} {a : Act} (h : Queued th) (hunmixed : Unmixed th a)
    (hstep : SignalLib.step th a = some th') : Queued th' := by
  obtain ⟨sigset, hget, heq⟩ | ⟨-, ⟨info, hsig, -, heq⟩ | heq⟩ := step_waiting hstep
  · exact (h.afterTake (hunmixed sigset hget)).congr heq
  · by_cases hcode : info.code = .kill
    · exact (h.sendKill hsig hcode).congr heq
    · exact (h.sendQueue hsig hcode).congr heq
  · exact h.congr heq

structure Settled (mask pending : SigSet) (stack : List Frame) : Prop where
  idle : (∀ f ∈ stack, isDirect f = false) → ∀ i < 64, mask.getLsbD i = false →
    pending.getLsbD i = false
  looped : ∀ run sigset after, Frame.direct run sigset after ∈ stack → sigset = ~~~run.sigsetOld

variable {mask mask' pending pending' : SigSet} {stack : List Frame}

theorem Settled.mono (h : Settled mask pending stack)
    (hmask : ∀ i, mask.getLsbD i = true → mask'.getLsbD i = true)
    (hpend : ∀ i, pending'.getLsbD i = true →
      pending.getLsbD i = true ∨ mask'.getLsbD i = true) :
    Settled mask' pending' stack := by
  refine ⟨?_, h.looped⟩
  intro hnone i hi hopen
  by_contra hbit
  rw [Bool.not_eq_false] at hbit
  rcases hpend i hbit with hold | hnew
  · have hclosed : mask.getLsbD i = false := by
      by_contra hset
      rw [Bool.not_eq_false] at hset
      rw [hmask i hset] at hopen
      exact absurd hopen (by decide)
    rw [h.idle hnone i hi hclosed] at hold
    exact absurd hold (by decide)
  · rw [hnew] at hopen
    exact absurd hopen (by decide)

theorem settled_cons_iff {f : Frame} (hf : isDirect f = false) :
    Settled mask pending (f :: stack) ↔ Settled mask pending stack := by
  have hmem : ∀ run sigset after, Frame.direct run sigset after ∈ f :: stack ↔
      Frame.direct run sigset after ∈ stack := by
    intro run sigset after
    rw [List.mem_cons, or_iff_right]
    rintro rfl
    exact absurd hf (by simp [isDirect])
  constructor
  · intro h
    exact ⟨fun hnone => h.idle (List.forall_mem_cons.mpr ⟨hf, hnone⟩),
      fun run sigset after hr => h.looped run sigset after ((hmem run sigset after).mpr hr)⟩
  · intro h
    exact ⟨fun hnone => h.idle (List.forall_mem_cons.mp hnone).2,
      fun run sigset after hr => h.looped run sigset after ((hmem run sigset after).mp hr)⟩

def Looped (stack : List Frame) : Prop :=
  ∀ run sigset after, Frame.direct run sigset after ∈ stack → sigset = ~~~run.sigsetOld

theorem Looped.free (h : Looped stack) (sigset : SigSet) :
    Looped (stack.map (Frame.free sigset)) := by
  intro r s after hr
  obtain ⟨f, hmem, hf⟩ := List.mem_map.mp hr
  cases f with
  | direct run sigset' after' =>
    simp only [Frame.free, Frame.direct.injEq] at hf
    obtain ⟨rfl, rfl, rfl⟩ := hf
    exact h run sigset' after' hmem
  | context run schedRet waitTimeout => simp [Frame.free] at hf
  | suspend sigsetOld => simp [Frame.free] at hf
  | wait id timed schedRet => simp [Frame.free] at hf

theorem settled_enterPending {th th₂ : Thread} (h : Queued th) (hstack : Looped th.stack)
    (hstack₂ : Looped th₂.stack) (hmask : th₂.ctx.mask = th.ctx.mask)
    (hpend : th₂.ctx.pending = th.ctx.pending) (after : After) :
    Settled ((enterPending th (~~~th.ctx.mask) th.ctx.mask after).getD th₂).ctx.mask
      ((enterPending th (~~~th.ctx.mask) th.ctx.mask after).getD th₂).ctx.pending
      ((enterPending th (~~~th.ctx.mask) th.ctx.mask after).getD th₂).stack := by
  unfold enterPending
  cases htake : take th (~~~th.ctx.mask) with
  | none =>
    refine ⟨?_, hstack₂⟩
    intro _ i hi hopen
    have hset : (~~~th.ctx.mask).getLsbD i = true := by
      have hopen' : th.ctx.mask.getLsbD i = false := hmask ▸ hopen
      rw [BitVec.getLsbD_not, hopen']
      simp [hi]
    exact (congrArg (fun s => s.getLsbD i) hpend).trans (h.take_none htake hset)
  | some taken =>
    obtain ⟨signo, info, th₁⟩ := taken
    obtain ⟨ctx', hgets, rfl⟩ := take_eq_some htake
    refine ⟨?_, ?_⟩
    · intro hnone
      exact absurd (hnone _ List.mem_cons_self) (by simp [isDirect])
    · intro run sigset after' hr
      rcases List.mem_cons.mp hr with heq | hr
      · simp only [Frame.direct.injEq] at heq
        obtain ⟨rfl, rfl, rfl⟩ := heq
        rfl
      · exact hstack run sigset after' hr

theorem Settled.looped_stack (h : Settled mask pending stack) : Looped stack := h.looped

theorem Looped.tail {f : Frame} (h : Looped (f :: stack)) : Looped stack :=
  fun run sigset after hr => h run sigset after (List.mem_cons_of_mem _ hr)

theorem Looped.cons {f : Frame} (h : Looped stack) (hf : isDirect f = false) :
    Looped (f :: stack) := by
  intro run sigset after hr
  rcases List.mem_cons.mp hr with rfl | hr
  · exact absurd hf (by simp [isDirect])
  · exact h run sigset after hr

theorem Looped.leaveContext {th : Thread} (h : Looped th.stack) (schedRet : SchedRet)
    (waitTimeout : Bool) : Looped (SignalLib.leaveContext th schedRet waitTimeout).stack := by
  obtain hsame | ⟨id, timed, old, new, rest, hstack, hnew⟩ := schedSetRet_cases schedRet th.stack
  · show Looped (schedSetRet schedRet th.stack)
    rwa [hsame]
  · rw [hstack] at h
    show Looped (schedSetRet schedRet th.stack)
    rw [hnew]
    exact h.tail.cons rfl

theorem Looped.loopEnd {th : Thread} (h : Looped th.stack) (after : After) :
    Looped (SignalLib.loopEnd th after).stack := by
  cases after with
  | procmask => exact h
  | suspend sigsetOld => exact h.cons rfl
  | sigReturn schedRet waitTimeout => exact h.leaveContext schedRet waitTimeout

theorem loopEnd_ctx (th : Thread) (after : After) : (SignalLib.loopEnd th after).ctx = th.ctx := by
  cases after <;> rfl

section Steps

variable {th th' : Thread}

theorem settled_doSignal (h : Settled th.ctx.mask th.ctx.pending th.stack) {info : SigInfo}
    (hsig : issig info.signo) :
    Settled (doSignal th ⟨info, .signal, false⟩).2.ctx.mask
      (doSignal th ⟨info, .signal, false⟩).2.ctx.pending
      (doSignal th ⟨info, .signal, false⟩).2.stack := by
  have hlt : info.signo - 1 < 64 := by
    have := hsig.2
    omega
  obtain heq | ⟨id, -, heq⟩ | ⟨hmask, heq⟩ | ⟨-, -, heq⟩ :=
    doSignal_cases th ⟨info, .signal, false⟩ hsig
  · rw [heq]
    exact h
  · rw [heq]
    simpa [handOver] using h
  · rw [heq]
    have hpend : ∀ i, (th.ctx.pending ||| sigmask info.signo).getLsbD i = true →
        th.ctx.pending.getLsbD i = true ∨ th.ctx.mask.getLsbD i = true := by
      intro i hi
      rw [BitVec.getLsbD_or, Bool.or_eq_true, getLsbD_sigmask hlt, decide_eq_true_eq] at hi
      rcases hi with hold | rfl
      · exact Or.inl hold
      · exact Or.inr hmask
    by_cases hcode : info.code = .kill
    · simp only [blockSignal, hcode, if_true]
      exact h.mono (fun _ hi => hi) hpend
    · simp only [blockSignal, hcode, if_false]
      exact h.mono (fun _ hi => hi) hpend
  · rw [heq]
    have hle : ∀ i, th.ctx.mask.getLsbD i = true →
        ((th.ctx.action (sigindex info.signo)).extend info.signo th.ctx.mask).getLsbD i = true := by
      intro i hi
      unfold SigAction.extend
      split <;> simp [hi]
    simp only [deliver, sigCtlCreate, sigMakeReady_ctx, sigMakeReady_stack]
    exact (settled_cons_iff rfl).mpr (h.mono hle fun _ hi => Or.inl hi)

theorem Gets.pending_le {ctx ctx' : SigCtx} {sigset : SigSet} {signo : Nat} {info : SigInfo}
    (h : Gets ctx sigset signo info ctx') {i : Nat} (hi : ctx'.pending.getLsbD i = true) :
    ctx.pending.getLsbD i = true := by
  cases h with
  | kill hbit hlow hkill =>
    exact ((getLsbD_clear (BitVec.lt_of_getLsbD hbit) i).mp hi).1
  | queue hbit hlow hkill hqueue =>
    dsimp only at hi
    split at hi
    · exact ((getLsbD_clear (BitVec.lt_of_getLsbD hbit) i).mp hi).1
    · exact hi

theorem settled_sigPendRun (h : Settled th.ctx.mask th.ctx.pending th.stack) :
    Settled (sigPendRun th).ctx.mask (sigPendRun th).ctx.pending (sigPendRun th).stack := by
  unfold sigPendRun
  cases htake : take th (~~~th.ctx.mask) with
  | none => exact h
  | some taken =>
    obtain ⟨signo, info, th₁⟩ := taken
    obtain ⟨ctx', hgets, rfl⟩ := take_eq_some htake
    simp only [sigCtlCreate, sigMakeReady_ctx, sigMakeReady_stack, tookFrom, hgets.frame.1]
    exact (settled_cons_iff rfl).mpr (h.mono (fun _ hi => hi) fun _ hi => Or.inl (Gets.pending_le hgets hi))

theorem settled_sigtimedwait (h : Settled th.ctx.mask th.ctx.pending th.stack) (sigset : SigSet)
    (time : WaitFor) : Settled (sigtimedwait th sigset time).ctx.mask
      (sigtimedwait th sigset time).ctx.pending (sigtimedwait th sigset time).stack := by
  unfold sigtimedwait
  cases htake : take th sigset with
  | some taken =>
    obtain ⟨signo, info, th₁⟩ := taken
    obtain ⟨ctx', hgets, rfl⟩ := take_eq_some htake
    simp only [returnAtOnce, tookFrom, hgets.frame.1]
    exact h.mono (fun _ hi => hi) fun _ hi => Or.inl (Gets.pending_le hgets hi)
  | none =>
    dsimp only
    split
    · exact h
    · exact (settled_cons_iff rfl).mpr h

theorem settled_sigprocmask (hq : Queued th) (h : Settled th.ctx.mask th.ctx.pending th.stack)
    (cmd : MaskCmd) (sigset : SigSet) : Settled (sigprocmask th cmd sigset).ctx.mask
      (sigprocmask th cmd sigset).ctx.pending (sigprocmask th cmd sigset).stack := by
  have hset : ∀ mask, Queued (setMask th mask) := fun mask => hq.congr rfl
  have hloop : ∀ mask, Looped (setMask th mask).stack := fun mask => h.looped_stack.free _
  cases cmd with
  | block =>
    have hle : ∀ i, th.ctx.mask.getLsbD i = true →
        (th.ctx.mask ||| (sigset &&& ~~~signoUnmask)).getLsbD i = true := by
      intro i hi
      simp [hi]
    refine ⟨?_, hloop _⟩
    intro hnone i hi hopen
    have hstack : ∀ f ∈ th.stack, isDirect f = false := by
      intro f hf
      have hfree := hnone (f.free _) (List.mem_map_of_mem hf)
      cases f <;> exact hfree
    have hmono : Settled (th.ctx.mask ||| (sigset &&& ~~~signoUnmask)) th.ctx.pending th.stack :=
      h.mono hle fun _ hbit => Or.inl hbit
    exact hmono.idle hstack i hi hopen
  | unblock => exact settled_enterPending (hset _) (hloop _) (hloop _) rfl rfl _
  | setmask => exact settled_enterPending (hset _) (hloop _) (hloop _) rfl rfl _

theorem settled_handlerReturns (hq : Queued th) (h : Settled th.ctx.mask th.ctx.pending th.stack)
    (hret : handlerReturns th = some th') : Settled th'.ctx.mask th'.ctx.pending th'.stack := by
  unfold handlerReturns at hret
  split at hret
  · next run sigset after rest hstack =>
    have hloop : Looped (.direct run sigset after :: rest) := hstack ▸ h.looped_stack
    split at hret
    · obtain rfl := Option.some.inj hret
      exact h
    · obtain rfl := Option.some.inj hret
      rw [hloop run sigset after List.mem_cons_self]
      apply @settled_enterPending { th with
        stack := rest, ctx := { th.ctx with mask := run.sigsetOld } } _ (hq.congr rfl) hloop.tail
      · exact @Looped.loopEnd { th with
          stack := rest, ctx := { th.ctx with mask := run.sigsetOld } } hloop.tail after
      · rw [loopEnd_ctx]
      · rw [loopEnd_ctx]
  · next run schedRet waitTimeout rest hstack =>
    have hloop : Looped (.context run schedRet waitTimeout :: rest) := hstack ▸ h.looped_stack
    split at hret
    · obtain rfl := Option.some.inj hret
      exact h
    · obtain rfl := Option.some.inj hret
      apply @settled_enterPending { th with
        stack := rest, ctx := { th.ctx with mask := run.sigsetOld } } _ (hq.congr rfl) hloop.tail
      · exact @Looped.leaveContext { th with
          stack := rest, ctx := { th.ctx with mask := run.sigsetOld } } hloop.tail schedRet
          waitTimeout
      · rfl
      · rfl
  · exact absurd hret (by simp)

theorem settled_resume (hq : Queued th) (h : Settled th.ctx.mask th.ctx.pending th.stack)
    (hres : SignalLib.resume th = some th') : Settled th'.ctx.mask th'.ctx.pending th'.stack := by
  unfold SignalLib.resume at hres
  split at hres
  · next sigsetOld rest hstack =>
    obtain rfl := Option.some.inj hres
    rw [hstack, settled_cons_iff rfl] at h
    exact @settled_sigprocmask { th with stack := rest } (hq.congr rfl) h _ _
  · next id timed schedRet rest hstack =>
    obtain rfl := Option.some.inj hres
    rw [hstack, settled_cons_iff rfl] at h
    exact h
  · exact absurd hres (by simp)

theorem settled_step {a : Act} (hq : Queued th) (h : Settled th.ctx.mask th.ctx.pending th.stack)
    (hstep : step th a = some th') : Settled th'.ctx.mask th'.ctx.pending th'.stack := by
  unfold step at hstep
  split at hstep
  · exact absurd hstep (by simp)
  · cases a with
    | kill signo =>
      obtain rfl := Option.some.inj hstep
      by_cases hsig : issig signo
      · rw [if_pos hsig]
        exact settled_doSignal h hsig
      · rw [if_neg hsig]
        exact h
    | sigqueue signo value =>
      obtain rfl := Option.some.inj hstep
      by_cases hsig : issig signo
      · rw [if_pos hsig]
        exact settled_doSignal h hsig
      · rw [if_neg hsig]
        exact h
    | pendRun =>
      obtain rfl := Option.some.inj hstep
      exact settled_sigPendRun h
    | tick =>
      obtain ⟨-, rfl⟩ := by simpa using hstep
      exact h
    | exit =>
      obtain rfl := Option.some.inj hstep
      exact h
    | procmask cmd sigset =>
      obtain ⟨-, rfl⟩ := by simpa using hstep
      exact settled_sigprocmask hq h cmd sigset
    | suspend sigset =>
      obtain ⟨-, rfl⟩ := by simpa using hstep
      have hloop : Looped (setMask th (sigset &&& ~~~signoUnmask)).stack :=
        h.looped_stack.free _
      apply @settled_enterPending (setMask th (sigset &&& ~~~signoUnmask)) _ (hq.congr rfl) hloop
      · exact hloop.cons rfl
      · rfl
      · rfl
    | wait sigset time =>
      obtain ⟨-, rfl⟩ := by simpa using hstep
      exact settled_sigtimedwait h sigset time
    | ret =>
      obtain ⟨-, hret⟩ := by simpa using hstep
      exact settled_handlerReturns hq h hret
    | resume =>
      obtain ⟨-, hres⟩ := by simpa using hstep
      exact settled_resume hq h hres

end Steps

end SylixOS.SignalDeliver
