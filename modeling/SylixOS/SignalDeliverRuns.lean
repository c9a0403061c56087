import SylixOS.SignalDeliver

/-! What a step shows is what it did: the instance that it takes is run by the
handler that it enters, or returned by the wait, and the instance that it keeps
is the one whose sender is told so. -/

namespace SylixOS.SignalDeliver
open SignalLib StepRuns Function

theorem Queued.signo_eq {th : Thread} (h : Queued th) {sigset : SigSet} {signo : Nat}
    {info : SigInfo} {ctx' : SigCtx} (hgets : Gets th.ctx sigset signo info ctx') :
    signo = info.signo := by
  cases hgets with
  | kill => rfl
  | queue hbit hlow hkill hqueue =>
    exact ((h.own _ info (by rw [hqueue]; exact List.mem_cons_self)).1).symm

theorem observe_get {e : Thread × Act × Thread} {sigset : SigSet}
    (hget : getSet e.1 e.2.1 = some sigset) :
    observe e = ((found e).map fun info => Event.taken info (ready e.1.ctx sigset)).toList := by
  unfold observe
  rw [hget]

theorem observe_send {e : Thread × Act × Thread} (hget : getSet e.1 e.2.1 = none) :
    observe e = ((blocked e).map Event.sent).toList := by
  unfold observe
  rw [hget]

theorem entered_push {th th' : Thread} {a : Act} {run : Activation} {rest : List Activation}
    (hexit : th'.exited = false) (hstack : activations th'.stack = run :: rest)
    (hlen : rest.length = (below th a).length) : entered (th, a, th') = some run := by
  have hlt : (below th a).length < (activations th'.stack).length := by
    rw [hstack, List.length_cons, hlen]
    exact Nat.lt_succ_self _
  have hhead : (activations th'.stack).head? = some run := by rw [hstack, List.head?_cons]
  exact (if_pos ⟨hexit, hlt⟩).trans hhead

theorem entered_none {th th' : Thread} {a : Act}
    (hlen : (activations th'.stack).length ≤ (below th a).length) :
    entered (th, a, th') = none := by
  exact if_neg fun h => absurd h.2 (Nat.not_lt.mpr hlen)

theorem entersHandler_none {th th' : Thread} {a : Act} (h : entered (th, a, th') = none) :
    EntersHandler (th, a, th') := by
  intro run hrun
  rw [h] at hrun
  cases hrun

theorem length_activations_free (stack : List Frame) (sigset : SigSet) :
    (activations (stack.map (Frame.free sigset))).length = (activations stack).length := by
  have hrun : ∀ f : Frame, (f.free sigset).run? = f.run?.map (Activation.free sigset) := by
    intro f
    cases f <;> rfl
  induction stack with
  | nil => rfl
  | cons f rest ih =>
    unfold activations at ih ⊢
    rw [List.map_cons, List.filterMap_cons, List.filterMap_cons, hrun]
    cases f.run? with
    | none => exact ih
    | some run => exact congrArg Nat.succ ih

theorem activations_schedSetRet (ret : SchedRet) (stack : List Frame) :
    activations (schedSetRet ret stack) = activations stack := by
  obtain hsame | ⟨id, timed, old, new, rest, hstack, hnew⟩ := schedSetRet_cases ret stack
  · rw [hsame]
  · rw [hnew, hstack]
    rfl

theorem activations_loopEnd (th : Thread) (after : After) :
    activations (SignalLib.loopEnd th after).stack = activations th.stack := by
  cases after with
  | procmask => rfl
  | suspend sigsetOld => rfl
  | sigReturn schedRet waitTimeout => exact activations_schedSetRet schedRet th.stack

def Shown (th : Thread) (a : Act) (th' : Thread) : Prop :=
  th'.events = th.events ++ observe (th, a, th') ∧ EntersHandler (th, a, th')

theorem enterPending_cases (th : Thread) (sigset sigsetOld : SigSet) (after : After) :
    enterPending th sigset sigsetOld after = none ∨
    ∃ signo info ctx' th', Gets th.ctx sigset signo info ctx' ∧
      enterPending th sigset sigsetOld after = some th' ∧
      activations th'.stack =
        ⟨signo, info, th.ctx.action (sigindex signo), sigsetOld, 0#64⟩ :: activations th.stack ∧
      th'.exited = th.exited ∧
      th'.events = th.events ++ [.taken info (ready th.ctx sigset)] := by
  unfold enterPending
  cases htake : take th sigset with
  | none => exact Or.inl rfl
  | some taken =>
    obtain ⟨signo, info, th₁⟩ := taken
    obtain ⟨ctx', hgets, rfl⟩ := take_eq_some htake
    refine Or.inr ⟨signo, info, ctx', _, hgets, rfl, ?_, rfl, rfl⟩
    rw [← hgets.frame.2.1]
    rfl

theorem shown_enterPending {th th₁ th₂ : Thread} {a : Act} {sigset sigsetOld : SigSet}
    {after : After} (hq : Queued th) (hget : getSet th a = some sigset)
    (hfound : ∀ th', found (th, a, th') = (entered (th, a, th')).map Activation.info)
    (hsame : waiting th₁ = waiting th) (haction : th₁.ctx.action = th.ctx.action)
    (hexit : th₁.exited = false) (hlen : (activations th₁.stack).length = (below th a).length)
    (hevents : th₂.events = th.events)
    (hlen₂ : (activations th₂.stack).length = (below th a).length) :
    Shown th a ((enterPending th₁ sigset sigsetOld after).getD th₂) := by
  obtain ⟨hpend, hkill, hsigQ, hevents₁⟩ := waiting_eq_iff.mp hsame
  rcases enterPending_cases th₁ sigset sigsetOld after with
    hnone | ⟨signo, info, ctx', th', hgets, hsome, hstack, hexit', hevents'⟩
  · have hno : entered (th, a, th₂) = none := entered_none (Nat.le_of_eq hlen₂)
    rw [hnone, Option.getD_none]
    refine ⟨?_, entersHandler_none hno⟩
    rw [observe_get hget, hfound, hno, hevents]
    exact (List.append_nil _).symm
  · obtain ⟨ctx₂', hgets₂, -⟩ := hgets.congr hpend.symm hkill.symm hsigQ.symm
    have hentered : entered (th, a, th') = some _ := entered_push (hexit'.trans hexit) hstack hlen
    rw [hsome, Option.getD_some]
    refine ⟨?_, fun run hrun => ?_⟩
    · rw [observe_get hget, hfound, hentered, hevents', hevents₁, ready_congr hkill hsigQ]
      rfl
    · obtain rfl := Option.some.inj (hentered.symm.trans hrun)
      exact ⟨hq.signo_eq hgets₂, by rw [haction]⟩

theorem shown_doSignal {th : Thread} {a : Act} {info : SigInfo} (hsig : issig info.signo)
    (ha : a ≠ .ret) (hexit : th.exited = false) (hget : getSet th a = none)
    (hblocked : ∀ th', blocked (th, a, th') =
      if (doSignal th ⟨info, .signal, false⟩).1 = .block then some info else none) :
    Shown th a (doSignal th ⟨info, .signal, false⟩).2 := by
  have hbelow : below th a = activations th.stack := if_neg ha
  obtain heq | ⟨id, -, heq⟩ | ⟨hmask, heq⟩ | ⟨-, -, heq⟩ :=
    doSignal_cases th ⟨info, .signal, false⟩ hsig
  · rw [heq]
    refine ⟨?_, entersHandler_none (entered_none (by rw [hbelow]))⟩
    rw [observe_send hget, hblocked, heq]
    simp
  · rw [heq]
    refine ⟨?_, entersHandler_none (entered_none (by simp [hbelow, handOver]))⟩
    rw [observe_send hget, hblocked, heq]
    simp [handOver]
  · rw [heq]
    have hkept : (blockSignal th ⟨info, .signal, false⟩).events = th.events ++ [.sent info] ∧
        (blockSignal th ⟨info, .signal, false⟩).stack = th.stack := by
      by_cases hcode : info.code = .kill <;> simp [blockSignal, hcode]
    refine ⟨?_, entersHandler_none (entered_none (by rw [hkept.2, hbelow]))⟩
    rw [observe_send hget, hblocked, heq, hkept.1]
    simp
  · rw [heq]
    have hentered : entered (th, a, deliver th info) = some ⟨info.signo, info,
        th.ctx.action (sigindex info.signo), th.ctx.mask, 0#64⟩ := by
      have hlen : (activations th.stack).length = (below th a).length := by rw [hbelow]
      refine entered_push ?_ ?_ hlen
      · simp [deliver, sigCtlCreate, hexit]
      · simp [deliver, sigCtlCreate, activations, Frame.run?]
    refine ⟨?_, fun run hrun => ?_⟩
    · rw [observe_send hget, hblocked, heq]
      simp [deliver, sigCtlCreate]
    · obtain rfl := Option.some.inj (hentered.symm.trans hrun)
      exact ⟨rfl, rfl⟩

theorem sigPendRun_cases (th : Thread) :
    sigPendRun th = th ∨
    ∃ signo info ctx', Gets th.ctx (~~~th.ctx.mask) signo info ctx' ∧
      activations (sigPendRun th).stack =
        ⟨signo, info, th.ctx.action (sigindex signo), th.ctx.mask, 0#64⟩ ::
          activations th.stack ∧
      (sigPendRun th).exited = th.exited ∧
      (sigPendRun th).events = th.events ++ [.taken info (ready th.ctx (~~~th.ctx.mask))] := by
  unfold sigPendRun
  cases htake : take th (~~~th.ctx.mask) with
  | none => exact Or.inl rfl
  | some taken =>
    obtain ⟨signo, info, th₁⟩ := taken
    obtain ⟨ctx', hgets, rfl⟩ := take_eq_some htake
    refine Or.inr ⟨signo, info, ctx', hgets, ?_, ?_, ?_⟩
    · rw [← hgets.frame.1, ← hgets.frame.2.1]
      simp [sigCtlCreate, activations, Frame.run?, tookFrom]
    · simp [sigCtlCreate, tookFrom]
    · simp [sigCtlCreate, tookFrom]

theorem shown_sigPendRun {th : Thread} (hq : Queued th) (hexit : th.exited = false) :
    Shown th .pendRun (sigPendRun th) := by
  have hget : getSet th .pendRun = some (~~~th.ctx.mask) := rfl
  have hfound : ∀ th', found (th, .pendRun, th') =
      (entered (th, .pendRun, th')).map Activation.info := fun _ => rfl
  rcases sigPendRun_cases th with hnone | ⟨signo, info, ctx', hgets, hstack, hexit', hevents⟩
  · have hno : entered (th, .pendRun, th) = none := entered_none (Nat.le_refl _)
    rw [hnone]
    refine ⟨?_, entersHandler_none hno⟩
    rw [observe_get hget, hfound, hno]
    exact (List.append_nil _).symm
  · have hentered : entered (th, .pendRun, _) = some _ := entered_push (hexit'.trans hexit) hstack rfl
    refine ⟨?_, fun run hrun => ?_⟩
    · rw [observe_get hget, hfound, hentered, hevents]
      rfl
    · obtain rfl := Option.some.inj (hentered.symm.trans hrun)
      exact ⟨hq.signo_eq hgets, rfl⟩

theorem shown_sigtimedwait {th : Thread} (sigset : SigSet) (time : WaitFor) :
    Shown th (.wait sigset time) (sigtimedwait th sigset time) := by
  have hget : getSet th (.wait sigset time) = some sigset := rfl
  unfold sigtimedwait
  cases htake : take th sigset with
  | some taken =>
    obtain ⟨signo, info, th₁⟩ := taken
    obtain ⟨ctx', hgets, rfl⟩ := take_eq_some htake
    refine ⟨?_, entersHandler_none (entered_none (Nat.le_refl _))⟩
    rw [observe_get hget]
    simp [found, returnedAtOnce, returnAtOnce, tookFrom]
  | none =>
    dsimp only
    split
    · refine ⟨?_, entersHandler_none (entered_none (Nat.le_refl _))⟩
      rw [observe_get hget]
      simp [found, returnedAtOnce, returnAtOnce]
    · refine ⟨?_, entersHandler_none (entered_none (Nat.le_refl _))⟩
      rw [observe_get hget]
      simp [found, returnedAtOnce]

theorem shown_sigprocmask {th : Thread} (th₁ : Thread) {a : Act} (hq : Queued th)
    (hsame : waiting th₁ = waiting th) (haction : th₁.ctx.action = th.ctx.action)
    (hexit : th₁.exited = false) (hlen : (activations th₁.stack).length = (below th a).length)
    (hfound : ∀ th', found (th, a, th') = (entered (th, a, th')).map Activation.info)
    {cmd : MaskCmd} {sigset : SigSet} (hget : getSet th a = getSet th₁ (.procmask cmd sigset))
    (hblocked : ∀ th', blocked (th, a, th') = none) :
    Shown th a (sigprocmask th₁ cmd sigset) := by
  have hset : ∀ mask, (activations (setMask th₁ mask).stack).length = (below th a).length :=
    fun mask => (length_activations_free th₁.stack _).trans hlen
  have hevents : ∀ mask, (setMask th₁ mask).events = th.events := fun _ =>
    (waiting_eq_iff.mp hsame).2.2.2
  cases cmd with
  | block =>
    have hno : entered (th, a, sigprocmask th₁ .block sigset) = none :=
      entered_none (Nat.le_of_eq (hset _))
    refine ⟨?_, entersHandler_none hno⟩
    rw [observe_send hget, hblocked]
    exact (hevents _).trans (List.append_nil _).symm
  | unblock =>
    exact shown_enterPending hq hget hfound hsame haction hexit (hset _) (hevents _) (hset _)
  | setmask =>
    exact shown_enterPending hq hget hfound hsame haction hexit (hset _) (hevents _) (hset _)

theorem shown_step {th th' : Thread} {a : Act} (hq : Queued th)
    (hstep : step th a = some th') : Shown th a th' := by
  have hkeeps : ∀ th₂ : Thread, getSet th a = none → (∀ th', blocked (th, a, th') = none) →
      th₂.events = th.events → (activations th₂.stack).length ≤ (below th a).length →
      Shown th a th₂ := by
    intro th₂ hget hblocked hevents hlen
    refine ⟨?_, entersHandler_none (entered_none hlen)⟩
    rw [observe_send hget, hblocked, hevents]
    exact (List.append_nil _).symm
  have hexits : ∀ th₂ : Thread, getSet th a = none → (∀ th', blocked (th, a, th') = none) →
      th₂.events = th.events → th₂.exited = true → Shown th a th₂ := by
    intro th₂ hget hblocked hevents hexited
    have hno : entered (th, a, th₂) = none := if_neg fun h => by simp [hexited] at h
    refine ⟨?_, entersHandler_none hno⟩
    rw [observe_send hget, hblocked, hevents]
    exact (List.append_nil _).symm
  unfold step at hstep
  split at hstep
  · exact absurd hstep (by simp)
  next hexited =>
  rw [Bool.not_eq_true] at hexited
  cases a with
  | kill signo =>
    obtain rfl := Option.some.inj hstep
    by_cases hsig : issig signo
    · rw [if_pos hsig]
      exact shown_doSignal hsig (by simp) hexited rfl fun _ => by simp [blocked, hsig, doKill]
    · rw [if_neg hsig]
      exact hkeeps th rfl (fun _ => by simp [blocked, hsig]) rfl (Nat.le_refl _)
  | sigqueue signo value =>
    obtain rfl := Option.some.inj hstep
    by_cases hsig : issig signo
    · rw [if_pos hsig]
      exact shown_doSignal hsig (by simp) hexited rfl fun _ => by
        simp [blocked, hsig, SignalLib.doSigQueue]
    · rw [if_neg hsig]
      exact hkeeps th rfl (fun _ => by simp [blocked, hsig]) rfl (Nat.le_refl _)
  | pendRun =>
    obtain rfl := Option.some.inj hstep
    exact shown_sigPendRun hq hexited
  | tick =>
    obtain ⟨-, rfl⟩ := by simpa using hstep
    exact hkeeps _ rfl (fun _ => rfl) rfl (Nat.le_refl _)
  | exit =>
    obtain rfl := Option.some.inj hstep
    exact hkeeps _ rfl (fun _ => rfl) rfl (Nat.le_refl _)
  | procmask cmd sigset =>
    obtain ⟨-, rfl⟩ := by simpa using hstep
    exact shown_sigprocmask th hq rfl rfl hexited rfl (fun _ => rfl) rfl fun _ => rfl
  | suspend sigset =>
    obtain ⟨-, rfl⟩ := by simpa using hstep
    have hlen := length_activations_free th.stack (~~~(sigset &&& ~~~signoUnmask))
    exact shown_enterPending hq rfl (fun _ => rfl) rfl rfl hexited hlen rfl hlen
  | wait sigset time =>
    obtain ⟨-, rfl⟩ := by simpa using hstep
    exact shown_sigtimedwait sigset time
  | ret =>
    obtain ⟨-, hret⟩ := by simpa using hstep
    unfold handlerReturns at hret
    split at hret
    · next run sigset after rest hstack =>
      have hget : getSet th .ret =
          if run.action.exits run.signo then none else some sigset := congrArg retSet hstack
      have hbelow : below th .ret = activations rest := by
        simp [below, hstack, activations, Frame.run?]
      split at hret
      · next hmust =>
        rw [if_pos hmust] at hget
        obtain rfl := Option.some.inj hret
        exact hexits _ hget (fun _ => rfl) rfl rfl
      · next hmust =>
        rw [if_neg hmust] at hget
        obtain rfl := Option.some.inj hret
        refine shown_enterPending hq hget (fun _ => rfl) rfl rfl hexited ?_ ?_ ?_
        · rw [hbelow]
        · cases after <;> rfl
        · rw [activations_loopEnd, hbelow]
    · next run schedRet waitTimeout rest hstack =>
      have hget : getSet th .ret =
          if run.action.exits run.signo then none else some (~~~run.sigsetOld) :=
        congrArg retSet hstack
      have hbelow : below th .ret = activations rest := by
        simp [below, hstack, activations, Frame.run?]
      split at hret
      · next hmust =>
        rw [if_pos hmust] at hget
        obtain rfl := Option.some.inj hret
        exact hexits _ hget (fun _ => rfl) rfl rfl
      · next hmust =>
        rw [if_neg hmust] at hget
        obtain rfl := Option.some.inj hret
        refine shown_enterPending hq hget (fun _ => rfl) rfl rfl hexited ?_ rfl ?_
        · rw [hbelow]
        · rw [hbelow]
          exact congrArg List.length (activations_schedSetRet schedRet rest)
    · exact absurd hret (by simp)
  | resume =>
    obtain ⟨-, hres⟩ := by simpa using hstep
    unfold SignalLib.resume at hres
    split at hres
    · next sigsetOld rest hstack =>
      obtain rfl := Option.some.inj hres
      have hbelow : below th .resume = activations rest := by
        rw [below, if_neg (by simp), hstack]
        rfl
      have hget : getSet th .resume =
          getSet { th with stack := rest } (.procmask .setmask sigsetOld) := congrArg resumeSet hstack
      exact shown_sigprocmask { th with stack := rest } hq rfl rfl hexited (by rw [hbelow])
        (fun _ => rfl) hget fun _ => rfl
    · next id timed schedRet rest hstack =>
      obtain rfl := Option.some.inj hres
      have hbelow : below th .resume = activations rest := by
        rw [below, if_neg (by simp), hstack]
        rfl
      exact hkeeps _ (congrArg resumeSet hstack) (fun _ => rfl) rfl (by rw [hbelow])
    · exact absurd hres (by simp)

def Sound (th : Thread) : Prop := Queued th ∧ Settled th.ctx.mask th.ctx.pending th.stack

def Past (h : List (Thread × Act × Thread)) (th : Thread) : Prop :=
  th.events = h.flatMap observe ∧ ∀ e ∈ h, EntersHandler e

theorem Past.step {h : List (Thread × Act × Thread)} {th th' : Thread} {a : Act} (hp : Past h th)
    (hshown : Shown th a th') : Past (h ++ [(th, a, th')]) th' := by
  refine ⟨?_, fun e he => ?_⟩
  · rw [hshown.1, hp.1, List.flatMap_append, List.flatMap_singleton]
  · rcases List.mem_append.mp he with he | he
    · exact hp.2 e he
    · rw [List.mem_singleton.mp he]
      exact hshown.2

theorem Sound.delivered {h : List (Thread × Act × Thread)} {th : Thread} (hs : Sound th)
    (hp : Past h th) : Delivered h th := by
  refine ⟨hs.1.synced, ?_, ?_, ?_, hp.2, ?_⟩
  · rw [← hp.1]
    exact hs.1.fifo
  · rw [← hp.1]
    exact hs.1.kills
  · rw [← hp.1]
    exact hs.1.lowest
  · intro hnone i hi hopen
    have hpend := hs.2.idle hnone i hi hopen
    refine ⟨hpend, ?_⟩
    by_contra hq
    rw [(hs.1.synced i).mpr (Or.inr hq)] at hpend
    exact absurd hpend (by decide)

theorem unmixed_of_synced {th th' : Thread} {a : Act} (hstep : step th a = some th')
    (hsync : ∀ i, th'.ctx.pending.getLsbD i = true ↔
      th'.ctx.kill.getLsbD i = true ∨ th'.ctx.sigQ i ≠ []) : Unmixed th a := by
  intro sigset hget i hbit hlow hkill
  by_contra hq
  obtain ⟨sigset', hget', heq⟩ | ⟨hnone, -⟩ := step_waiting hstep
  · obtain rfl : sigset = sigset' := by
      rw [hget] at hget'
      exact Option.some.inj hget'
    have hgets := Gets.kill hbit hlow hkill
    rw [afterTake, hgets.take] at heq
    obtain ⟨hpend, -, hq', -⟩ := waiting_eq_iff.mp heq
    have hset : th'.ctx.pending.getLsbD i = true := by
      rw [hsync i, hq']
      exact Or.inr hq
    rw [hpend, tookFrom, getLsbD_clear (BitVec.lt_of_getLsbD hbit)] at hset
    exact hset.2 rfl
  · rw [hnone] at hget
    exact absurd hget (by simp)

theorem sound_newThread (mask : SigSet) (action : Nat → SigAction) :
    Sound (newThread mask action) := by
  refine ⟨⟨?_, ?_, ?_, ?_, ?_⟩, ?_, ?_⟩
  · intro i
    simp [newThread]
  · intro i
    rfl
  · intro i
    simp [newThread, killed, outstanding]
  · exact fun info ready hmem => absurd hmem List.not_mem_nil
  · exact fun i info hmem => absurd hmem List.not_mem_nil
  · intro _ i _ _
    simp [newThread]
  · exact fun run sigset after hr => absurd hr List.not_mem_nil

/-- From a new thread on, blocked signals are kept and run as they should be in every state of a
run exactly when no step takes the kill of a signal that also has queued instances. -/
theorem blocked_signals_delivered_iff (mask : SigSet) (action : Nat → SigAction)
    (acts : List Act) :
    Visits (recording step) (fun p => Delivered p.1 p.2) ([], newThread mask action) acts ↔
      Obeys step Unmixed (newThread mask action) acts := by
  rw [← obeys_recording (h := [])]
  apply visits_iff_obeys (I := fun p => Sound p.2 ∧ Past p.1 p.2)
  · rintro ⟨h, th⟩ a ⟨h', th'⟩ ⟨hs, hp⟩ hunmixed hstep
    obtain ⟨hth, hh⟩ := recording_eq_some hstep
    obtain rfl : h' = h ++ [(th, a, th')] := hh
    exact ⟨⟨hs.1.step hunmixed hth, settled_step hs.1 hs.2 hth⟩, hp.step (shown_step hs.1 hth)⟩
  · exact fun p h => h.1.delivered h.2
  · rintro ⟨h, th⟩ a ⟨h', th'⟩ - hstep hdelivered
    exact unmixed_of_synced (recording_eq_some hstep).1 hdelivered.synced
  · exact ⟨sound_newThread mask action, rfl, fun e he => nomatch he⟩

/-- The real-time signal 48 is sent by `sigqueue` and by `kill` while it is blocked; the kill is
run and the instance with value 7 is left in the queue. -/
def mixedActs : List Act :=
  [.sigqueue 48 7, .kill 48, .procmask .unblock (sigmask 48), .ret]

theorem kill_strands_queued :
    ¬ Visits (recording step) (fun p => Delivered p.1 p.2) ([], newThread (sigmask 48) userAction)
      mixedActs := by
  intro hvisits
  have hend : (run (recording step) ([], newThread (sigmask 48) userAction) mixedActs).map
      (fun p => (p.2.ctx.pending, p.2.ctx.sigQ 47)) = some (0#64, [⟨48, .queue, 7⟩]) := by
    decide +kernel
  obtain ⟨p, hrun, hp⟩ := Option.map_eq_some_iff.mp hend
  simp only [Prod.mk.injEq] at hp
  have hsync := ((hvisits.last hrun).synced 47).mpr (Or.inr (by simp [hp.2]))
  rw [hp.1] at hsync
  exact absurd hsync (by decide)

end SylixOS.SignalDeliver
