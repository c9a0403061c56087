import SylixOS.SignalLib
import SylixOS.StepRuns

/-! The masks of nested handlers. Each run of a handler saves the mask it
interrupts, so the runs on the stack and the current mask form a chain: every
mask in it holds what the runs below asked to be blocked. -/

namespace SylixOS.SignalMask
open SignalLib StepRuns

/-- What a handler keeps blocked while it runs: the mask it interrupted, the `sa_mask` of its
signal and, without `SA_NOMASK`, the signal itself; less what the thread has unblocked since. -/
def Held (run : Activation) (mask : SigSet) : Prop :=
  ∀ i, (run.action.extend run.signo run.sigsetOld).getLsbD i = true →
    run.freed.getLsbD i = false → mask.getLsbD i = true

/-- No handler without `SA_NOMASK` is entered again before it has returned, unless the thread has
unblocked its signal meanwhile. -/
def EnteredOnce (runs : List Activation) : Prop :=
  runs.Pairwise fun inner outer => inner.signo = outer.signo →
    outer.action.noMask = true ∨ outer.freed.getLsbD (sigindex outer.signo) = true

structure MasksNest (th : Thread) : Prop where
  held : ∀ run ∈ activations th.stack, Held run th.ctx.mask
  once : EnteredOnce (activations th.stack)
  restored : activations th.stack = [] → th.ctx.mask = th.base

def Nested : SigSet → List Activation → Prop
  | _, [] => True
  | mask, run :: runs => (∀ r ∈ run :: runs, Held r mask) ∧ Nested run.sigsetOld runs

def outermost : SigSet → List Activation → SigSet
  | mask, [] => mask
  | _, run :: runs => outermost run.sigsetOld runs

theorem getLsbD_extend {act : SigAction} {signo : Nat} (h : signo - 1 < 64) (mask : SigSet)
    (i : Nat) : (act.extend signo mask).getLsbD i = true ↔
      mask.getLsbD i = true ∨ act.mask.getLsbD i = true ∨
        act.noMask = false ∧ i = sigindex signo := by
  unfold SigAction.extend
  cases act.noMask <;> simp [getLsbD_sigmask h, or_assoc]

theorem Held.mono {run : Activation} {mask mask' : SigSet} (h : Held run mask)
    (hle : ∀ i, mask.getLsbD i = true → mask'.getLsbD i = true) : Held run mask' :=
  fun i hneed hfreed => hle i (h i hneed hfreed)

theorem Held.free {run : Activation} {mask : SigSet} (h : Held run mask) (sigset : SigSet) :
    Held (run.free sigset) mask := by
  intro i hneed hfreed
  apply h i hneed
  simp only [Activation.free, BitVec.getLsbD_or, Bool.or_eq_false_iff] at hfreed
  exact hfreed.1

theorem held_free_compl {run : Activation} {old mask : SigSet} (h : Held run old) :
    Held (run.free (~~~mask)) mask := by
  intro i hneed hfreed
  simp only [Activation.free, BitVec.getLsbD_or, BitVec.getLsbD_not, Bool.or_eq_false_iff] at hfreed
  have hlt : i < 64 := BitVec.lt_of_getLsbD (h i hneed hfreed.1)
  simpa [hlt] using hfreed.2

theorem Nested.held {mask : SigSet} {runs : List Activation} (h : Nested mask runs) :
    ∀ r ∈ runs, Held r mask := by
  cases runs with
  | nil => exact fun r hr => absurd hr (List.not_mem_nil)
  | cons run runs => exact h.1

theorem Nested.free {mask : SigSet} {runs : List Activation} (h : Nested mask runs)
    (sigset : SigSet) : Nested mask (runs.map (Activation.free sigset)) := by
  induction runs generalizing mask with
  | nil => trivial
  | cons run runs ih =>
    refine ⟨?_, ih h.2⟩
    intro r hr
    rw [← List.map_cons] at hr
    obtain ⟨r', hr', rfl⟩ := List.mem_map.mp hr
    exact (h.1 r' hr').free sigset

theorem Nested.setMask {mask : SigSet} {runs : List Activation} (h : Nested mask runs)
    (mask' : SigSet) : Nested mask' (runs.map (Activation.free (~~~mask'))) := by
  cases runs with
  | nil => trivial
  | cons run runs =>
    refine ⟨?_, h.2.free _⟩
    intro r hr
    rw [← List.map_cons] at hr
    obtain ⟨r', hr', rfl⟩ := List.mem_map.mp hr
    exact held_free_compl (h.1 r' hr')

theorem Nested.push {mask : SigSet} {runs : List Activation} (h : Nested mask runs)
    {run : Activation} (hsig : run.signo - 1 < 64) (hold : run.sigsetOld = mask) :
    Nested (run.action.extend run.signo mask) (run :: runs) := by
  have hle : ∀ i, mask.getLsbD i = true →
      (run.action.extend run.signo mask).getLsbD i = true :=
    fun i hi => (getLsbD_extend hsig mask i).mpr (Or.inl hi)
  refine ⟨?_, hold ▸ h⟩
  intro r hr
  rcases List.mem_cons.mp hr with rfl | hr
  · intro i hneed _
    rwa [hold] at hneed
  · exact (h.held r hr).mono hle

theorem EnteredOnce.push {mask : SigSet} {runs : List Activation} (h : EnteredOnce runs)
    (hheld : ∀ r ∈ runs, Held r mask) (hsigs : ∀ r ∈ runs, r.signo - 1 < 64) {run : Activation}
    (hopen : mask.getLsbD (sigindex run.signo) = false) : EnteredOnce (run :: runs) := by
  refine List.pairwise_cons.mpr ⟨?_, h⟩
  intro outer hmem heq
  by_contra hnot
  simp only [not_or, Bool.not_eq_true] at hnot
  have hneed : (outer.action.extend outer.signo outer.sigsetOld).getLsbD
      (sigindex outer.signo) = true :=
    (getLsbD_extend (hsigs outer hmem) _ _).mpr (Or.inr (Or.inr ⟨hnot.1, rfl⟩))
  have hblocked := hheld outer hmem _ hneed hnot.2
  rw [heq, hblocked] at hopen
  exact absurd hopen (by decide)

theorem EnteredOnce.free {runs : List Activation} (h : EnteredOnce runs) (sigset : SigSet) :
    EnteredOnce (runs.map (Activation.free sigset)) := by
  refine List.Pairwise.map _ ?_ h
  intro inner outer hpair heq
  rcases hpair heq with hnomask | hfreed
  · exact Or.inl hnomask
  · right
    simp [Activation.free, hfreed]

theorem outermost_map_free (mask : SigSet) (runs : List Activation) (sigset : SigSet) :
    outermost mask (runs.map (Activation.free sigset)) = outermost mask runs := by
  induction runs generalizing mask with
  | nil => rfl
  | cons run runs ih => exact ih run.sigsetOld

theorem activations_map_free (stack : List Frame) (sigset : SigSet) :
    activations (stack.map (Frame.free sigset)) =
      (activations stack).map (Activation.free sigset) := by
  unfold activations
  rw [List.filterMap_map, List.map_filterMap]
  apply List.filterMap_congr
  intro f _
  cases f <;> rfl

structure Chained (mask base : SigSet) (stack : List Frame) : Prop where
  nested : Nested mask (activations stack)
  once : EnteredOnce (activations stack)
  outer : outermost mask (activations stack) = base
  sigs : ∀ run ∈ activations stack, run.signo - 1 < 64
  looped : ∀ run sigset after, Frame.direct run sigset after ∈ stack → sigset = ~~~run.sigsetOld

theorem Chained.masksNest {th : Thread} (h : Chained th.ctx.mask th.base th.stack) :
    MasksNest th := by
  refine ⟨h.nested.held, h.once, ?_⟩
  intro hnone
  have houter := h.outer
  rwa [hnone] at houter

variable {mask base : SigSet} {stack rest : List Frame}

theorem Chained.push (h : Chained mask base stack) {f : Frame} {run : Activation}
    (hf : f.run? = some run) (hold : run.sigsetOld = mask) (hsig : run.signo - 1 < 64)
    (hopen : mask.getLsbD (sigindex run.signo) = false)
    (hloop : ∀ sigset after, f = .direct run sigset after → sigset = ~~~run.sigsetOld) :
    Chained (run.action.extend run.signo mask) base (f :: stack) := by
  have hacts : activations (f :: stack) = run :: activations stack := by
    simp [activations, hf]
  refine ⟨?_, ?_, ?_, ?_, ?_⟩
  · rw [hacts]
    exact h.nested.push hsig hold
  · rw [hacts]
    exact h.once.push h.nested.held h.sigs hopen
  · rw [hacts, outermost, hold]
    exact h.outer
  · rw [hacts]
    intro r hr
    rcases List.mem_cons.mp hr with rfl | hr
    · exact hsig
    · exact h.sigs r hr
  · intro r sigset after hr
    rcases List.mem_cons.mp hr with rfl | hr
    · obtain rfl : r = run := by simpa [Frame.run?] using hf
      exact hloop sigset after rfl
    · exact h.looped r sigset after hr

theorem Chained.pushContext (h : Chained mask base stack) (run : Activation) (schedRet : SchedRet)
    (waitTimeout : Bool) (hold : run.sigsetOld = mask) (hsig : run.signo - 1 < 64)
    (hopen : mask.getLsbD (sigindex run.signo) = false) :
    Chained (run.action.extend run.signo mask) base (.context run schedRet waitTimeout :: stack) := by
  apply h.push rfl hold hsig hopen
  intro sigset after hf
  exact Frame.noConfusion hf

theorem Chained.pushDirect (h : Chained mask base stack) (run : Activation) (after : After)
    (hold : run.sigsetOld = mask) (hsig : run.signo - 1 < 64)
    (hopen : mask.getLsbD (sigindex run.signo) = false) :
    Chained (run.action.extend run.signo mask) base (.direct run (~~~mask) after :: stack) := by
  apply h.push rfl hold hsig hopen
  intro sigset after' hf
  simp only [Frame.direct.injEq] at hf
  rw [← hf.2.1, hold]

theorem Chained.pop {f : Frame} {run : Activation} (h : Chained mask base (f :: rest))
    (hf : f.run? = some run) : Chained run.sigsetOld base rest := by
  have hacts : activations (f :: rest) = run :: activations rest := by
    simp [activations, hf]
  refine ⟨?_, ?_, ?_, ?_, ?_⟩
  · exact (hacts ▸ h.nested).2
  · exact (List.pairwise_cons.mp (hacts ▸ h.once)).2
  · have houter := h.outer
    rwa [hacts, outermost] at houter
  · intro r hr
    apply h.sigs r
    rw [hacts]
    exact List.mem_cons_of_mem _ hr
  · exact fun r sigset after hr => h.looped r sigset after (List.mem_cons_of_mem _ hr)

theorem chained_cons_iff {f : Frame} (hf : f.run? = none) :
    Chained mask base (f :: stack) ↔ Chained mask base stack := by
  have hacts : activations (f :: stack) = activations stack := by
    simp [activations, hf]
  have hdirect : ∀ run sigset after, Frame.direct run sigset after ∈ f :: stack ↔
      Frame.direct run sigset after ∈ stack := by
    intro run sigset after
    rw [List.mem_cons, or_iff_right]
    rintro rfl
    exact absurd hf (by simp [Frame.run?])
  constructor
  · intro ⟨h₁, h₂, h₃, h₄, h₅⟩
    rw [hacts] at h₁ h₂ h₃ h₄
    exact ⟨h₁, h₂, h₃, h₄, fun r s a hr => h₅ r s a ((hdirect r s a).mpr hr)⟩
  · intro ⟨h₁, h₂, h₃, h₄, h₅⟩
    rw [← hacts] at h₁ h₂ h₃ h₄
    exact ⟨h₁, h₂, h₃, h₄, fun r s a hr => h₅ r s a ((hdirect r s a).mp hr)⟩

theorem Chained.setMask {th : Thread} (h : Chained th.ctx.mask th.base th.stack) (mask' : SigSet) :
    Chained (SignalLib.setMask th mask').ctx.mask (SignalLib.setMask th mask').base
      (SignalLib.setMask th mask').stack := by
  have hacts := activations_map_free th.stack (~~~mask')
  refine ⟨?_, ?_, ?_, ?_, ?_⟩
  · exact hacts ▸ h.nested.setMask mask'
  · exact hacts ▸ h.once.free _
  · show outermost mask' (activations (th.stack.map _)) = ite _ _ _
    rw [hacts, outermost_map_free]
    have houter := h.outer
    cases hruns : activations th.stack with
    | nil => rfl
    | cons run runs =>
      rw [hruns] at houter
      simpa [outermost] using houter
  · intro r hr
    have hr' : r ∈ (activations th.stack).map (Activation.free (~~~mask')) := hacts ▸ hr
    obtain ⟨r', hmem, rfl⟩ := List.mem_map.mp hr'
    exact h.sigs r' hmem
  · intro r sigset after hr
    obtain ⟨f, hmem, hf⟩ := List.mem_map.mp hr
    cases f with
    | direct run sigset' after' =>
      simp only [Frame.free, Frame.direct.injEq] at hf
      obtain ⟨rfl, rfl, rfl⟩ := hf
      exact h.looped run sigset' after' hmem
    | context run schedRet waitTimeout => simp [Frame.free] at hf
    | suspend sigsetOld => simp [Frame.free] at hf
    | wait id timed schedRet => simp [Frame.free] at hf

/-- The call of `_sigPendRun` for another thread puts a handler on the stack and does not extend
the mask. That makes no difference when the action it takes the signal with asks for nothing that
is not blocked. -/
def AsksNothing (th : Thread) (a : Act) : Prop :=
  a = .pendRun → ∀ signo info ctx', Gets th.ctx (~~~th.ctx.mask) signo info ctx' →
    (th.ctx.action (sigindex signo)).noMask = true ∧
      ∀ i, (th.ctx.action (sigindex signo)).mask.getLsbD i = true → th.ctx.mask.getLsbD i = true

theorem Chained.deliver {th : Thread} (h : Chained th.ctx.mask th.base th.stack) {info : SigInfo}
    (hsig : info.signo - 1 < 64) (hopen : th.ctx.mask.getLsbD (sigindex info.signo) = false) :
    Chained (SignalLib.deliver th info).ctx.mask (SignalLib.deliver th info).base
      (SignalLib.deliver th info).stack := by
  simp only [SignalLib.deliver, sigCtlCreate, sigMakeReady_ctx, sigMakeReady_base,
    sigMakeReady_stack]
  exact h.pushContext ⟨info.signo, info, _, th.ctx.mask, 0#64⟩ _ _ rfl hsig hopen

theorem Chained.enterPending {th th' : Thread} (h : Chained th.ctx.mask th.base th.stack)
    {after : After}
    (henter : SignalLib.enterPending th (~~~th.ctx.mask) th.ctx.mask after = some th') :
    Chained th'.ctx.mask th'.base th'.stack := by
  unfold SignalLib.enterPending at henter
  cases htake : take th (~~~th.ctx.mask) with
  | none => simp [htake] at henter
  | some taken =>
    obtain ⟨signo, info, th₁⟩ := taken
    obtain ⟨ctx', hgets, rfl⟩ := take_eq_some htake
    obtain ⟨hmask, -, -⟩ := hgets.frame
    obtain ⟨hmem, hsig⟩ := hgets.mem
    have hopen : th.ctx.mask.getLsbD (sigindex signo) = false := by
      rw [BitVec.getLsbD_not] at hmem
      simpa [sigindex, hsig] using hmem
    simp only [htake, tookFrom, hmask, Option.some.injEq] at henter
    subst henter
    exact h.pushDirect ⟨signo, info, ctx'.action (sigindex signo), th.ctx.mask, 0#64⟩ after rfl hsig
      hopen

theorem Chained.enterPending_getD {th th' : Thread} (h : Chained th.ctx.mask th.base th.stack)
    {after : After} (h' : Chained th'.ctx.mask th'.base th'.stack) :
    Chained ((SignalLib.enterPending th (~~~th.ctx.mask) th.ctx.mask after).getD th').ctx.mask
      ((SignalLib.enterPending th (~~~th.ctx.mask) th.ctx.mask after).getD th').base
      ((SignalLib.enterPending th (~~~th.ctx.mask) th.ctx.mask after).getD th').stack := by
  cases henter : SignalLib.enterPending th (~~~th.ctx.mask) th.ctx.mask after with
  | none => exact h'
  | some entered => exact h.enterPending henter

theorem Chained.sigPendRun {th : Thread} (h : Chained th.ctx.mask th.base th.stack)
    (hasks : AsksNothing th .pendRun) :
    Chained (SignalLib.sigPendRun th).ctx.mask (SignalLib.sigPendRun th).base
      (SignalLib.sigPendRun th).stack := by
  unfold SignalLib.sigPendRun
  cases htake : take th (~~~th.ctx.mask) with
  | none => exact h
  | some taken =>
    obtain ⟨signo, info, th₁⟩ := taken
    obtain ⟨ctx', hgets, rfl⟩ := take_eq_some htake
    obtain ⟨hmask, haction, -⟩ := hgets.frame
    obtain ⟨hmem, hsig⟩ := hgets.mem
    obtain ⟨hnomask, hsub⟩ := hasks rfl signo info ctx' hgets
    have hopen : th.ctx.mask.getLsbD (sigindex signo) = false := by
      rw [BitVec.getLsbD_not] at hmem
      simpa [sigindex, hsig] using hmem
    have hsame : (th.ctx.action (sigindex signo)).extend signo th.ctx.mask = th.ctx.mask := by
      ext i hi
      rw [Bool.eq_iff_iff, ← BitVec.getLsbD_eq_getElem, ← BitVec.getLsbD_eq_getElem,
        getLsbD_extend hsig]
      constructor
      · rintro (hin | hin | ⟨hnot, -⟩)
        · exact hin
        · exact hsub i hin
        · rw [hnomask] at hnot
          exact absurd hnot (by decide)
      · exact Or.inl
    simp only [sigCtlCreate, sigMakeReady_ctx, sigMakeReady_base, sigMakeReady_stack, tookFrom,
      hmask, haction]
    have hpush := h.pushContext ⟨signo, info, th.ctx.action (sigindex signo), th.ctx.mask, 0#64⟩
    simp only [hsame] at hpush
    exact hpush _ _ trivial hsig hopen

theorem Chained.sigprocmask {th : Thread} (h : Chained th.ctx.mask th.base th.stack)
    (cmd : MaskCmd) (sigset : SigSet) :
    Chained (SignalLib.sigprocmask th cmd sigset).ctx.mask
      (SignalLib.sigprocmask th cmd sigset).base (SignalLib.sigprocmask th cmd sigset).stack := by
  cases cmd with
  | block => exact h.setMask _
  | unblock => exact (h.setMask _).enterPending_getD (h.setMask _)
  | setmask => exact (h.setMask _).enterPending_getD (h.setMask _)

theorem Chained.leaveContext {th : Thread} (h : Chained th.ctx.mask th.base th.stack)
    (schedRet : SchedRet) (waitTimeout : Bool) :
    Chained th.ctx.mask th.base (SignalLib.leaveContext th schedRet waitTimeout).stack := by
  obtain hsame | ⟨id, timed, old, new, rest, hstack, hnew⟩ := schedSetRet_cases schedRet th.stack
  · show Chained _ _ (schedSetRet schedRet th.stack)
    rwa [hsame]
  · rw [hstack, chained_cons_iff rfl] at h
    show Chained _ _ (schedSetRet schedRet th.stack)
    rw [hnew]
    exact (chained_cons_iff rfl).mpr h

theorem Chained.loopEnd {th : Thread} (h : Chained th.ctx.mask th.base th.stack) (after : After) :
    Chained (SignalLib.loopEnd th after).ctx.mask (SignalLib.loopEnd th after).base
      (SignalLib.loopEnd th after).stack := by
  cases after with
  | procmask => exact h
  | suspend sigsetOld => exact (chained_cons_iff rfl).mpr h
  | sigReturn schedRet waitTimeout => exact h.leaveContext schedRet waitTimeout

theorem Chained.doSignal {th : Thread} (h : Chained th.ctx.mask th.base th.stack)
    (sigpend : SigPend) (hsig : issig sigpend.info.signo) :
    Chained (SignalLib.doSignal th sigpend).2.ctx.mask (SignalLib.doSignal th sigpend).2.base
      (SignalLib.doSignal th sigpend).2.stack := by
  obtain heq | ⟨id, -, heq⟩ | ⟨-, heq⟩ | ⟨-, hopen, heq⟩ := doSignal_cases th _ hsig
  · rw [heq]
    exact h
  · rw [heq]
    simpa [handOver] using h
  · rw [heq]
    obtain hsame | ⟨pending, kill, sigQ, hkept⟩ := blockSignal_cases th sigpend
    · rw [hsame]
      exact h
    · rw [hkept]
      exact h
  · rw [heq]
    have := hsig.2
    exact h.deliver (by omega) hopen

theorem Chained.handlerReturns {th th' : Thread} (h : Chained th.ctx.mask th.base th.stack)
    (hret : SignalLib.handlerReturns th = some th') :
    Chained th'.ctx.mask th'.base th'.stack := by
  unfold SignalLib.handlerReturns at hret
  split at hret
  · next run sigset after rest hstack =>
    have hset := h.looped run sigset after (by rw [hstack]; exact List.mem_cons_self)
    split at hret
    · obtain rfl := Option.some.inj hret
      exact h
    · obtain rfl := Option.some.inj hret
      rw [hstack] at h
      have hpop : Chained run.sigsetOld th.base rest := h.pop rfl
      rw [hset]
      exact hpop.enterPending_getD (hpop.loopEnd after)
  · next run schedRet waitTimeout rest hstack =>
    split at hret
    · obtain rfl := Option.some.inj hret
      exact h
    · obtain rfl := Option.some.inj hret
      rw [hstack] at h
      have hpop : Chained run.sigsetOld th.base rest := h.pop rfl
      exact hpop.enterPending_getD (@Chained.leaveContext { th with
        stack := rest, ctx := { th.ctx with mask := run.sigsetOld } } hpop schedRet waitTimeout)
  · exact absurd hret (by simp)

theorem Chained.resume {th th' : Thread} (h : Chained th.ctx.mask th.base th.stack)
    (hres : SignalLib.resume th = some th') : Chained th'.ctx.mask th'.base th'.stack := by
  unfold SignalLib.resume at hres
  split at hres
  · next sigsetOld rest hstack =>
    obtain rfl := Option.some.inj hres
    rw [hstack, chained_cons_iff rfl] at h
    exact @Chained.sigprocmask { th with stack := rest } h _ _
  · next id timed schedRet rest hstack =>
    obtain rfl := Option.some.inj hres
    rw [hstack, chained_cons_iff rfl] at h
    exact h
  · exact absurd hres (by simp)

theorem Chained.sigtimedwait {th : Thread} (h : Chained th.ctx.mask th.base th.stack)
    (sigset : SigSet) (time : WaitFor) :
    Chained (SignalLib.sigtimedwait th sigset time).ctx.mask
      (SignalLib.sigtimedwait th sigset time).base
      (SignalLib.sigtimedwait th sigset time).stack := by
  unfold SignalLib.sigtimedwait
  cases htake : take th sigset with
  | some taken =>
    obtain ⟨signo, info, th₁⟩ := taken
    obtain ⟨ctx', hgets, rfl⟩ := take_eq_some htake
    simpa [returnAtOnce, tookFrom, hgets.frame.1] using h
  | none =>
    dsimp only
    split
    · exact h
    · exact (chained_cons_iff rfl).mpr h

theorem Chained.step {th th' : Thread} {a : Act} (h : Chained th.ctx.mask th.base th.stack)
    (hasks : AsksNothing th a) (hstep : SignalLib.step th a = some th') :
    Chained th'.ctx.mask th'.base th'.stack := by
  unfold SignalLib.step at hstep
  split at hstep
  · exact absurd hstep (by simp)
  · cases a with
    | kill signo =>
      obtain rfl := Option.some.inj hstep
      by_cases hsig : issig signo
      · rw [if_pos hsig]
        exact h.doSignal _ hsig
      · rw [if_neg hsig]
        exact h
    | sigqueue signo value =>
      obtain rfl := Option.some.inj hstep
      by_cases hsig : issig signo
      · rw [if_pos hsig]
        exact h.doSignal _ hsig
      · rw [if_neg hsig]
        exact h
    | pendRun =>
      obtain rfl := Option.some.inj hstep
      exact h.sigPendRun hasks
    | tick =>
      obtain ⟨-, rfl⟩ := by simpa using hstep
      exact h
    | exit =>
      obtain rfl := Option.some.inj hstep
      exact h
    | procmask cmd sigset =>
      obtain ⟨-, rfl⟩ := by simpa using hstep
      exact h.sigprocmask cmd sigset
    | suspend sigset =>
      obtain ⟨-, rfl⟩ := by simpa using hstep
      have hmask := h.setMask (sigset &&& ~~~signoUnmask)
      exact hmask.enterPending_getD ((chained_cons_iff rfl).mpr hmask)
    | wait sigset time =>
      obtain ⟨-, rfl⟩ := by simpa using hstep
      exact h.sigtimedwait sigset time
    | ret =>
      obtain ⟨-, hret⟩ := by simpa using hstep
      exact h.handlerReturns hret
    | resume =>
      obtain ⟨-, hres⟩ := by simpa using hstep
      exact h.resume hres

theorem asksNothing_of_masksNest {th th' : Thread} {a : Act}
    (hstep : SignalLib.step th a = some th') (hnest : MasksNest th') : AsksNothing th a := by
  rintro rfl signo info ctx' hgets
  have hopen : th.ctx.mask.getLsbD (sigindex signo) = false := by
    have hmem := hgets.mem
    rw [BitVec.getLsbD_not] at hmem
    simpa [sigindex, hmem.2] using hmem.1
  obtain ⟨hmask, haction, -⟩ := hgets.frame
  simp only [SignalLib.step] at hstep
  split at hstep
  · exact absurd hstep (by simp)
  · obtain rfl := Option.some.inj hstep
    have hheld := hnest.held ⟨signo, info, th.ctx.action (sigindex signo), th.ctx.mask, 0#64⟩ (by
      simp [SignalLib.sigPendRun, hgets.take, tookFrom, sigCtlCreate, activations, Frame.run?,
        hmask, haction])
    simp only [SignalLib.sigPendRun, hgets.take, tookFrom, sigCtlCreate, sigMakeReady_ctx, hmask,
      Held, getLsbD_extend hgets.mem.2] at hheld
    constructor
    · by_contra hnomask
      rw [Bool.not_eq_true] at hnomask
      have hblocked := hheld _ (Or.inr (Or.inr ⟨hnomask, rfl⟩)) (by simp)
      rw [hopen] at hblocked
      exact absurd hblocked (by decide)
    · intro i hi
      exact hheld i (Or.inr (Or.inl hi)) (by simp)

/-- From a new thread on, the masks nest in every state of a run exactly when `_sigPendRun` for
another thread only finds signals whose actions ask for nothing that is not blocked. -/
theorem masks_nest_iff (mask : SigSet) (action : Nat → SigAction) (acts : List Act) :
    Visits step MasksNest (newThread mask action) acts ↔
      Obeys step AsksNothing (newThread mask action) acts := by
  apply visits_iff_obeys (I := fun th => Chained th.ctx.mask th.base th.stack)
  · exact fun th a th' h hasks hstep => h.step hasks hstep
  · exact fun th h => h.masksNest
  · exact fun th a th' _ hstep hnest => asksNothing_of_masksNest hstep hnest
  · refine ⟨trivial, List.Pairwise.nil, rfl, ?_, ?_⟩
    · exact fun run hrun => absurd hrun (List.not_mem_nil)
    · exact fun run sigset after hrun => absurd hrun (List.not_mem_nil)

/-! Both real-time signals 48 and 49 wait behind the mask; while the handler of the first one runs,
another thread calls `_sigPendRun` and then sends the second one again. -/

def rtMask : SigSet := sigmask 48 ||| sigmask 49

def reentryActs : List Act :=
  [.kill 48, .kill 49, .procmask .unblock rtMask, .pendRun, .kill 49]

/-- The handler of signal 49 is entered while it runs. -/
theorem pend_run_reenters : ¬ Visits step MasksNest (newThread rtMask userAction) reentryActs := by
  intro hvisits
  cases hrun : run step (newThread rtMask userAction) reentryActs with
  | none =>
    have hsome : (run step (newThread rtMask userAction) reentryActs).isSome = true := by
      decide +kernel
    rw [hrun] at hsome
    exact absurd hsome (by decide)
  | some th =>
    have honce := (hvisits.last hrun).once
    have hacts : (run step (newThread rtMask userAction) reentryActs).map
        (fun th => activations th.stack) = some
          [⟨49, ⟨49, .kill, 1⟩, userAction 48, sigmask 48, 0#64⟩,
            ⟨49, ⟨49, .kill, 49⟩, userAction 48, sigmask 48, 0#64⟩,
            ⟨48, ⟨48, .kill, 48⟩, userAction 47, 0#64, 0#64⟩] := by
      decide +kernel
    rw [hrun, Option.map_some, Option.some.injEq] at hacts
    rw [hacts] at honce
    revert honce
    unfold EnteredOnce
    decide

end SylixOS.SignalMask
