import Mathlib.Data.List.Nodup
import Mathlib.Logic.Function.Basic

/-! How a thread waits in the queues of a kernel event (_EventHighLevel.c), and
how it is taken out of them: by whoever posts, in two steps with interrupts open
in between, by the tick (_ThreadTick) or by a signal (__sigMakeReady). -/

namespace SylixOS.EventWait
open Function

variable {T Q : Type*}

inductive SchedRet where
  | none
  | eintr
  | restart
  deriving DecidableEq, Repr

def SchedRet.set : SchedRet → SchedRet → SchedRet
  | .none, r => r
  | r, _ => r

structure Tcb (Q : Type*) where
  pend : Bool
  delay : Bool
  timeout : Bool
  /-- `TCB_peventPtr`, with the queue that `TCB_iPendQ` names -/
  event : Option Q

structure Waits (T Q : Type*) where
  tcb : T → Tcb Q
  queue : Q → List T

def Waits.empty : Waits T Q := ⟨fun _ => ⟨false, false, false, none⟩, fun _ => []⟩

/-- What a signal saves of the thread it interrupts (`LW_CLASS_SIGCTLMSG`): where the thread was,
`SIGCTLMSG_iSchedRet` and `SIGCTLMSG_ucWaitTimeout`. -/
structure Context (F : Type*) where
  frame : F
  ret : SchedRet
  timeout : Bool

/-- `_sigTimeoutRecalc` after `elapsed` ticks; no time is `LW_OPTION_WAIT_INFINITE`. -/
def sigTimeoutRecalc (elapsed : ℕ) : Option ℕ → Option ℕ
  | none => none
  | some timeout => if elapsed ≥ timeout then some 0 else some (timeout - elapsed)

section Operations

variable [DecidableEq T] [DecidableEq Q] (s : Waits T Q)

/-- `_EventWaitFifo` and `_EventWaitPriority`, with the fields that their caller sets; `delay`
says whether `TCB_ulDelay` is not zero. -/
def Waits.eventWait (t : T) (q : Q) (delay : Bool) : Waits T Q where
  tcb := update s.tcb t ⟨true, delay, false, some q⟩
  queue := update s.queue q (s.queue q ++ [t])

def Waits.eventQGetTcb (q : Q) (i : ℕ) : Option T := (s.queue q)[i % (s.queue q).length]?

def Waits.eventReadyLowLevel (q : Q) (i : ℕ) : Option (T × Waits T Q) :=
  (s.eventQGetTcb q i).map fun t =>
    (t, { tcb := update s.tcb t { s.tcb t with delay := false }
          queue := update s.queue q ((s.queue q).erase t) })

def Waits.eventReadyHighLevel (t : T) : Waits T Q :=
  let tcb := { s.tcb t with event := none }
  { s with
    tcb := update s.tcb t
      (if tcb.timeout then { tcb with timeout := false } else { tcb with pend := false }) }

def Waits.eventUnQueue (t : T) : Waits T Q :=
  match (s.tcb t).event with
  | none => s
  | some q =>
    { tcb := update s.tcb t { s.tcb t with event := none }
      queue := update s.queue q ((s.queue q).erase t) }

def Waits.threadTick (t : T) : Waits T Q :=
  let tcb := { s.tcb t with delay := false }
  if tcb.pend then
    ({ s with tcb := update s.tcb t { tcb with pend := false, timeout := true } }
      : Waits T Q).eventUnQueue t
  else
    { s with tcb := update s.tcb t { tcb with timeout := false } }

def Waits.sigMakeReady (t : T) (saType : SchedRet) : SchedRet × Waits T Q :=
  let tcb := s.tcb t
  if ¬ tcb.pend ∧ ¬ tcb.delay then (.none, s)
  else
    let ret := if tcb.delay then saType else .none
    let tcb := { tcb with delay := false }
    if tcb.pend then
      (saType,
        ({ s with tcb := update s.tcb t { tcb with pend := false, timeout := true } }
          : Waits T Q).eventUnQueue t)
    else
      (ret, { s with tcb := update s.tcb t { tcb with timeout := false } })

def Waits.restore (t : T) (timeout : Bool) : Waits T Q :=
  { s with tcb := update s.tcb t { s.tcb t with timeout := timeout } }

def Waits.leave (q : Q) (t : T) : Waits T Q where
  tcb := update s.tcb t ⟨false, false, true, none⟩
  queue := update s.queue q ((s.queue q).erase t)

end Operations

/-- A thread waits in the queue that its TCB names, until somebody takes it out; the threads of
`taken` are out and not yet ready. -/
structure Waits.Ok (s : Waits T Q) (taken : List T) : Prop where
  queued : ∀ q t, t ∈ s.queue q ↔ (s.tcb t).event = some q ∧ t ∉ taken
  waiting : ∀ t, (s.tcb t).pend = (s.tcb t).event.isSome
  untimed : ∀ t, (s.tcb t).pend = true → (s.tcb t).timeout = false
  delayed : ∀ t, (s.tcb t).delay = true → (s.tcb t).pend = true ∧ t ∉ taken
  nodup : ∀ q, (s.queue q).Nodup
  distinct : taken.Nodup
  held : ∀ t ∈ taken, (s.tcb t).pend = true

theorem Waits.ok_empty : (Waits.empty : Waits T Q).Ok [] := by
  constructor <;> simp [Waits.empty]

variable {s : Waits T Q} {taken : List T} {t : T} {q : Q}

theorem Waits.Ok.pend_of_mem (h : s.Ok taken) (ht : t ∈ s.queue q) : (s.tcb t).pend = true := by
  rw [h.waiting, ((h.queued q t).mp ht).1]
  rfl

theorem Waits.Ok.not_mem (h : s.Ok taken) (ht : (s.tcb t).pend = false) : t ∉ s.queue q := by
  intro hmem
  simp [h.pend_of_mem hmem] at ht

theorem Waits.Ok.not_taken (h : s.Ok taken) (ht : (s.tcb t).pend = false) : t ∉ taken := by
  intro hmem
  simp [h.held t hmem] at ht

theorem Waits.eventQGetTcb_none {i : ℕ} : s.eventQGetTcb q i = none ↔ s.queue q = [] := by
  unfold Waits.eventQGetTcb
  rw [List.getElem?_eq_none_iff]
  constructor
  · intro hle
    by_contra hne
    have hlt := Nat.mod_lt i (List.length_pos_of_ne_nil hne)
    omega
  · intro hnil
    simp [hnil]

variable [DecidableEq T]

theorem Waits.Ok.eventReadyHighLevel (h : s.Ok (t :: taken)) :
    (s.eventReadyHighLevel t).Ok taken ∧
      (s.eventReadyHighLevel t).tcb = update s.tcb t ⟨false, false, false, none⟩ := by
  have hpend := h.held t (by simp)
  have htimed := h.untimed t hpend
  have hdelay : (s.tcb t).delay = false := by
    by_contra hdelay
    simpa using (h.delayed t (by simpa using hdelay)).2
  have htcb : (s.eventReadyHighLevel t).tcb =
      update s.tcb t ⟨false, false, false, none⟩ := by
    simp [Waits.eventReadyHighLevel, htimed, hdelay]
  have hfree := (List.nodup_cons.mp h.distinct).1
  refine ⟨?_, htcb⟩
  constructor
  case queued =>
    intro r u
    rw [htcb]
    by_cases hu : u = t
    · simp [hu, Waits.eventReadyHighLevel, h.queued]
    · simp [hu, Waits.eventReadyHighLevel, h.queued]
  case waiting =>
    intro u
    rw [htcb]
    by_cases hu : u = t <;> simp [hu, h.waiting]
  case untimed =>
    intro u
    rw [htcb]
    by_cases hu : u = t
    · simp [hu]
    · simpa [hu] using h.untimed u
  case delayed =>
    intro u
    rw [htcb]
    by_cases hu : u = t
    · simp [hu]
    · simpa [hu] using h.delayed u
  case nodup => exact h.nodup
  case distinct => exact (List.nodup_cons.mp h.distinct).2
  case held =>
    intro u hu
    have hne : u ≠ t := fun he => hfree (he ▸ hu)
    rw [htcb]
    simpa [hne] using h.held u (by simp [hu])

theorem Waits.Ok.restore (h : s.Ok taken) (ht : (s.tcb t).pend = false) (timeout : Bool) :
    (s.restore t timeout).Ok taken := by
  constructor
  case queued =>
    intro r u
    by_cases hu : u = t <;> simp [Waits.restore, hu, h.queued]
  case waiting =>
    intro u
    by_cases hu : u = t <;> simp [Waits.restore, hu, h.waiting]
  case untimed =>
    intro u
    by_cases hu : u = t
    · simp [Waits.restore, hu, ht]
    · simpa [Waits.restore, hu] using h.untimed u
  case delayed =>
    intro u
    by_cases hu : u = t
    · simpa [Waits.restore, hu] using h.delayed t
    · simpa [Waits.restore, hu] using h.delayed u
  case nodup => exact h.nodup
  case distinct => exact h.distinct
  case held =>
    intro u hu
    have hne : u ≠ t := fun he => h.not_taken ht (he ▸ hu)
    simpa [Waits.restore, hne] using h.held u hu

variable [DecidableEq Q]

theorem Waits.Ok.eventWait (h : s.Ok taken) (ht : (s.tcb t).pend = false) (q : Q) (delay : Bool) :
    (s.eventWait t q delay).Ok taken := by
  have hout : ∀ q, t ∉ s.queue q := fun q => h.not_mem ht
  have hfree := h.not_taken ht
  constructor
  case queued =>
    intro r u
    by_cases hu : u = t <;> by_cases hr : r = q
    · simp [Waits.eventWait, hu, hr, hfree]
    · simp [Waits.eventWait, hu, hr, hout r, Ne.symm hr]
    · simp [Waits.eventWait, hu, hr, h.queued]
    · simp [Waits.eventWait, hu, hr, h.queued]
  case waiting =>
    intro u
    by_cases hu : u = t <;> simp [Waits.eventWait, hu, h.waiting]
  case untimed =>
    intro u
    by_cases hu : u = t <;> simp [Waits.eventWait, hu]
    exact h.untimed u
  case delayed =>
    intro u
    by_cases hu : u = t
    · simp [Waits.eventWait, hu, hfree]
    · simpa [Waits.eventWait, hu] using h.delayed u
  case nodup =>
    intro r
    by_cases hr : r = q
    · simpa [Waits.eventWait, hr] using List.Nodup.concat (hout q) (h.nodup q)
    · simpa [Waits.eventWait, hr] using h.nodup r
  case distinct => exact h.distinct
  case held =>
    intro u hu
    have hne : u ≠ t := fun he => hfree (he ▸ hu)
    simpa [Waits.eventWait, hne] using h.held u hu

theorem Waits.eventReadyLowLevel_none {i : ℕ} :
    s.eventReadyLowLevel q i = none ↔ s.queue q = [] := by
  unfold Waits.eventReadyLowLevel
  rw [Option.map_eq_none_iff, Waits.eventQGetTcb_none]

theorem Waits.Ok.eventReadyLowLevel (h : s.Ok taken) {i : ℕ} {s' : Waits T Q}
    (hlow : s.eventReadyLowLevel q i = some (t, s')) :
    t ∈ s.queue q ∧ s'.Ok (t :: taken) ∧
      s'.tcb = update s.tcb t { s.tcb t with delay := false } ∧
      s'.queue = update s.queue q ((s.queue q).erase t) := by
  unfold Waits.eventReadyLowLevel at hlow
  rw [Option.map_eq_some_iff] at hlow
  obtain ⟨u, hpick, heq⟩ := hlow
  obtain ⟨rfl, rfl⟩ := Prod.mk.inj heq
  have hmem : u ∈ s.queue q := List.mem_of_getElem? hpick
  obtain ⟨hevent, hfree⟩ := (h.queued q u).mp hmem
  have hpend := h.pend_of_mem hmem
  refine ⟨hmem, ?_, rfl, rfl⟩
  constructor
  case queued =>
    intro r v
    by_cases hv : v = u <;> by_cases hr : r = q
    · simp [hv, hr, (h.nodup q).mem_erase_iff]
    · simp [hv, hr, h.queued, hevent, Ne.symm hr]
    · simp [hv, hr, (h.nodup q).mem_erase_iff, h.queued]
    · simp [hv, hr, h.queued]
  case waiting =>
    intro v
    by_cases hv : v = u <;> simp [hv, h.waiting]
  case untimed =>
    intro v
    by_cases hv : v = u
    · simpa [hv] using h.untimed u
    · simpa [hv] using h.untimed v
  case delayed =>
    intro v
    by_cases hv : v = u
    · simp [hv]
    · simpa [hv] using h.delayed v
  case nodup =>
    intro r
    by_cases hr : r = q
    · simpa [hr] using (h.nodup q).erase u
    · simpa [hr] using h.nodup r
  case distinct => exact List.nodup_cons.mpr ⟨hfree, h.distinct⟩
  case held =>
    intro v hv
    by_cases hvu : v = u
    · simpa [hvu] using hpend
    · have hin : v ∈ taken := by simpa [hvu] using hv
      simpa [hvu] using h.held v hin

theorem Waits.Ok.leave (h : s.Ok taken) (ht : t ∈ s.queue q) : (s.leave q t).Ok taken := by
  obtain ⟨hevent, hfree⟩ := (h.queued q t).mp ht
  constructor
  case queued =>
    intro r u
    by_cases hu : u = t <;> by_cases hr : r = q
    · simp [Waits.leave, hu, hr, (h.nodup q).mem_erase_iff]
    · simp [Waits.leave, hu, hr, h.queued, hevent, Ne.symm hr]
    · simp [Waits.leave, hu, hr, (h.nodup q).mem_erase_iff, h.queued]
    · simp [Waits.leave, hu, hr, h.queued]
  case waiting =>
    intro u
    by_cases hu : u = t <;> simp [Waits.leave, hu, h.waiting]
  case untimed =>
    intro u
    by_cases hu : u = t
    · simp [Waits.leave, hu]
    · simpa [Waits.leave, hu] using h.untimed u
  case delayed =>
    intro u
    by_cases hu : u = t
    · simp [Waits.leave, hu]
    · simpa [Waits.leave, hu] using h.delayed u
  case nodup =>
    intro r
    by_cases hr : r = q
    · simpa [Waits.leave, hr] using (h.nodup q).erase t
    · simpa [Waits.leave, hr] using h.nodup r
  case distinct => exact h.distinct
  case held =>
    intro u hu
    have hne : u ≠ t := fun he => hfree (he ▸ hu)
    simpa [Waits.leave, hne] using h.held u hu

theorem Waits.Ok.unqueued (h : s.Ok taken) (hpend : (s.tcb t).pend = true) (hfree : t ∉ taken) :
    ∃ q, t ∈ s.queue q ∧
      (⟨update s.tcb t { s.tcb t with delay := false, pend := false, timeout := true },
        s.queue⟩ : Waits T Q).eventUnQueue t = s.leave q t := by
  have hevent : (s.tcb t).event.isSome = true := by rw [← h.waiting, hpend]
  obtain ⟨q, hq⟩ := Option.isSome_iff_exists.mp hevent
  refine ⟨q, (h.queued q t).mpr ⟨hq, hfree⟩, ?_⟩
  simp [Waits.eventUnQueue, Waits.leave, hq]

theorem Waits.Ok.threadTick (h : s.Ok taken) (hdelay : (s.tcb t).delay = true) :
    ∃ q, t ∈ s.queue q ∧ s.threadTick t = s.leave q t := by
  obtain ⟨hpend, hfree⟩ := h.delayed t hdelay
  obtain ⟨q, hq, hleave⟩ := h.unqueued hpend hfree
  refine ⟨q, hq, ?_⟩
  rw [← hleave]
  simp [Waits.threadTick, hpend]

theorem Waits.Ok.sigMakeReady (h : s.Ok taken) (hfree : t ∉ taken) (saType : SchedRet) :
    ((s.tcb t).pend = false ∧ s.sigMakeReady t saType = (.none, s)) ∨
      ∃ q, t ∈ s.queue q ∧ s.sigMakeReady t saType = (saType, s.leave q t) := by
  cases hpend : (s.tcb t).pend with
  | false =>
    have hdelay : (s.tcb t).delay = false := by
      by_contra hdelay
      have hwaits := (h.delayed t (by simpa using hdelay)).1
      simp [hpend] at hwaits
    left
    simp [Waits.sigMakeReady, hpend, hdelay]
  | true =>
    obtain ⟨q, hq, hleave⟩ := h.unqueued hpend hfree
    right
    refine ⟨q, hq, ?_⟩
    rw [← hleave]
    simp [Waits.sigMakeReady, hpend]

end SylixOS.EventWait
