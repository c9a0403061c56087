import SylixOS.EventWait
import SylixOS.StepRuns
import Mathlib.Algebra.BigOperators.Group.List.Basic
import Mathlib.Algebra.GroupWithZero.Nat

/-! Counting semaphores (SemaphoreCPend.c, SemaphoreCPost.c, SemaphoreCRelease.c). Threads
enter the kernel one at a time. A post or release under way holds the kernel but opens
interrupts between its locked sections; an interrupt may tick, post or release, to the
end, before the one it interrupted goes on. Signal handlers run in the thread they
interrupt. -/

namespace SylixOS.SemaphoreC
open EventWait StepRuns Function

variable {T : Type*} [DecidableEq T]

/-- Where a thread is in `API_SemaphoreCPend`: outside, at `__wait_again`, or in the
`__KERNEL_EXIT` behind its place in the queue, with what `_Schedule` will return and whether a
post has given it a unit (ghost). -/
inductive Frame where
  | idle
  | again (ulTimeout : Option ℕ)
  | asleep (ulTimeout : Option ℕ) (iSchedRet : SchedRet) (handed : Bool)
  deriving DecidableEq, Repr

inductive PendResult where
  | none
  | waitTimeout
  | eintr
  deriving DecidableEq, Repr

inductive PostResult where
  | none
  | eventNull
  | eventFull
  deriving DecidableEq, Repr

/-- A post or release under way: the units of the call, those it has still to deliver, and the
thread it has taken out of the queue and not yet made ready. -/
structure Poster (T : Type*) where
  all : ℕ
  left : ℕ
  readying : Option T

structure Return (T : Type*) where
  thread : T
  result : PendResult
  deriving DecidableEq

/-- A post or release that has returned: the units it was asked for, and those it has
delivered. -/
structure PostReturn where
  asked : ℕ
  result : PostResult
  units : ℕ
  deriving DecidableEq, Repr

structure State (T : Type*) where
  ulCounter : ℕ
  ulMaxCounter : ℕ
  signalInter : Bool
  waits : Waits T Unit
  frame : T → Frame
  saved : T → List (Context Frame)
  /-- The posts under way; each has interrupted the next one. -/
  posters : List (Poster T)
  /-- The threads that units have gone to (ghost). -/
  obtained : List T
  returns : List (Return T)
  posts : List PostReturn

def State.create (ulInitCounter ulMaxCounter : ℕ) (signalInter : Bool) : State T where
  ulCounter := ulInitCounter
  ulMaxCounter := ulMaxCounter
  signalInter := signalInter
  waits := Waits.empty
  frame := fun _ => .idle
  saved := fun _ => []
  posters := []
  obtained := []
  returns := []
  posts := []

def State.taken (s : State T) : List T := s.posters.filterMap Poster.readying

inductive Action (T : Type*) where
  | pend (t : T) (ulTimeout : Option ℕ)
  | enter (t : T)
  | wake (t : T) (elapsed : ℕ)
  | post (inIsr : Bool) (i : ℕ)
  | release (inIsr : Bool) (ulReleaseCounter : ℕ)
  | round (i : ℕ)
  | readyHigh
  | finish
  | tick (t : T)
  | signal (t : T) (saRestart : Bool)
  | sigReturn (t : T)
  deriving DecidableEq

variable (s : State T)

def State.ret (t : T) (result : PendResult) : State T :=
  { s with
    frame := update s.frame t .idle
    returns := ⟨t, result⟩ :: s.returns }

def semaphoreCPend (t : T) (ulTimeout : Option ℕ) : State T :=
  if s.ulCounter > 0 then
    { s with ulCounter := s.ulCounter - 1, obtained := t :: s.obtained }.ret t .none
  else if ulTimeout = some 0 then s.ret t .waitTimeout
  else
    { s with
      waits := s.waits.eventWait t () ulTimeout.isSome
      frame := update s.frame t (.asleep ulTimeout .none false) }

def semaphoreCWake (t : T) (ulTimeout : Option ℕ) (iSchedRet : SchedRet) (elapsed : ℕ) :
    State T :=
  if iSchedRet ≠ .none then
    if iSchedRet = .eintr ∧ s.signalInter then s.ret t .eintr
    else if sigTimeoutRecalc elapsed ulTimeout = some 0 then s.ret t .waitTimeout
    else
      { s with
        frame := update s.frame t (.again (sigTimeoutRecalc elapsed ulTimeout)) }
  else if (s.waits.tcb t).timeout then s.ret t .waitTimeout
  else s.ret t .none

inductive Delivery (T : Type*) where
  | handed (t : T) (s : State T)
  | stored (s : State T)
  | full

/-- The part that `API_SemaphoreCPost` and every round of `API_SemaphoreCRelease` have in common,
up to `_EventReadyHighLevel` -/
def deliver (i : ℕ) : Delivery T :=
  match s.waits.eventReadyLowLevel () i with
  | some (t, waits) =>
    .handed t { s with
      waits := waits
      frame := update s.frame t
        (match s.frame t with
        | .asleep ulTimeout iSchedRet _ => .asleep ulTimeout iSchedRet true
        | frame => frame)
      obtained := t :: s.obtained }
  | none =>
    if s.ulCounter < s.ulMaxCounter then .stored { s with ulCounter := s.ulCounter + 1 }
    else .full

def semaphoreCPost (i : ℕ) : State T :=
  match deliver s i with
  | .handed t s => { s with posters := ⟨1, 0, some t⟩ :: s.posters }
  | .stored s => { s with posts := ⟨1, .none, 1⟩ :: s.posts }
  | .full => { s with posts := ⟨1, .eventFull, 0⟩ :: s.posts }

def semaphoreCRelease (ulReleaseCounter : ℕ) : State T :=
  if ulReleaseCounter = 0 then { s with posts := ⟨0, .eventNull, 0⟩ :: s.posts }
  else { s with posters := ⟨ulReleaseCounter, ulReleaseCounter, none⟩ :: s.posters }

/-- One round of the loop of `API_SemaphoreCRelease`, up to `_EventReadyHighLevel`; behind it
`left` units are to be delivered. -/
def releaseRound (all left : ℕ) (outer : List (Poster T)) (i : ℕ) : State T :=
  match deliver s i with
  | .handed t s => { s with posters := ⟨all, left, some t⟩ :: outer }
  | .stored s => { s with posters := ⟨all, left, none⟩ :: outer }
  | .full => { s with
      posters := outer
      posts := ⟨all, .eventFull, all - (left + 1)⟩ :: s.posts }

def signalThread (t : T) (saType : SchedRet) : State T :=
  let r := s.waits.sigMakeReady t saType
  { s with
    waits := r.2
    frame := update s.frame t .idle
    saved := update s.saved t (⟨s.frame t, r.1, (r.2.tcb t).timeout⟩ :: s.saved t) }

def resumed (c : Context Frame) : Frame :=
  match c.frame with
  | .asleep ulTimeout iSchedRet handed => .asleep ulTimeout (iSchedRet.set c.ret) handed
  | frame => frame

/-- One step; `none` where it is not enabled. A thread enters the kernel, or is sent a signal,
only while nobody else holds it. -/
def step : Action T → Option (State T)
  | .pend t ulTimeout =>
    if s.frame t = .idle then
      some { s with frame := update s.frame t (.again ulTimeout) }
    else none
  | .enter t =>
    match s.frame t with
    | .again ulTimeout => if s.posters.isEmpty then some (semaphoreCPend s t ulTimeout) else none
    | _ => none
  | .wake t elapsed =>
    match s.frame t with
    | .asleep ulTimeout iSchedRet _ =>
      if (s.waits.tcb t).pend then none
      else some (semaphoreCWake s t ulTimeout iSchedRet elapsed)
    | _ => none
  | .post inIsr i => if inIsr ∨ s.posters.isEmpty then some (semaphoreCPost s i) else none
  | .release inIsr ulReleaseCounter =>
    if inIsr ∨ s.posters.isEmpty then some (semaphoreCRelease s ulReleaseCounter) else none
  | .round i =>
    match s.posters with
    | ⟨all, left + 1, none⟩ :: outer => some (releaseRound s all left outer i)
    | _ => none
  | .readyHigh =>
    match s.posters with
    | ⟨all, left, some t⟩ :: outer =>
      some { s with
        waits := s.waits.eventReadyHighLevel t
        posters := ⟨all, left, none⟩ :: outer }
    | _ => none
  | .finish =>
    match s.posters with
    | ⟨all, 0, none⟩ :: outer =>
      some { s with posters := outer, posts := ⟨all, .none, all⟩ :: s.posts }
    | _ => none
  | .tick t =>
    if (s.waits.tcb t).delay then some { s with waits := s.waits.threadTick t } else none
  | .signal t saRestart =>
    if s.posters.isEmpty then
      some (signalThread s t (if saRestart then .restart else .eintr))
    else none
  | .sigReturn t =>
    match s.frame t, s.saved t with
    | .idle, c :: saved =>
      some { s with
        waits := s.waits.restore t c.timeout
        frame := update s.frame t (resumed c)
        saved := update s.saved t saved }
    | _, _ => none

def Poster.units (p : Poster T) : ℕ := p.all - p.left

def State.accepted : ℕ :=
  (s.posts.map PostReturn.units).sum + (s.posters.map Poster.units).sum

def Frame.units : Frame → ℕ
  | .asleep _ _ handed => handed.toNat
  | _ => 0

@[simp] theorem Frame.units_idle : Frame.idle.units = 0 := rfl

@[simp] theorem Frame.units_again (ulTimeout : Option ℕ) : (Frame.again ulTimeout).units = 0 := rfl

@[simp] theorem Frame.units_asleep (ulTimeout : Option ℕ) (iSchedRet : SchedRet) (handed : Bool) :
    (Frame.asleep ulTimeout iSchedRet handed).units = handed.toNat := rfl

/-- The waits of a thread that have been handed a unit and not yet returned. -/
def State.handed (t : T) : ℕ :=
  ((s.frame t :: (s.saved t).map Context.frame).map Frame.units).sum

/-- `ERROR_NONE` is returned for all the units, `ERROR_EVENT_FULL` for a part of them. -/
def PostReturn.Ok (r : PostReturn) : Prop :=
  match r.result with
  | .none => r.units = r.asked
  | .eventNull => r.asked = 0 ∧ r.units = 0
  | .eventFull => r.units < r.asked

variable {s}

def Settled (iSchedRet : SchedRet) (timeout handed : Bool) : Prop :=
  handed = true ↔ iSchedRet = .none ∧ timeout = false

def FrameOk (tcb : Tcb Unit) (taken : Prop) : Frame → Prop
  | .asleep _ iSchedRet handed =>
    if tcb.pend then iSchedRet = .none ∧ (handed = true ↔ taken)
    else Settled iSchedRet tcb.timeout handed
  | _ => tcb.pend = false

def SavedOk (c : Context Frame) : Prop :=
  match c.frame with
  | .asleep _ iSchedRet handed => Settled (iSchedRet.set c.ret) c.timeout handed
  | _ => True

structure Booked (posters : List (Poster T)) (posts : List PostReturn) : Prop where
  posters : ∀ p ∈ posters, p.left ≤ p.all
  posts : ∀ r ∈ posts, r.Ok

structure Conserved (ulInitCounter : ℕ) (s : State T) : Prop where
  ok : s.waits.Ok s.taken
  units : s.ulCounter + s.obtained.length = ulInitCounter + s.accepted
  bound : s.ulCounter ≤ s.ulMaxCounter
  fair : 0 < s.ulCounter → s.waits.queue () = []
  frame : ∀ t, FrameOk (s.waits.tcb t) (t ∈ s.taken) (s.frame t)
  saved : ∀ t, ∀ c ∈ s.saved t, SavedOk c
  given : ∀ t, s.obtained.count t = s.returns.count ⟨t, .none⟩ + s.handed t
  booked : Booked s.posters s.posts

variable {ulInitCounter : ℕ} {t : T} {posters : List (Poster T)} {posts : List PostReturn}

omit [DecidableEq T] in
theorem Booked.tail {p : Poster T} (h : Booked (p :: posters) posts) : Booked posters posts :=
  ⟨fun q hq => h.posters q (List.mem_cons_of_mem p hq), h.posts⟩

omit [DecidableEq T] in
theorem Booked.poster (h : Booked posters posts) {p : Poster T} (hp : p.left ≤ p.all) :
    Booked (p :: posters) posts := by
  constructor
  case posters =>
    intro q hq
    rcases List.mem_cons.mp hq with rfl | hq
    · exact hp
    · exact h.posters q hq
  case posts => exact h.posts

omit [DecidableEq T] in
theorem Booked.post (h : Booked posters posts) {r : PostReturn} (hr : r.Ok) :
    Booked posters (r :: posts) := by
  constructor
  case posters => exact h.posters
  case posts =>
    intro q hq
    rcases List.mem_cons.mp hq with rfl | hq
    · exact hr
    · exact h.posts q hq

theorem conserved_create {ulMaxCounter : ℕ} (h : ulInitCounter ≤ ulMaxCounter)
    (signalInter : Bool) :
    Conserved ulInitCounter (State.create ulInitCounter ulMaxCounter signalInter : State T) := by
  constructor
  case ok => exact Waits.ok_empty
  case units => rfl
  case bound => exact h
  case fair => exact fun _ => rfl
  case frame => exact fun t => rfl
  case saved => exact fun t c hc => nomatch hc
  case given => exact fun t => rfl
  case booked => constructor <;> simp [State.create]

theorem Conserved.running (h : Conserved ulInitCounter s)
    (hframe : ∀ ulTimeout iSchedRet handed, s.frame t ≠ .asleep ulTimeout iSchedRet handed) :
    (s.waits.tcb t).pend = false := by
  have hok := h.frame t
  cases hf : s.frame t with
  | asleep ulTimeout iSchedRet handed => exact absurd hf (hframe ulTimeout iSchedRet handed)
  | idle => simpa [FrameOk, hf] using hok
  | again ulTimeout => simpa [FrameOk, hf] using hok

theorem Conserved.asleep (h : Conserved ulInitCounter s) (hpend : (s.waits.tcb t).pend = true) :
    ∃ ulTimeout handed, s.frame t = .asleep ulTimeout .none handed ∧
      (handed = true ↔ t ∈ s.taken) := by
  have hok := h.frame t
  cases hf : s.frame t with
  | idle => simp [hf, FrameOk, hpend] at hok
  | again ulTimeout => simp [hf, FrameOk, hpend] at hok
  | asleep ulTimeout iSchedRet handed =>
    simp only [hf, FrameOk, hpend, if_true] at hok
    obtain ⟨rfl, hhanded⟩ := hok
    exact ⟨ulTimeout, handed, rfl, hhanded⟩

theorem Conserved.frame_other (h : Conserved ulInitCounter s) {tcb : Tcb Unit} {frame : Frame}
    {taken : List T} (hself : FrameOk tcb (t ∈ taken) frame)
    (hothers : ∀ u, u ≠ t → (u ∈ taken ↔ u ∈ s.taken)) (u : T) :
    FrameOk (update s.waits.tcb t tcb u) (u ∈ taken)
      (update s.frame t frame u) := by
  by_cases hu : u = t
  · simpa [hu] using hself
  · simpa [hu, hothers u hu] using h.frame u

theorem Conserved.frame_move (h : Conserved ulInitCounter s) {frame : Frame}
    (hself : FrameOk (s.waits.tcb t) (t ∈ s.taken) frame) (u : T) :
    FrameOk (s.waits.tcb u) (u ∈ s.taken) (update s.frame t frame u) := by
  have hframe := h.frame_other hself (fun _ _ => Iff.rfl) u
  rwa [update_eq_self] at hframe

theorem State.handed_frame (s : State T) (t : T) (f : Frame) (u : T) :
    ({ s with frame := update s.frame t f } : State T).handed u +
        (if u = t then (s.frame t).units else 0) =
      s.handed u + if u = t then f.units else 0 := by
  by_cases hu : u = t
  · subst hu
    simp only [State.handed, update_self, if_true, List.map_cons, List.sum_cons]
    omega
  · simp [State.handed, hu]

theorem State.returns_ret (s : State T) (t : T) (result : PendResult) (u : T) :
    (s.ret t result).returns.count ⟨u, .none⟩ =
      s.returns.count ⟨u, .none⟩ + if u = t ∧ result = .none then 1 else 0 := by
  unfold State.ret
  rw [List.count_cons]
  by_cases hu : t = u
  · simp [hu]
  · simp [hu, Ne.symm hu]

theorem Conserved.given_frame (h : Conserved ulInitCounter s) {f : Frame}
    (hf : f.units = (s.frame t).units) (u : T) :
    s.obtained.count u = s.returns.count ⟨u, .none⟩ +
      ({ s with frame := update s.frame t f } : State T).handed u := by
  have hgiven := h.given u
  have hhanded := s.handed_frame t f u
  rw [hf] at hhanded
  omega

theorem Conserved.ret (h : Conserved ulInitCounter s) (hpend : (s.waits.tcb t).pend = false)
    {result : PendResult} (hunit : (s.frame t).units = if result = .none then 1 else 0) :
    Conserved ulInitCounter (s.ret t result) := by
  constructor
  case ok => exact h.ok
  case units => exact h.units
  case bound => exact h.bound
  case fair => exact h.fair
  case frame => exact h.frame_move (by simpa [FrameOk] using hpend)
  case saved => exact h.saved
  case given =>
    intro u
    have hgiven := h.given u
    have hhanded : (s.ret t result).handed u + _ = _ := s.handed_frame t .idle u
    have hreturns := s.returns_ret t result u
    by_cases hu : u = t
    · simp only [hu, Frame.units_idle, true_and, if_true] at hgiven hhanded hreturns ⊢
      change s.obtained.count t = _
      omega
    · simp only [hu, false_and, if_false] at hhanded hreturns
      change s.obtained.count u = _
      omega
  case booked => exact h.booked

theorem Conserved.pay (h : Conserved ulInitCounter s) (hpend : (s.waits.tcb t).pend = false)
    (hframe : (s.frame t).units = 0) (hunit : 0 < s.ulCounter) :
    Conserved ulInitCounter
      (State.ret { s with ulCounter := s.ulCounter - 1, obtained := t :: s.obtained } t .none) := by
  have hunits := h.units
  have hbound := h.bound
  constructor
  case ok => exact h.ok
  case units =>
    change s.ulCounter - 1 + (s.obtained.length + 1) = ulInitCounter + s.accepted
    omega
  case bound =>
    change s.ulCounter - 1 ≤ s.ulMaxCounter
    omega
  case fair => exact fun _ => h.fair hunit
  case frame => exact h.frame_move (by simpa [FrameOk] using hpend)
  case saved => exact h.saved
  case given =>
    intro u
    have hgiven := h.given u
    have hhanded : (s.ret t .none).handed u + _ = _ := s.handed_frame t .idle u
    have hreturns := s.returns_ret t .none u
    change (t :: s.obtained).count u =
      (s.ret t .none).returns.count ⟨u, .none⟩ + (s.ret t .none).handed u
    by_cases hu : u = t
    · simp only [hu, Frame.units_idle, and_self, if_true, List.count_cons_self]
        at hgiven hhanded hreturns ⊢
      omega
    · simp only [hu, false_and, if_false, List.count_cons_of_ne (Ne.symm hu)]
        at hhanded hreturns ⊢
      omega
  case booked => exact h.booked

theorem Conserved.move (h : Conserved ulInitCounter s) (hpend : (s.waits.tcb t).pend = false)
    (hframe : (s.frame t).units = 0) (ulTimeout : Option ℕ) :
    Conserved ulInitCounter { s with frame := update s.frame t (.again ulTimeout) } := by
  constructor
  case ok => exact h.ok
  case units => exact h.units
  case bound => exact h.bound
  case fair => exact h.fair
  case frame => exact h.frame_move (by simpa [FrameOk] using hpend)
  case saved => exact h.saved
  case given => exact h.given_frame (by simp [hframe])
  case booked => exact h.booked

theorem Conserved.semaphoreCPend (h : Conserved ulInitCounter s)
    (hpend : (s.waits.tcb t).pend = false) (hframe : (s.frame t).units = 0)
    (ulTimeout : Option ℕ) :
    Conserved ulInitCounter (semaphoreCPend s t ulTimeout) := by
  unfold SemaphoreC.semaphoreCPend
  split
  case isTrue hunit => exact h.pay hpend hframe hunit
  case isFalse hnone =>
    split
    case isTrue => exact h.ret hpend (by simp [hframe])
    case isFalse =>
      have hfree := h.ok.not_taken hpend
      constructor
      case ok => exact h.ok.eventWait hpend () _
      case units => exact h.units
      case bound => exact h.bound
      case fair => exact fun hpos => absurd hpos hnone
      case frame =>
        apply h.frame_other
        · simp only [FrameOk, if_true]
          simpa [State.taken] using hfree
        · exact fun _ _ => Iff.rfl
      case saved => exact h.saved
      case given => exact h.given_frame (by simp [hframe])
      case booked => exact h.booked

theorem Conserved.semaphoreCWake (h : Conserved ulInitCounter s) {ulTimeout : Option ℕ}
    {iSchedRet : SchedRet} {handed : Bool}
    (hframe : s.frame t = .asleep ulTimeout iSchedRet handed)
    (hpend : (s.waits.tcb t).pend = false) (elapsed : ℕ) :
    Conserved ulInitCounter (semaphoreCWake s t ulTimeout iSchedRet elapsed) := by
  have hsettled : Settled iSchedRet (s.waits.tcb t).timeout handed := by
    simpa [FrameOk, hframe, hpend] using h.frame t
  unfold Settled at hsettled
  have hunits : (s.frame t).units = if handed = true then 1 else 0 := by
    cases handed <;> simp [hframe]
  unfold SemaphoreC.semaphoreCWake
  split
  case isTrue hret =>
    have hunhanded : handed ≠ true := by simp [hsettled, hret]
    have hnone : (s.frame t).units = 0 := by simp [hunits, hunhanded]
    split
    case isTrue => exact h.ret hpend (by simp [hnone])
    case isFalse =>
      split
      case isTrue => exact h.ret hpend (by simp [hnone])
      case isFalse => exact h.move hpend hnone _
  case isFalse hret =>
    have hret : iSchedRet = .none := by simpa using hret
    split
    case isTrue htimeout => exact h.ret hpend (by simp [hunits, hsettled, htimeout])
    case isFalse htimeout =>
      have hhanded : handed = true := by simpa [hsettled, hret] using htimeout
      exact h.ret hpend (by simp [hunits, hhanded])

theorem Conserved.deliver (h : Conserved ulInitCounter s) (i : ℕ) :
    (∃ t waits ulTimeout, s.waits.eventReadyLowLevel () i = some (t, waits) ∧
        s.frame t = .asleep ulTimeout .none false ∧
        deliver s i = .handed t { s with
          waits := waits
          frame := update s.frame t (.asleep ulTimeout .none true)
          obtained := t :: s.obtained }) ∨
      (s.waits.queue () = [] ∧ s.ulCounter < s.ulMaxCounter ∧
        deliver s i = .stored { s with ulCounter := s.ulCounter + 1 }) ∨
      (s.waits.queue () = [] ∧ s.ulCounter = s.ulMaxCounter ∧ deliver s i = .full) := by
  cases hlow : s.waits.eventReadyLowLevel () i with
  | none =>
    have hempty := Waits.eventReadyLowLevel_none.mp hlow
    right
    by_cases hlt : s.ulCounter < s.ulMaxCounter
    · exact Or.inl ⟨hempty, hlt, by simp [SemaphoreC.deliver, hlow, hlt]⟩
    · have hbound := h.bound
      exact Or.inr ⟨hempty, by omega, by simp [SemaphoreC.deliver, hlow, hlt]⟩
  | some r =>
    obtain ⟨t, waits⟩ := r
    have hmem := (h.ok.eventReadyLowLevel hlow).1
    have hpend := h.ok.pend_of_mem hmem
    have hfree : t ∉ s.taken := ((h.ok.queued () t).mp hmem).2
    obtain ⟨ulTimeout, handed, hf, hhanded⟩ := h.asleep hpend
    obtain rfl : handed = false := by simpa [hfree] using hhanded
    left
    exact ⟨t, waits, ulTimeout, rfl, hf, by simp [SemaphoreC.deliver, hlow, hf]⟩

theorem Conserved.handed (h : Conserved ulInitCounter s) {i : ℕ} {waits : Waits T Unit}
    {ulTimeout : Option ℕ} (hlow : s.waits.eventReadyLowLevel () i = some (t, waits))
    (hframe : s.frame t = .asleep ulTimeout .none false)
    (hposters : posters.filterMap Poster.readying = t :: s.taken)
    (haccepted : (posters.map Poster.units).sum = (s.posters.map Poster.units).sum + 1)
    (hbooked : Booked posters s.posts) :
    Conserved ulInitCounter { s with
      waits := waits
      frame := update s.frame t (.asleep ulTimeout .none true)
      obtained := t :: s.obtained
      posters := posters } := by
  obtain ⟨hmem, hok, htcb, hqueue⟩ := h.ok.eventReadyLowLevel hlow
  have hpend := h.ok.pend_of_mem hmem
  have hunits := h.units
  constructor
  case ok => simpa [State.taken, hposters] using hok
  case units =>
    simp only [State.accepted, haccepted, List.length_cons] at hunits ⊢
    omega
  case bound => exact h.bound
  case fair =>
    intro hpos
    rw [h.fair hpos] at hmem
    exact nomatch hmem
  case frame =>
    intro u
    dsimp only [State.taken]
    rw [htcb, hposters]
    apply h.frame_other
    · simp [FrameOk, hpend]
    · intro v hv
      simp [hv]
  case saved => exact h.saved
  case given =>
    intro u
    have hgiven := h.given u
    have hhanded := s.handed_frame t (.asleep ulTimeout .none true) u
    change (t :: s.obtained).count u = s.returns.count ⟨u, .none⟩ +
      ({ s with frame := update s.frame t (.asleep ulTimeout .none true) } : State T).handed u
    by_cases hu : u = t
    · simp only [hu, hframe, Frame.units_asleep, Bool.toNat_true, Bool.toNat_false, if_true,
        List.count_cons_self] at hgiven hhanded ⊢
      omega
    · simp only [hu, if_false, List.count_cons_of_ne (Ne.symm hu)] at hhanded ⊢
      omega
  case booked => exact hbooked

theorem Conserved.stored (h : Conserved ulInitCounter s) (hempty : s.waits.queue () = [])
    (hlt : s.ulCounter < s.ulMaxCounter)
    (hposters : posters.filterMap Poster.readying = s.taken)
    (haccepted : (posts.map PostReturn.units).sum + (posters.map Poster.units).sum =
      s.accepted + 1)
    (hbooked : Booked posters posts) :
    Conserved ulInitCounter { s with
      ulCounter := s.ulCounter + 1
      posters := posters
      posts := posts } := by
  have hunits := h.units
  constructor
  case ok => simpa [State.taken, hposters] using h.ok
  case units =>
    change s.ulCounter + 1 + s.obtained.length = ulInitCounter + (_ + _)
    rw [haccepted]
    omega
  case bound => exact hlt
  case fair => exact fun _ => hempty
  case frame => simpa [State.taken, hposters] using h.frame
  case saved => exact h.saved
  case given => exact h.given
  case booked => exact hbooked

theorem Conserved.report (h : Conserved ulInitCounter s)
    (hposters : posters.filterMap Poster.readying = s.taken)
    (haccepted : (posts.map PostReturn.units).sum + (posters.map Poster.units).sum = s.accepted)
    (hbooked : Booked posters posts) :
    Conserved ulInitCounter { s with posters := posters, posts := posts } := by
  constructor
  case ok => simpa [State.taken, hposters] using h.ok
  case units =>
    change s.ulCounter + s.obtained.length = ulInitCounter + (_ + _)
    rw [haccepted]
    exact h.units
  case bound => exact h.bound
  case fair => exact h.fair
  case frame => simpa [State.taken, hposters] using h.frame
  case saved => exact h.saved
  case given => exact h.given
  case booked => exact hbooked

theorem Conserved.semaphoreCPost (h : Conserved ulInitCounter s) (i : ℕ) :
    Conserved ulInitCounter (semaphoreCPost s i) := by
  unfold SemaphoreC.semaphoreCPost
  rcases h.deliver i with ⟨t, waits, ulTimeout, hlow, hframe, hd⟩ | ⟨hempty, hlt, hd⟩ |
    ⟨-, -, hd⟩
  · rw [hd]
    apply h.handed hlow hframe
    · simp [State.taken]
    · simp [Poster.units]
      omega
    · exact h.booked.poster (by simp)
  · rw [hd]
    apply h.stored hempty hlt rfl
    · simp [State.accepted]
      omega
    · exact h.booked.post rfl
  · rw [hd]
    apply h.report rfl
    · simp [State.accepted]
    · exact h.booked.post Nat.one_pos

theorem Conserved.semaphoreCRelease (h : Conserved ulInitCounter s) (ulReleaseCounter : ℕ) :
    Conserved ulInitCounter (semaphoreCRelease s ulReleaseCounter) := by
  unfold SemaphoreC.semaphoreCRelease
  split
  case isTrue =>
    apply h.report rfl
    · simp [State.accepted]
    · exact h.booked.post ⟨rfl, rfl⟩
  case isFalse =>
    apply h.report
    · simp [State.taken]
    · simp [State.accepted, Poster.units]
    · exact h.booked.poster (Nat.le_refl _)

theorem Conserved.releaseRound (h : Conserved ulInitCounter s) {all left : ℕ}
    {outer : List (Poster T)} (hposters : s.posters = ⟨all, left + 1, none⟩ :: outer) (i : ℕ) :
    Conserved ulInitCounter (releaseRound s all left outer i) := by
  have htaken : s.taken = outer.filterMap Poster.readying := by simp [State.taken, hposters]
  have hbooked := h.booked
  rw [hposters] at hbooked
  have hleft : left + 1 ≤ all := hbooked.posters _ List.mem_cons_self
  have houter := hbooked.tail
  unfold SemaphoreC.releaseRound
  rcases h.deliver i with ⟨t, waits, ulTimeout, hlow, hframe, hd⟩ | ⟨hempty, hlt, hd⟩ |
    ⟨-, -, hd⟩
  · rw [hd]
    apply h.handed hlow hframe
    · simp [htaken]
    · simp only [hposters, Poster.units, List.map_cons, List.sum_cons]
      omega
    · exact houter.poster (Nat.le_of_succ_le hleft)
  · rw [hd]
    apply h.stored hempty hlt
    · simp [htaken]
    · simp only [State.accepted, hposters, Poster.units, List.map_cons, List.sum_cons]
      omega
    · exact houter.poster (Nat.le_of_succ_le hleft)
  · rw [hd]
    apply h.report htaken.symm
    · simp only [State.accepted, hposters, Poster.units, List.map_cons, List.sum_cons]
      omega
    · apply houter.post
      change all - (left + 1) < all
      omega

theorem Conserved.finish (h : Conserved ulInitCounter s) {all : ℕ} {outer : List (Poster T)}
    (hposters : s.posters = ⟨all, 0, none⟩ :: outer) :
    Conserved ulInitCounter
      { s with posters := outer, posts := ⟨all, .none, all⟩ :: s.posts } := by
  have hbooked := h.booked
  rw [hposters] at hbooked
  apply h.report
  · simp [State.taken, hposters]
  · simp only [State.accepted, hposters, Poster.units, List.map_cons, List.sum_cons]
    omega
  · exact hbooked.tail.post rfl

theorem Conserved.readyHigh (h : Conserved ulInitCounter s) {all left : ℕ}
    {outer : List (Poster T)} (hposters : s.posters = ⟨all, left, some t⟩ :: outer) :
    Conserved ulInitCounter { s with
      waits := s.waits.eventReadyHighLevel t
      posters := ⟨all, left, none⟩ :: outer } := by
  have htaken : s.taken = t :: outer.filterMap Poster.readying := by
    simp [State.taken, hposters]
  have hok := h.ok
  rw [htaken] at hok
  obtain ⟨hready, htcb⟩ := hok.eventReadyHighLevel
  obtain ⟨ulTimeout, handed, hf, hhanded⟩ := h.asleep (hok.held t (by simp))
  constructor
  case ok => simpa [State.taken] using hready
  case units => simpa [State.accepted, hposters, Poster.units] using h.units
  case bound => exact h.bound
  case fair => exact h.fair
  case frame =>
    intro u
    dsimp only [State.taken]
    rw [htcb]
    by_cases hu : u = t
    · subst hu
      simp [hf, FrameOk, Settled, hhanded, htaken]
    · have hother := h.frame u
      rw [htaken] at hother
      simpa [hu] using hother
  case saved => exact h.saved
  case given => exact h.given
  case booked =>
    have hbooked := h.booked
    rw [hposters] at hbooked
    have hleft : left ≤ all := hbooked.posters _ List.mem_cons_self
    exact hbooked.tail.poster hleft

theorem Conserved.tick (h : Conserved ulInitCounter s) (hdelay : (s.waits.tcb t).delay = true) :
    Conserved ulInitCounter { s with waits := s.waits.threadTick t } := by
  obtain ⟨⟨⟩, hmem, htick⟩ := h.ok.threadTick hdelay
  have hfree := ((h.ok.queued () t).mp hmem).2
  obtain ⟨ulTimeout, handed, hf, hhanded⟩ := h.asleep (h.ok.pend_of_mem hmem)
  rw [htick]
  constructor
  case ok => exact h.ok.leave hmem
  case units => exact h.units
  case bound => exact h.bound
  case fair =>
    intro hpos
    rw [h.fair hpos] at hmem
    exact nomatch hmem
  case frame =>
    intro u
    by_cases hu : u = t
    · subst hu
      simpa [hf, FrameOk, Settled, Waits.leave, hfree] using hhanded
    · have hother := h.frame u
      simpa [Waits.leave, hu, State.taken] using hother
  case saved => exact h.saved
  case given => exact h.given
  case booked => exact h.booked

theorem State.handed_signal (s : State T) (t : T) (ret : SchedRet) (timeout : Bool) (u : T) :
    ((update s.frame t .idle u ::
        (update s.saved t (⟨s.frame t, ret, timeout⟩ :: s.saved t) u).map Context.frame).map
      Frame.units).sum = s.handed u := by
  by_cases hu : u = t
  · simp [State.handed, hu]
  · simp [State.handed, hu]

omit [DecidableEq T] in
theorem resumed_units (c : Context Frame) : (resumed c).units = c.frame.units := by
  unfold resumed
  cases c.frame with
  | idle | again ulTimeout | asleep ulTimeout iSchedRet handed => rfl

theorem Conserved.saved_signal (h : Conserved ulInitCounter s) {c : Context Frame}
    (hc : SavedOk c) (u : T) : ∀ d ∈ update s.saved t (c :: s.saved t) u, SavedOk d := by
  intro d hd
  by_cases hu : u = t
  · subst hu
    simp only [update_self, List.mem_cons] at hd
    rcases hd with rfl | hd
    · exact hc
    · exact h.saved u d hd
  · exact h.saved u d (by simpa [hu] using hd)

theorem Conserved.signalThread (h : Conserved ulInitCounter s) (hposters : s.posters = [])
    {saType : SchedRet} (hsa : saType ≠ .none) :
    Conserved ulInitCounter (signalThread s t saType) := by
  have htaken : s.taken = [] := by simp [State.taken, hposters]
  unfold SemaphoreC.signalThread
  rcases h.ok.sigMakeReady (t := t) (by simp [htaken]) saType with
    ⟨hpend, hr⟩ | ⟨⟨⟩, hmem, hr⟩
  · -- the thread was ready: what it was about to find stays
    rw [hr]
    constructor
    case ok => exact h.ok
    case units => exact h.units
    case bound => exact h.bound
    case fair => exact h.fair
    case frame => exact h.frame_move (by simpa [FrameOk] using hpend)
    case saved =>
      apply h.saved_signal
      cases hf : s.frame t with
      | idle | again ulTimeout => simp [SavedOk]
      | asleep ulTimeout iSchedRet handed =>
        have hsettled : Settled iSchedRet (s.waits.tcb t).timeout handed := by
          simpa [FrameOk, hf, hpend] using h.frame t
        cases iSchedRet <;> simpa [SavedOk, SchedRet.set] using hsettled
    case given =>
      intro u
      rw [h.given u, ← s.handed_signal t]
      rfl
    case booked => exact h.booked
  · -- the thread waited: it leaves with a return value, and without a unit
    obtain ⟨ulTimeout, handed, hf, hhanded⟩ := h.asleep (h.ok.pend_of_mem hmem)
    rw [hr]
    constructor
    case ok => exact h.ok.leave hmem
    case units => exact h.units
    case bound => exact h.bound
    case fair =>
      intro hpos
      rw [h.fair hpos] at hmem
      exact nomatch hmem
    case frame =>
      intro u
      by_cases hu : u = t
      · simp [hu, FrameOk, Waits.leave]
      · simpa [Waits.leave, hu, State.taken] using h.frame u
    case saved =>
      apply h.saved_signal
      simp only [htaken, List.not_mem_nil, iff_false] at hhanded
      simp [hf, SavedOk, Settled, SchedRet.set, hhanded, hsa]
    case given =>
      intro u
      rw [h.given u, ← s.handed_signal t]
      rfl
    case booked => exact h.booked

theorem Conserved.sigReturn (h : Conserved ulInitCounter s) {c : Context Frame}
    {rest : List (Context Frame)} (hidle : s.frame t = .idle) (hsaved : s.saved t = c :: rest) :
    Conserved ulInitCounter { s with
      waits := s.waits.restore t c.timeout
      frame := update s.frame t (resumed c)
      saved := update s.saved t rest } := by
  have hpend := h.running (t := t) (by simp [hidle])
  have hc := h.saved t c (by simp [hsaved])
  constructor
  case ok => exact h.ok.restore hpend c.timeout
  case units => exact h.units
  case bound => exact h.bound
  case fair => exact h.fair
  case frame =>
    intro u
    apply h.frame_other
    · unfold SavedOk at hc
      unfold resumed
      cases hf : c.frame with
      | idle => simpa [FrameOk] using hpend
      | again ulTimeout => simpa [FrameOk] using hpend
      | asleep ulTimeout iSchedRet handed => simpa [FrameOk, hpend, hf] using hc
    · exact fun _ _ => Iff.rfl
  case saved =>
    intro u d hd
    by_cases hu : u = t
    · subst hu
      exact h.saved u d (by simp [hsaved, show d ∈ rest by simpa using hd])
    · exact h.saved u d (by simpa [hu] using hd)
  case given =>
    intro u
    rw [h.given u]
    by_cases hu : u = t
    · simp [State.handed, hu, hidle, hsaved, resumed_units]
    · simp [State.handed, hu]
  case booked => exact h.booked

theorem Conserved.step (h : Conserved ulInitCounter s) {a : Action T} {s' : State T}
    (hstep : step s a = some s') : Conserved ulInitCounter s' := by
  cases a with
  | pend t ulTimeout =>
    simp only [SemaphoreC.step] at hstep
    split at hstep
    case isFalse => cases hstep
    case isTrue hidle =>
      obtain rfl := Option.some.inj hstep
      exact h.move (h.running (by simp [hidle])) (by simp [hidle]) ulTimeout
  | enter t =>
    simp only [SemaphoreC.step] at hstep
    split at hstep
    case h_2 => cases hstep
    case h_1 ulTimeout hframe =>
      split at hstep
      case isFalse => cases hstep
      case isTrue =>
        obtain rfl := Option.some.inj hstep
        exact h.semaphoreCPend (h.running (by simp [hframe])) (by simp [hframe]) _
  | wake t elapsed =>
    simp only [SemaphoreC.step] at hstep
    split at hstep
    case h_2 => cases hstep
    case h_1 ulTimeout iSchedRet handed hframe =>
      split at hstep
      case isTrue => cases hstep
      case isFalse hready =>
        obtain rfl := Option.some.inj hstep
        exact h.semaphoreCWake hframe (by simpa using hready) elapsed
  | post inIsr i =>
    simp only [SemaphoreC.step] at hstep
    split at hstep
    case isFalse => cases hstep
    case isTrue =>
      obtain rfl := Option.some.inj hstep
      exact h.semaphoreCPost i
  | release inIsr ulReleaseCounter =>
    simp only [SemaphoreC.step] at hstep
    split at hstep
    case isFalse => cases hstep
    case isTrue =>
      obtain rfl := Option.some.inj hstep
      exact h.semaphoreCRelease ulReleaseCounter
  | round i =>
    simp only [SemaphoreC.step] at hstep
    split at hstep
    case h_2 => cases hstep
    case h_1 all left outer hposters =>
      obtain rfl := Option.some.inj hstep
      exact h.releaseRound hposters i
  | readyHigh =>
    simp only [SemaphoreC.step] at hstep
    split at hstep
    case h_2 => cases hstep
    case h_1 all left t outer hposters =>
      obtain rfl := Option.some.inj hstep
      exact h.readyHigh hposters
  | finish =>
    simp only [SemaphoreC.step] at hstep
    split at hstep
    case h_2 => cases hstep
    case h_1 all outer hposters =>
      obtain rfl := Option.some.inj hstep
      exact h.finish hposters
  | tick t =>
    simp only [SemaphoreC.step] at hstep
    split at hstep
    case isFalse => cases hstep
    case isTrue hdelay =>
      obtain rfl := Option.some.inj hstep
      exact h.tick hdelay
  | signal t saRestart =>
    simp only [SemaphoreC.step] at hstep
    split at hstep
    case isFalse => cases hstep
    case isTrue hposters =>
      obtain rfl := Option.some.inj hstep
      exact h.signalThread (by simpa using hposters) (by cases saRestart <;> simp)
  | sigReturn t =>
    simp only [SemaphoreC.step] at hstep
    split at hstep
    case h_2 => cases hstep
    case h_1 c rest hidle hsaved =>
      obtain rfl := Option.some.inj hstep
      exact h.sigReturn hidle hsaved

def State.fulls (s : State T) : ℕ := (s.posts.map PostReturn.result).count .eventFull

theorem semaphoreCPend_posts (s : State T) (t : T) (ulTimeout : Option ℕ) :
    (semaphoreCPend s t ulTimeout).posts = s.posts := by
  unfold semaphoreCPend
  split
  · rfl
  · split <;> rfl

theorem semaphoreCWake_posts (s : State T) (t : T) (ulTimeout : Option ℕ) (iSchedRet : SchedRet)
    (elapsed : ℕ) : (semaphoreCWake s t ulTimeout iSchedRet elapsed).posts = s.posts := by
  unfold semaphoreCWake
  split
  · split
    · rfl
    · split <;> rfl
  · split <;> rfl

/-- The step in which a call returns `ERROR_EVENT_FULL` finds a full counter and nobody in the
queue, and changes neither. -/
def FullStep (s s' : State T) : Prop :=
  s'.fulls ≠ s.fulls → s.ulCounter = s.ulMaxCounter ∧ s.waits.queue () = [] ∧
    s'.ulCounter = s.ulCounter ∧ s'.waits = s.waits

omit [DecidableEq T] in
theorem fullStep_of_posts {s' : State T} (h : s'.posts = s.posts) : FullStep s s' := by
  intro hfull
  unfold State.fulls at hfull
  rw [h] at hfull
  exact absurd rfl hfull

theorem Conserved.post_full (h : Conserved ulInitCounter s) (i : ℕ) :
    FullStep s (SemaphoreC.semaphoreCPost s i) := by
  unfold SemaphoreC.semaphoreCPost
  rcases h.deliver i with ⟨t, waits, ulTimeout, -, -, hd⟩ | ⟨-, -, hd⟩ | ⟨hempty, hmax, hd⟩
  · rw [hd]
    exact fullStep_of_posts rfl
  · rw [hd]
    intro hfull
    simp [State.fulls] at hfull
  · rw [hd]
    exact fun _ => ⟨hmax, hempty, rfl, rfl⟩

theorem Conserved.round_full (h : Conserved ulInitCounter s) (all left : ℕ)
    (outer : List (Poster T)) (i : ℕ) :
    FullStep s (SemaphoreC.releaseRound s all left outer i) := by
  unfold SemaphoreC.releaseRound
  rcases h.deliver i with ⟨t, waits, ulTimeout, -, -, hd⟩ | ⟨-, -, hd⟩ | ⟨hempty, hmax, hd⟩
  · rw [hd]
    exact fullStep_of_posts rfl
  · rw [hd]
    exact fullStep_of_posts rfl
  · rw [hd]
    exact fun _ => ⟨hmax, hempty, rfl, rfl⟩

theorem Conserved.full (h : Conserved ulInitCounter s) {a : Action T} {s' : State T}
    (hstep : SemaphoreC.step s a = some s') : FullStep s s' := by
  cases a with
  | post inIsr i =>
    simp only [SemaphoreC.step] at hstep
    split at hstep
    case isFalse => cases hstep
    case isTrue =>
      obtain rfl := Option.some.inj hstep
      exact h.post_full i
  | round i =>
    simp only [SemaphoreC.step] at hstep
    split at hstep
    case h_2 => cases hstep
    case h_1 all left outer hposters =>
      obtain rfl := Option.some.inj hstep
      exact h.round_full all left outer i
  | release inIsr ulReleaseCounter =>
    simp only [SemaphoreC.step] at hstep
    split at hstep
    case isFalse => cases hstep
    case isTrue =>
      obtain rfl := Option.some.inj hstep
      unfold SemaphoreC.semaphoreCRelease
      intro hfull
      split at hfull <;> simp [State.fulls] at hfull
  | finish =>
    simp only [SemaphoreC.step] at hstep
    split at hstep
    case h_2 => cases hstep
    case h_1 all outer hposters =>
      obtain rfl := Option.some.inj hstep
      intro hfull
      simp [State.fulls] at hfull
  | enter t =>
    apply fullStep_of_posts
    simp only [SemaphoreC.step] at hstep
    split at hstep
    case h_2 => cases hstep
    case h_1 ulTimeout hframe =>
      split at hstep
      case isFalse => cases hstep
      case isTrue =>
        obtain rfl := Option.some.inj hstep
        exact semaphoreCPend_posts s t ulTimeout
  | wake t elapsed =>
    apply fullStep_of_posts
    simp only [SemaphoreC.step] at hstep
    split at hstep
    case h_2 => cases hstep
    case h_1 ulTimeout iSchedRet handed hframe =>
      split at hstep
      case isTrue => cases hstep
      case isFalse =>
        obtain rfl := Option.some.inj hstep
        exact semaphoreCWake_posts s t ulTimeout iSchedRet elapsed
  | pend t ulTimeout | readyHigh | tick t | signal t saRestart | sigReturn t =>
    apply fullStep_of_posts
    simp only [SemaphoreC.step] at hstep
    split at hstep
    all_goals cases hstep
    rfl

/-- Units are conserved along every run: the counter is what it began with and what was
delivered, less what pends have obtained, and nobody waits while it is positive. The units that
went to a thread are those it has returned `ERROR_NONE` for and those its waits have been handed.
A post that fails changes nothing. -/
theorem units_conserved (ulInitCounter ulMaxCounter : ℕ) (h : ulInitCounter ≤ ulMaxCounter)
    (signalInter : Bool) (actions : List (Action T)) :
    Visits SemaphoreC.step
      (fun s => s.ulCounter + s.obtained.length = ulInitCounter + s.accepted ∧
        s.ulCounter ≤ s.ulMaxCounter ∧ (0 < s.ulCounter → s.waits.queue () = []) ∧
        (∀ t, s.obtained.count t = s.returns.count ⟨t, .none⟩ + s.handed t) ∧
        (∀ r ∈ s.posts, r.Ok) ∧
        ∀ a s', SemaphoreC.step s a = some s' → FullStep s s')
      (State.create ulInitCounter ulMaxCounter signalInter) actions := by
  have hvisits : Visits SemaphoreC.step (Conserved ulInitCounter)
      (State.create ulInitCounter ulMaxCounter signalInter : State T) actions :=
    visits_of_steps (fun s a s' hs hstep => hs.step hstep) (conserved_create h signalInter)
  apply hvisits.mono
  intro s hs
  exact ⟨hs.units, hs.bound, hs.fair, hs.given, hs.booked.posts, fun a s' hstep => hs.full hstep⟩

theorem units_conserved_binary :
    Visits SemaphoreC.step
      (fun s => s.ulCounter + s.obtained.length = 0 + s.accepted ∧
        s.ulCounter ≤ s.ulMaxCounter ∧ (0 < s.ulCounter → s.waits.queue () = []) ∧
        (∀ t, s.obtained.count t = s.returns.count ⟨t, .none⟩ + s.handed t) ∧
        (∀ r ∈ s.posts, r.Ok) ∧
        ∀ a s', SemaphoreC.step s a = some s' → FullStep s s')
      (State.create 0 1 true : State Bool)
      [.pend true none, .enter true, .release false 2, .round 0, .readyHigh, .wake true 0] :=
  units_conserved 0 1 (by decide) true _

/-- A release of two units into a counter that holds one returns `ERROR_EVENT_FULL` and has moved
the counter. -/
theorem release_full_moves :
    (run SemaphoreC.step (State.create 0 1 true : State Bool)
        [.release false 2, .round 0, .round 0]).map (fun s => (s.posts, s.ulCounter)) =
      some ([⟨2, .eventFull, 1⟩], 1) ∧
    (State.create 0 1 true : State Bool).ulCounter = 0 := by
  constructor
  · decide
  · rfl

end SylixOS.SemaphoreC
