import SylixOS.MsgQueueRuns

/-! Senders that wait for room in a message queue. A receive takes one of them out of its
queue, a clear all; the sender then tries again for itself. Followed is how many are on
their way back. -/

namespace SylixOS.MsgQueue
open EventWait MsgQueueMem StepRuns Function
open MsgQueueLib (msgQPrioLow)

variable {T : Type*} [DecidableEq T]

def Frame.sendCall : Frame → Option SendCall
  | .sendAgain c _ | .sendAsleep c _ _ => some c
  | _ => none

def Frame.tries : Frame → Bool
  | .sendAgain _ _ => true
  | .sendAsleep _ _ iSchedRet => iSchedRet = .none
  | _ => false

def State.retries (s : State T) (t : T) : Bool :=
  (s.frame t).tries && !(s.waits.tcb t).timeout && decide (t ∉ s.waits.queue .send)

def State.clearing (s : State T) : Bool :=
  s.posters.any fun p => match p.rest with
    | .clear => true
    | _ => false

/-- The queue, and the senders that have been taken out of their queue and have not tried again
(ghost). -/
structure Senders (T : Type*) where
  base : State T
  woken : List T

def Senders.create (base : State T) : Senders T := ⟨base, []⟩

/-- A step. Of the senders that were on their way back or in the queue, those are on their way back
that are now outside the queue and will try. -/
def Senders.step (s : Senders T) (a : Action T) : Option (Senders T) :=
  (MsgQueue.step s.base a).map fun base =>
    ⟨base, (s.woken ++ s.base.waits.queue .send).filter base.retries⟩

/-- While a sender is blocked, each place is taken or there is a sender on its way to it. A clear
that is in its loop has still to take out the senders. -/
def Senders.NotStranded (s : Senders T) : Prop :=
  s.base.clearing = false → ∀ t ∈ s.base.waits.queue .send,
    s.base.ulMaxCounter ≤ s.base.ulCounter + s.woken.length

def State.handsOver (s : State T) (c : SendCall) (i : ℕ) : Bool :=
  match s.waits.eventQGetTcb .recv i with
  | some r => (s.receiver r).accepts c.msg.length
  | none => false

/-- A sender on its way back may give its message to a waiting receiver if nobody is blocked, or if
there are more senders on their way back than places. -/
def Replaced (s : Senders T) : Action T → Prop
  | .enter t i =>
    match s.base.frame t with
    | .sendAgain c _ =>
      t ∈ s.woken → s.base.handsOver c i = true →
        s.base.waits.queue .send = [] ∨ s.base.ulMaxCounter < s.base.ulCounter + s.woken.length
    | _ => True
  | _ => True

structure Keeps (s s' : State T) (who : Option T) (n : ℕ) : Prop where
  max : s'.ulMaxCounter = s.ulMaxCounter
  bytes : s'.stMaxBytes = s.stMaxBytes
  retries : ∀ u, u ∉ who → s.retries u = true → s'.retries u = true
  tries : ∀ u, u ∉ who → u ∈ s'.waits.queue .send → (s.frame u).tries = true →
    (s'.frame u).tries = true
  calls : ∀ u c, (s'.frame u).sendCall = some c → (s.frame u).sendCall = some c
  queue : ∀ u ∈ s'.waits.queue .send, u ∈ s.waits.queue .send
  counter : s.ulCounter ≤ s'.ulCounter + n
  clearing : s'.clearing = false → s.clearing = false

variable {s s' : State T} {t : T} {who : Option T} {n : ℕ}

theorem Keeps.refl (s : State T) (who : Option T) : Keeps s s who 0 where
  max := rfl
  bytes := rfl
  retries := fun _ _ h => h
  tries := fun _ _ _ h => h
  calls := fun _ _ h => h
  queue := fun _ h => h
  counter := Nat.le_refl _
  clearing := id

theorem Keeps.trans {m : State T} {k : ℕ} (h : Keeps s m who n) (h' : Keeps m s' who k) :
    Keeps s s' who (n + k) where
  max := h'.max.trans h.max
  bytes := h'.bytes.trans h.bytes
  retries := fun u hu hr => h'.retries u hu (h.retries u hu hr)
  tries := fun u hu hq ht => h'.tries u hu hq (h.tries u hu (h'.queue u hq) ht)
  calls := fun u c hc => h.calls u c (h'.calls u c hc)
  queue := fun u hu => h.queue u (h'.queue u hu)
  counter := by
    have h₁ := h.counter
    have h₂ := h'.counter
    omega
  clearing := fun hc => h.clearing (h'.clearing hc)

theorem Keeps.weaken (h : Keeps s s' none n) (who : Option T) : Keeps s s' who n :=
  { h with
    retries := fun u _ hr => h.retries u (by simp) hr
    tries := fun u _ hq ht => h.tries u (by simp) hq ht }

theorem Keeps.quiet (h : Keeps s s' who n) (hwho : ∀ t ∈ who, s.retries t = false)
    (hout : ∀ t ∈ who, t ∉ s.waits.queue .send) : Keeps s s' none n where
  max := h.max
  bytes := h.bytes
  retries := by
    intro u _ hr
    refine h.retries u (fun hu => ?_) hr
    rw [hwho u hu] at hr
    exact nomatch hr
  tries := fun u _ hq ht => h.tries u (fun hu => hout u hu (h.queue u hq)) hq ht
  calls := h.calls
  queue := h.queue
  counter := h.counter
  clearing := h.clearing

theorem leaveCall_of_not_mem {u : T} (hu : u ∉ who) : s.leaveCall who u = s.frame u := by
  cases who with
  | none => rfl
  | some t => exact update_of_ne (fun he => hu (by simp [he])) _ _

theorem leaveCall_sendCall {u : T} {c : SendCall}
    (hc : (s.leaveCall who u).sendCall = some c) : (s.frame u).sendCall = some c := by
  cases who with
  | none => exact hc
  | some t =>
    by_cases hu : u = t
    · subst hu
      simp [State.leaveCall, Frame.sendCall] at hc
    · simpa [State.leaveCall, hu] using hc

theorem Keeps.leaves {m : State T} (hmax : m.ulMaxCounter = s.ulMaxCounter)
    (hbytes : m.stMaxBytes = s.stMaxBytes) (hframe : m.frame = s.leaveCall who)
    (hwaits : m.waits = s.waits) (hposters : m.posters = s.posters)
    (hcounter : s.ulCounter ≤ m.ulCounter + n) : Keeps s m who n where
  max := hmax
  bytes := hbytes
  retries := by
    intro u hu hr
    rw [State.retries, hframe, hwaits, leaveCall_of_not_mem hu]
    exact hr
  tries := by
    intro u hu _ ht
    rw [hframe, leaveCall_of_not_mem hu]
    exact ht
  calls := by
    intro u c hc
    rw [hframe] at hc
    exact leaveCall_sendCall hc
  queue := by simp [hwaits]
  counter := hcounter
  clearing := by simp [State.clearing, hposters]

theorem keeps_sendRet (s : State T) (who : Option T) (c : SendCall) (result : Result) :
    Keeps s (s.sendRet who c result) who 0 :=
  Keeps.leaves rfl rfl rfl rfl rfl (Nat.le_refl _)

theorem keeps_recvRet (s : State T) (who : Option T) (stMaxByteSize : ℕ) (result : Result)
    (bytes : List UInt8) (got : Option Delivery) :
    Keeps s (s.recvRet who stMaxByteSize result bytes got) who 0 :=
  Keeps.leaves rfl rfl rfl rfl rfl (Nat.le_refl _)

theorem keeps_passOn (h : Threads s) {i : ℕ} {waits : Waits T WaitQ}
    (hlow : s.waits.eventReadyLowLevel .recv i = some (t, waits)) (d : Delivery)
    (rest : Rest) : Keeps s (s.passOn waits t d rest) none 0 ∧
      (s.passOn waits t d rest).waits.queue .send = s.waits.queue .send := by
  obtain ⟨hmem, -, htcb, hqueue⟩ := h.ok.eventReadyLowLevel hlow
  obtain ⟨c, ulTimeout, hframe, -⟩ := h.receiver hmem
  have hsend : waits.queue .send = s.waits.queue .send := by
    rw [hqueue]
    exact update_of_ne (by simp) _ _
  have hother : ∀ u, u ≠ t → (s.passOn waits t d rest).frame u = s.frame u := by
    intro u hu
    dsimp only [State.passOn]
    split
    · exact update_of_ne hu _ _
    · rfl
  have hself : ((s.passOn waits t d rest).frame t).sendCall = none := by
    dsimp only [State.passOn]
    split
    · rw [update_self, hframe]
      rfl
    · rw [hframe]
      rfl
  refine ⟨?_, hsend⟩
  constructor
  case max => rfl
  case bytes => rfl
  case retries =>
    intro u _ hr
    have hu : u ≠ t := by
      rintro rfl
      simp [State.retries, hframe, Frame.tries] at hr
    rw [State.retries, hother u hu]
    simpa [State.retries, State.passOn, htcb, hu, hsend] using hr
  case tries =>
    intro u _ _ ht
    have hu : u ≠ t := by
      rintro rfl
      simp [hframe, Frame.tries] at ht
    rw [hother u hu]
    exact ht
  case calls =>
    intro u c' hc
    by_cases hu : u = t
    · subst hu
      rw [hself] at hc
      cases hc
    · rw [← hother u hu]
      exact hc
  case queue =>
    intro u hu
    rw [← hsend]
    exact hu
  case counter => exact Nat.le_refl _
  case clearing =>
    intro hc
    exact (Bool.or_eq_false_iff.mp hc).2

theorem keeps_wakeSender (h : s.waits.Ok s.taken)
    (hasleep : ∀ t ∈ s.waits.queue .send, (s.frame t).tries = true) (rest : Rest) (i : ℕ) :
    Keeps s (wakeSender s rest i) none 0 ∧
      ((wakeSender s rest i).waits.queue .send = [] ∧ wakeSender s rest i = s ∨
        (∃ t ∈ s.waits.queue .send, (wakeSender s rest i).retries t = true) ∧
          ∃ t, (wakeSender s rest i).posters = ⟨some t, rest⟩ :: s.posters) := by
  unfold wakeSender
  cases hlow : s.waits.eventReadyLowLevel .send i with
  | none =>
    have hempty := Waits.eventReadyLowLevel_none.mp hlow
    exact ⟨Keeps.refl s none, Or.inl ⟨hempty, rfl⟩⟩
  | some r =>
    obtain ⟨t, waits⟩ := r
    obtain ⟨hmem, -, htcb, hqueue⟩ := h.eventReadyLowLevel hlow
    have hsend : waits.queue .send = (s.waits.queue .send).erase t := by
      rw [hqueue, update_self]
    have hpend := h.pend_of_mem hmem
    constructor
    · constructor
      case max => rfl
      case bytes => rfl
      case retries =>
        intro u _ hr
        have hout : u ∉ s.waits.queue .send := by
          simp only [State.retries, Bool.and_eq_true, decide_eq_true_eq] at hr
          exact hr.2
        have hu : u ≠ t := fun he => hout (he ▸ hmem)
        simpa [State.retries, htcb, hu, hsend, List.mem_erase_of_ne hu] using hr
      case tries => exact fun _ _ _ ht => ht
      case calls => exact fun _ _ hc => hc
      case queue =>
        intro u hu
        exact List.mem_of_mem_erase (hsend ▸ hu)
      case counter => exact Nat.le_refl _
      case clearing => exact fun hc => (Bool.or_eq_false_iff.mp hc).2
    · right
      refine ⟨⟨t, hmem, ?_⟩, t, rfl⟩
      have hout : t ∉ (s.waits.queue .send).erase t := by
        rw [(h.nodup .send).mem_erase_iff]
        simp
      simp [State.retries, hasleep t hmem, htcb, h.untimed t hpend, hsend, hout]

def State.block (s : State T) (t : T) (c : SendCall) (ulTimeout : Option ℕ) : State T :=
  { s with
    waits := s.waits.eventWait t .send ulTimeout.isSome
    frame := update s.frame t (.sendAsleep c ulTimeout .none) }

inductive Tried (s s' : State T) (who : Option T) (c : SendCall) (ulTimeout : Option ℕ)
    (i : ℕ) : Prop where
  | rejected (h : Keeps s s' none 0)
  | handed (h : Keeps s s' who 0) (hover : s.handsOver c i = true)
  | stored (h : Keeps s s' who 0) (hcounter : s.ulCounter + 1 ≤ s'.ulCounter)
  | full (h : Keeps s s' who 0) (hfull : s.ulMaxCounter ≤ s.ulCounter)
  | invalid (h : Keeps s s' who 0) (hbad : ¬c.Valid s.stMaxBytes)
  | blocked (t : T) (hwho : who = some t) (hfull : s.ulMaxCounter ≤ s.ulCounter)
    (hvalid : c.Valid s.stMaxBytes) (hs' : s' = s.block t c ulTimeout)

theorem handsOver_of_low {i : ℕ} {waits : Waits T WaitQ} {c : SendCall}
    (hlow : s.waits.eventReadyLowLevel .recv i = some (t, waits)) :
    s.handsOver c i = (s.receiver t).accepts c.msg.length := by
  obtain ⟨u, hpick, heq⟩ := Option.map_eq_some_iff.mp hlow
  obtain rfl : u = t := (Prod.mk.inj heq).1
  rw [State.handsOver, hpick]

theorem sendSection_tried (h : Threads s) (who : Option T) (c : SendCall)
    (ulTimeout : Option ℕ) {uiPrio : ℕ} (i : ℕ)
    (hprio : uiPrio ≤ msgQPrioLow ↔ c.Valid s.stMaxBytes) :
    Tried s (sendSection s who c ulTimeout uiPrio i) who c ulTimeout i := by
  unfold sendSection
  split
  case h_1 t waits hlow =>
    split
    case isTrue hfit =>
      apply Tried.handed
      · have hpass := ((keeps_passOn h hlow ⟨c.msg, false⟩ .exit).1.weaken who)
        have hstored : Keeps (s.passOn waits t ⟨c.msg, false⟩ .exit)
            ({ s.passOn waits t ⟨c.msg, false⟩ .exit with
              history := s.history ++ [Event.handed c.msg]
              inbox := s.inbox ++ [(t, c.msg)] }.sendRet who c .none) who 0 :=
          Keeps.leaves rfl rfl rfl rfl rfl (Nat.le_refl _)
        exact hpass.trans hstored
      · rw [handsOver_of_low hlow]
        exact hfit
    case isFalse => exact Tried.rejected (keeps_passOn h hlow _ _).1
  case h_2 =>
    split
    case isTrue hbad =>
      apply Tried.invalid (keeps_sendRet s who c .option)
      rw [← hprio]
      exact Nat.not_le.mpr hbad
    case isFalse hle =>
      have hvalid := hprio.mp (Nat.not_lt.mp hle)
      split
      case isTrue =>
        exact Tried.stored (Keeps.leaves rfl rfl rfl rfl rfl (Nat.le_add_right _ _)) (Nat.le_refl _)
      case isFalse hroom =>
        have hfull := Nat.not_lt.mp hroom
        split
        case h_1 => exact Tried.full (keeps_sendRet s none c .full) hfull
        case h_2 t =>
          split
          case isTrue => exact Tried.full (keeps_sendRet s (some t) c .full) hfull
          case isFalse => exact Tried.blocked t rfl hfull hvalid rfl

theorem keeps_broadcastRound (h : Threads s) (msg : List UInt8) (i : ℕ) :
    Keeps s (broadcastRound s msg i) none 0 := by
  unfold broadcastRound
  split
  case h_1 t waits hlow => exact (keeps_passOn h hlow _ _).1
  case h_2 => exact Keeps.refl s none

theorem sendEx2_tried (h : Threads s) (hwho : Caller s who) (c : SendCall)
    (ulTimeout : Option ℕ) (i : ℕ) :
    Tried s (msgQueueSendEx2 s who c ulTimeout i) who c ulTimeout i := by
  unfold msgQueueSendEx2
  split
  case isTrue hbad =>
    apply Tried.invalid (keeps_sendRet s who c .msgLen)
    rintro ⟨hpos, hle, -⟩
    omega
  case isFalse hlen =>
    have hpos : 0 < c.msg.length := by omega
    have hle : c.msg.length ≤ s.stMaxBytes := by omega
    split
    case isTrue hdefault =>
      apply sendSection_tried h who c ulTimeout i
      exact iff_of_true (Nat.le_refl _) ⟨hpos, hle, Or.inl hdefault⟩
    case isFalse hdefault =>
      split
      case isTrue hurgent =>
        apply sendSection_tried h who c ulTimeout i
        simp [SendCall.Valid, hpos, hle, hdefault, hurgent]
      case isFalse hurgent =>
        have hbad : ¬c.Valid s.stMaxBytes := by simp [SendCall.Valid, hdefault, hurgent]
        split
        case isTrue =>
          have hreturned := h.sendRet hwho c .none
          have hround := keeps_broadcastRound hreturned c.msg i
          exact Tried.invalid ((keeps_sendRet s who c .none).trans (hround.weaken who)) hbad
        case isFalse => exact Tried.invalid (keeps_sendRet s who c .option) hbad

theorem Tried.isr {c : SendCall} {ulTimeout : Option ℕ} {i : ℕ}
    (h : Tried s s' none c ulTimeout i) : Keeps s s' none 0 := by
  cases h with
  | rejected h | handed h | stored h | full h | invalid h => exact h
  | blocked t hwho => exact nomatch hwho

structure Frees (s s' : State T) : Prop where
  keeps : ∃ posters n, Keeps { s with posters := posters } s' none n
  place : s'.waits.queue .send = [] ∨ s'.clearing = true ∨
    (s'.clearing = false → s.clearing = false) ∧ (s.ulCounter ≤ s'.ulCounter ∨
      s.ulCounter ≤ s'.ulCounter + 1 ∧ ∃ t ∈ s.waits.queue .send, s'.retries t = true)

theorem Keeps.frees (h : Keeps s s' none 0) : Frees s s' :=
  ⟨⟨s.posters, 0, h⟩, Or.inr (Or.inr ⟨h.clearing, Or.inl h.counter⟩)⟩

def Receives (s : State T) (who : Option T) : Prop :=
  ∀ t ∈ who, (s.frame t).tries = false ∧ t ∉ s.waits.queue .send

theorem Receives.quiet {m : State T} (hwho : Receives s who) (h : Keeps s m who n) :
    Keeps s m none n := by
  apply h.quiet
  · intro t ht
    simp [State.retries, (hwho t ht).1]
  · exact fun t ht => (hwho t ht).2

theorem frees_takeMessage (h : Threads s)
    (hasleep : ∀ t ∈ s.waits.queue .send, (s.frame t).tries = true)
    (hwho : Receives s who) (hpos : 0 < s.ulCounter) (stMaxByteSize i : ℕ) :
    Frees s (takeMessage s who stMaxByteSize i) := by
  unfold takeMessage
  split
  case h_1 => exact (Keeps.refl s none).frees
  case h_2 got store hget =>
    have hcounter : s.ulCounter ≤ s.ulCounter - 1 + 1 := by omega
    have hkeeps : Keeps s ({ s with
        ulCounter := s.ulCounter - 1
        store := store
        history := s.history ++ [Event.took got.whole] }.recvRet who stMaxByteSize .none got.bytes
          (some ⟨got.whole, false⟩)) none 1 :=
      hwho.quiet (Keeps.leaves rfl rfl rfl rfl rfl hcounter)
    generalize hm : State.recvRet _ who stMaxByteSize .none got.bytes _ = m at hkeeps ⊢
    have hwaits : m.waits = s.waits := by rw [← hm]; rfl
    have htaken : m.taken = s.taken := by rw [← hm]; rfl
    have hok : m.waits.Ok m.taken := by
      rw [hwaits, htaken]
      exact h.ok
    have htries : ∀ t ∈ m.waits.queue .send, (m.frame t).tries = true := by
      intro t ht
      exact hkeeps.tries t (by simp) ht (hasleep t (hwaits ▸ ht))
    obtain ⟨hwake, hplace⟩ := keeps_wakeSender hok htries .exit i
    have hboth := hkeeps.trans hwake
    refine ⟨⟨s.posters, 1 + 0, hboth⟩, ?_⟩
    rcases hplace with ⟨hempty, -⟩ | ⟨⟨t, ht, hretries⟩, -⟩
    · exact Or.inl hempty
    · refine Or.inr (Or.inr ⟨hboth.clearing, Or.inr ⟨hboth.counter, t, ?_, hretries⟩⟩)
      rw [← hwaits]
      exact ht

theorem frees_recvRet (hwho : Receives s who) (stMaxByteSize : ℕ) (result : Result)
    (bytes : List UInt8) (got : Option Delivery) :
    Frees s (s.recvRet who stMaxByteSize result bytes got) :=
  (hwho.quiet (keeps_recvRet s who stMaxByteSize result bytes got)).frees

theorem frees_tryReceive (h : Threads s)
    (hasleep : ∀ t ∈ s.waits.queue .send, (s.frame t).tries = true) (hwho : Receives s who)
    (stMaxByteSize i : ℕ) : Frees s (msgQueueTryReceive s who stMaxByteSize i) := by
  unfold msgQueueTryReceive
  split
  case isTrue hpos => exact frees_takeMessage h hasleep hwho hpos stMaxByteSize i
  case isFalse => exact frees_recvRet hwho _ _ _ _

theorem keeps_wait (htries : (s.frame t).tries = false) (receiver : T → Receiver) (delay : Bool)
    {frame : Frame} (hframe : frame.sendCall = none) :
    Keeps s { s with
      receiver := receiver
      waits := s.waits.eventWait t .recv delay
      frame := update s.frame t frame } none 0 := by
  have hqueue : (s.waits.eventWait t .recv delay).queue .send = s.waits.queue .send := by
    simp [Waits.eventWait]
  constructor
  case max => rfl
  case bytes => rfl
  case retries =>
    intro u _ hr
    have hu : u ≠ t := by
      rintro rfl
      simp [State.retries, htries] at hr
    simpa [State.retries, hqueue, hu, Waits.eventWait] using hr
  case tries =>
    intro u _ _ ht
    have hu : u ≠ t := by
      rintro rfl
      rw [htries] at ht
      cases ht
    simpa [hu] using ht
  case calls =>
    intro u c hc
    by_cases hu : u = t
    · subst hu
      simp [hframe] at hc
    · simpa [hu] using hc
  case queue =>
    intro u hu
    rw [← hqueue]
    exact hu
  case counter => exact Nat.le_refl _
  case clearing => exact id

theorem frees_receiveEx (h : Threads s)
    (hasleep : ∀ t ∈ s.waits.queue .send, (s.frame t).tries = true)
    (hwho : Receives s (some t)) (c : RecvCall) (ulTimeout : Option ℕ) (i : ℕ) :
    Frees s (msgQueueReceiveEx s t c ulTimeout i) := by
  unfold msgQueueReceiveEx
  split
  case isTrue => exact frees_recvRet hwho _ _ _ _
  case isFalse =>
    split
    case isTrue hpos =>
      split
      case isTrue => exact frees_recvRet hwho _ _ _ _
      case isFalse => exact frees_takeMessage h hasleep hwho hpos _ i
    case isFalse =>
      split
      case isTrue => exact frees_recvRet hwho _ _ _ _
      case isFalse => exact (keeps_wait (hwho t rfl).1 _ _ rfl).frees

theorem frees_clearRound {m : State T} (h : m.waits.Ok m.taken)
    (hasleep : ∀ t ∈ m.waits.queue .send, (m.frame t).tries = true) {posters : List (Poster T)}
    (hkeeps : Keeps { s with posters := posters } m none n) (i : ℕ) :
    Frees s (wakeSender m .clear i) := by
  obtain ⟨hwake, hplace⟩ := keeps_wakeSender h hasleep .clear i
  refine ⟨⟨posters, n + 0, hkeeps.trans hwake⟩, ?_⟩
  rcases hplace with ⟨hempty, -⟩ | ⟨-, t, hposters⟩
  · exact Or.inl hempty
  · right; left
    rw [State.clearing, hposters]
    rfl

theorem frees_clearQueue (h : s.waits.Ok s.taken)
    (hasleep : ∀ t ∈ s.waits.queue .send, (s.frame t).tries = true) (i : ℕ) :
    Frees s (clearQueue s i) := by
  unfold clearQueue
  generalize hm : ({ s with
      store := msgQueueClear s.store s.stMaxBytes s.ulMaxCounter
      ulCounter := 0
      history := s.history ++ [Event.cleared] } : State T) = m
  have hkeeps : Keeps { s with posters := s.posters } m none s.ulCounter := by
    rw [← hm]
    exact Keeps.leaves rfl rfl rfl rfl rfl (Nat.le_add_left _ _)
  have hok : m.waits.Ok m.taken := by
    rw [← hm]
    exact h
  have htries : ∀ t ∈ m.waits.queue .send, (m.frame t).tries = true := by
    rw [← hm]
    exact hasleep
  exact frees_clearRound hok htries hkeeps i

theorem keeps_leave (h : Threads s) {q : WaitQ} (hmem : t ∈ s.waits.queue q) (r : SchedRet) :
    Keeps s { s with
      waits := s.waits.leave q t
      frame := update s.frame t ((s.frame t).signalled r) } none 0 := by
  have hsub : ∀ u, u ∈ (s.waits.leave q t).queue .send → u ≠ t ∧ u ∈ s.waits.queue .send := by
    intro u hu
    have hevent := ((h.ok.queued q t).mp hmem).1
    cases q with
    | send =>
      simp only [Waits.leave, update_self, (h.ok.nodup .send).mem_erase_iff] at hu
      exact hu
    | recv =>
      have hold : u ∈ s.waits.queue .send := by simpa [Waits.leave] using hu
      refine ⟨?_, hold⟩
      rintro rfl
      have hsend := ((h.ok.queued .send u).mp hold).1
      rw [hevent] at hsend
      simp at hsend
  have hself : s.retries t = false := by
    cases q with
    | send => simp [State.retries, hmem]
    | recv =>
      obtain ⟨c, ulTimeout, hframe, -⟩ := h.receiver hmem
      simp [State.retries, hframe, Frame.tries]
  constructor
  case max => rfl
  case bytes => rfl
  case retries =>
    intro u _ hr
    have hu : u ≠ t := by
      rintro rfl
      rw [hself] at hr
      cases hr
    simp only [State.retries, Bool.and_eq_true, decide_eq_true_eq] at hr ⊢
    refine ⟨⟨?_, ?_⟩, fun hin => hr.2 (hsub u hin).2⟩
    · simpa [hu] using hr.1.1
    · simpa [hu, Waits.leave] using hr.1.2
  case tries =>
    intro u _ hu ht
    simpa [(hsub u hu).1] using ht
  case calls =>
    intro u c hc
    by_cases hu : u = t
    · subst hu
      have hsame : ((s.frame u).signalled r).sendCall = (s.frame u).sendCall := by
        cases s.frame u <;> rfl
      simpa [hsame] using hc
    · simpa [hu] using hc
  case queue => exact fun u hu => (hsub u hu).2
  case counter => exact Nat.le_refl _
  case clearing => exact id

theorem keeps_tick (h : Threads s) (hdelay : (s.waits.tcb t).delay = true) :
    Keeps s { s with waits := s.waits.threadTick t } none 0 := by
  obtain ⟨q, hmem, htick⟩ := h.ok.threadTick hdelay
  have hleft := keeps_leave h hmem .none
  rw [signalled_none, update_eq_self] at hleft
  rw [htick]
  exact hleft

theorem keeps_signal (h : Threads s) (hposters : s.posters = []) (saType : SchedRet) :
    Keeps s { s with
      waits := (s.waits.sigMakeReady t saType).2
      frame := update s.frame t
        ((s.frame t).signalled (s.waits.sigMakeReady t saType).1) } none 0 := by
  have hfree : t ∉ s.taken := by simp [State.taken, hposters]
  rcases h.ok.sigMakeReady hfree saType with ⟨-, hr⟩ | ⟨q, hmem, hr⟩
  · rw [hr, signalled_none, update_eq_self]
    exact Keeps.refl s none
  · rw [hr]
    exact keeps_leave h hmem saType

theorem keeps_readyHigh (h : Threads s) {rest : Rest} {outer : List (Poster T)}
    (hposters : s.posters = ⟨some t, rest⟩ :: outer) :
    Keeps s { s with
      waits := s.waits.eventReadyHighLevel t
      posters := ⟨none, rest⟩ :: outer } none 0 := by
  have htaken : s.taken = t :: outer.filterMap Poster.readying := by
    simp [State.taken, hposters]
  have hok := h.ok
  rw [htaken] at hok
  obtain ⟨-, htcb⟩ := hok.eventReadyHighLevel
  constructor
  case max => rfl
  case bytes => rfl
  case retries =>
    intro u _ hr
    simp only [State.retries, Bool.and_eq_true, decide_eq_true_eq] at hr ⊢
    refine ⟨⟨hr.1.1, ?_⟩, hr.2⟩
    rw [htcb]
    by_cases hu : u = t
    · simp [hu]
    · simpa [hu] using hr.1.2
  case tries => exact fun _ _ _ ht => ht
  case calls => exact fun _ _ hc => hc
  case queue => exact fun _ hu => hu
  case counter => exact Nat.le_refl _
  case clearing =>
    intro hc
    rw [State.clearing, hposters]
    exact hc

theorem keeps_sendWake (h : s.waits.Ok s.taken) (hpend : (s.waits.tcb t).pend = false)
    {c : SendCall} {ulTimeout : Option ℕ} {iSchedRet : SchedRet}
    (hframe : s.frame t = .sendAsleep c ulTimeout iSchedRet) (elapsed : ℕ) :
    Keeps s (sendWake s t c ulTimeout iSchedRet elapsed) none 0 := by
  have hout : ∀ u ∈ some t, u ∉ s.waits.queue .send := by
    rintro u ⟨⟩
    exact h.not_mem hpend
  have hagain : ∀ ulTimeout', Keeps s
      { s with frame := update s.frame t (.sendAgain c ulTimeout') } none 0 := by
    intro ulTimeout'
    constructor
    case max => rfl
    case bytes => rfl
    case retries =>
      intro u _ hr
      by_cases hu : u = t
      · subst hu
        simp only [State.retries, hframe, Bool.and_eq_true] at hr ⊢
        simpa [Frame.tries] using And.intro (by simpa using hr.1.2) (by simpa using hr.2)
      · simpa [State.retries, hu] using hr
    case tries =>
      intro u _ _ ht
      by_cases hu : u = t
      · subst hu
        simp [Frame.tries]
      · simpa [hu] using ht
    case calls =>
      intro u c' hc
      by_cases hu : u = t
      · subst hu
        simpa [hframe, Frame.sendCall] using hc
      · simpa [hu] using hc
    case queue => exact fun _ hu => hu
    case counter => exact Nat.le_refl _
    case clearing => exact id
  have hgone : ∀ result, s.retries t = false →
      Keeps s (s.sendRet (some t) c result) none 0 := by
    intro result hretries
    apply (keeps_sendRet s (some t) c result).quiet _ hout
    rintro u ⟨⟩
    exact hretries
  unfold sendWake
  split
  case isTrue hret =>
    have hretries : s.retries t = false := by simp [State.retries, hframe, Frame.tries, hret]
    split
    case isTrue => exact hgone _ hretries
    case isFalse =>
      split
      case isTrue => exact hgone _ hretries
      case isFalse => exact hagain _
  case isFalse =>
    split
    case isTrue htimeout => exact hgone _ (by simp [State.retries, htimeout])
    case isFalse => exact hagain _

theorem keeps_move (s : State T) (t : T) {frame : Frame} (hframe : frame.sendCall = none) :
    Keeps s { s with frame := update s.frame t frame } (some t) 0 := by
  have hother : ∀ u, u ∉ some t → u ≠ t := fun u hu he => hu (by simp [he])
  constructor
  case max => rfl
  case bytes => rfl
  case retries =>
    intro u hu hr
    simpa [State.retries, hother u hu] using hr
  case tries =>
    intro u hu _ ht
    simpa [hother u hu] using ht
  case calls =>
    intro u c hc
    by_cases hu : u = t
    · subst hu
      simp [hframe] at hc
    · simpa [hu] using hc
  case queue => exact fun _ hu => hu
  case counter => exact Nat.le_refl _
  case clearing => exact id

theorem keeps_recvWake (hwho : Receives s (some t)) (c : RecvCall) (ulTimeout : Option ℕ)
    (iSchedRet : SchedRet) (got : Option Delivery) (elapsed : ℕ) :
    Keeps s (recvWake s t c ulTimeout iSchedRet got elapsed) none 0 := by
  have hreturns : ∀ result bytes got,
      Keeps s (s.recvRet (some t) c.stMaxByteSize result bytes got) none 0 :=
    fun result bytes got => hwho.quiet (keeps_recvRet s _ _ _ _ _)
  unfold recvWake
  split
  case isTrue =>
    split
    case isTrue => exact hreturns _ _ _
    case isFalse =>
      split
      case isTrue => exact hreturns _ _ _
      case isFalse => exact hwho.quiet (keeps_move s t rfl)
  case isFalse =>
    split
    case isTrue => exact hreturns _ _ _
    case isFalse =>
      split
      case isTrue => exact hreturns _ _ _
      case isFalse => exact hwho.quiet (Keeps.leaves rfl rfl rfl rfl rfl (Nat.le_refl _))

theorem frees_goOn (h : Threads s) {rest : Rest} {outer : List (Poster T)}
    (hposters : s.posters = ⟨none, rest⟩ :: outer)
    (hasleep : ∀ t ∈ s.waits.queue .send, (s.frame t).tries = true) (i : ℕ) :
    Frees s (goOn { s with posters := outer } rest i) := by
  have htaken : ({ s with posters := outer } : State T).taken = s.taken := by
    simp [State.taken, hposters]
  have hthreads : Threads { s with posters := outer } :=
    ⟨by rw [htaken]; exact h.ok, by rw [htaken]; exact h.frame, h.fair, h.inbox, h.keys,
      h.returns⟩
  -- but for the end of a clear, the sections outside decide whether a clear is in its loop
  have hquiet : ∀ b, rest ≠ .clear → Keeps { s with posters := outer } b none 0 → Frees s b := by
    intro b hrest hkeeps
    have hsame : s.clearing = ({ s with posters := outer } : State T).clearing := by
      simp only [State.clearing, hposters, List.any_cons]
      cases rest with
      | clear => exact absurd rfl hrest
      | exit | resend | broadcast => rfl
    refine ⟨⟨outer, 0, hkeeps⟩, Or.inr (Or.inr ⟨fun hc => ?_, Or.inl hkeeps.counter⟩)⟩
    rw [hsame]
    exact hkeeps.clearing hc
  cases rest with
  | exit => exact hquiet _ (by simp) (Keeps.refl _ none)
  | resend c => exact hquiet _ (by simp) (sendEx2_tried hthreads caller_isr c (some 0) i).isr
  | broadcast msg => exact hquiet _ (by simp) (keeps_broadcastRound hthreads msg i)
  | clear =>
    have hkeeps : Keeps { s with posters := outer } { s with posters := outer } none 0 :=
      Keeps.refl _ none
    exact frees_clearRound hthreads.ok hasleep hkeeps i

omit [DecidableEq T] in
theorem receives_of (htries : (s.frame t).tries = false)
    (hasleep : ∀ t ∈ s.waits.queue .send, (s.frame t).tries = true) : Receives s (some t) := by
  rintro u ⟨⟩
  refine ⟨htries, fun hmem => ?_⟩
  rw [hasleep t hmem] at htries
  exact nomatch htries

theorem step_senders (h : Ok none s)
    (hasleep : ∀ t ∈ s.waits.queue .send, (s.frame t).tries = true) {a : Action T}
    (hstep : step s a = some s') :
    Frees s s' ∨
    (∃ t c ulTimeout, s.frame t = .idle ∧
      s' = { s with frame := update s.frame t (.sendAgain c ulTimeout) }) ∨
    (∃ t i c ulTimeout, a = .enter t i ∧ s.posters = [] ∧ s.frame t = .sendAgain c ulTimeout ∧
      s' = msgQueueSendEx2 s (some t) c ulTimeout i) := by
  have hreceives : ∀ t, (s.frame t).tries = false → Receives s (some t) :=
    fun t htries => receives_of htries hasleep
  have hisr : Receives s none := by simp [Receives]
  cases step_cases hstep with
  | send t c ulTimeout hframe => exact Or.inr (Or.inl ⟨t, c, ulTimeout, hframe, rfl⟩)
  | receive t c ulTimeout hframe =>
    have hidle : (s.frame t).tries = false := by
      rw [hframe]
      rfl
    exact Or.inl ((hreceives t hidle).quiet (keeps_move s t rfl)).frees
  | enterSend t i c ulTimeout hposters hframe =>
    exact Or.inr (Or.inr ⟨t, i, c, ulTimeout, rfl, hposters, hframe, rfl⟩)
  | enterRecv t i c ulTimeout _ hframe =>
    have htries : (s.frame t).tries = false := by
      rw [hframe]
      rfl
    exact Or.inl (frees_receiveEx h.threads hasleep (hreceives t htries) c ulTimeout i)
  | wakeSend t elapsed c ulTimeout iSchedRet hpend hframe =>
    exact Or.inl (keeps_sendWake h.threads.ok hpend hframe elapsed).frees
  | wakeRecv t elapsed c ulTimeout iSchedRet got _ hframe =>
    have htries : (s.frame t).tries = false := by
      rw [hframe]
      rfl
    exact Or.inl (keeps_recvWake (hreceives t htries) _ _ _ _ _).frees
  | tryReceive t stMaxByteSize i _ hframe =>
    have htries : (s.frame t).tries = false := by
      rw [hframe]
      rfl
    exact Or.inl (frees_tryReceive h.threads hasleep (hreceives t htries) _ i)
  | clear inIsr i => exact Or.inl (frees_clearQueue h.threads.ok hasleep i)
  | isrSend c i => exact Or.inl (sendEx2_tried h.threads caller_isr c (some 0) i).isr.frees
  | isrTryReceive stMaxByteSize i =>
    exact Or.inl (frees_tryReceive h.threads hasleep hisr stMaxByteSize i)
  | readyHigh t rest outer hposters => exact Or.inl (keeps_readyHigh h.threads hposters).frees
  | goOn i rest outer hposters => exact Or.inl (frees_goOn h.threads hposters hasleep i)
  | tick t hdelay => exact Or.inl (keeps_tick h.threads hdelay).frees
  | signal t saRestart hposters => exact Or.inl (keeps_signal h.threads hposters _).frees

structure Woken (s : Senders T) : Prop where
  ok : Ok none s.base
  asleep : ∀ t ∈ s.base.waits.queue .send, (s.base.frame t).tries = true
  calls : ∀ t c, t ∈ s.woken ∨ t ∈ s.base.waits.queue .send →
    (s.base.frame t).sendCall = some c → c.Valid s.base.stMaxBytes
  nodup : s.woken.Nodup
  retries : ∀ t ∈ s.woken, s.base.retries t = true
  bound : s.NotStranded

variable {q : Senders T} {b : State T}

def Senders.track (q : Senders T) (b : State T) : List T :=
  (q.woken ++ q.base.waits.queue .send).filter b.retries

theorem Woken.not_queued (h : Woken q) (ht : t ∈ q.woken) :
    t ∉ q.base.waits.queue .send := by
  have hretries := h.retries t ht
  simp only [State.retries, Bool.and_eq_true, decide_eq_true_eq] at hretries
  exact hretries.2

theorem Woken.track_nodup (h : Woken q) (b : State T) : (q.track b).Nodup := by
  apply List.Nodup.filter
  refine List.nodup_append.mpr ⟨h.nodup, h.ok.threads.ok.nodup .send, fun t ht u hu he => ?_⟩
  exact h.not_queued ht (he ▸ hu)

theorem mem_track : t ∈ q.track b ↔
    (t ∈ q.woken ∨ t ∈ q.base.waits.queue .send) ∧ b.retries t = true := by
  rw [Senders.track, List.mem_filter, List.mem_append]

theorem length_track (hall : ∀ u ∈ q.woken, b.retries u = true) :
    (q.track b).length =
      q.woken.length + ((q.base.waits.queue .send).filter b.retries).length := by
  rw [Senders.track, List.filter_append, List.length_append, List.filter_eq_self.mpr hall]

theorem Woken.length_track_but (h : Woken q)
    (hall : ∀ u ∈ q.woken, u ≠ t → b.retries u = true) :
    q.woken.length ≤ (q.track b).length + if t ∈ q.woken then 1 else 0 := by
  have hsub : q.woken.erase t ⊆ q.track b := by
    intro u hu
    obtain ⟨hne, hmem⟩ := h.nodup.mem_erase_iff.mp hu
    exact mem_track.mpr ⟨Or.inl hmem, hall u hmem hne⟩
  have hle := (List.subperm_of_subset (h.nodup.erase t) hsub).length_le
  by_cases hmem : t ∈ q.woken
  · rw [List.length_erase_of_mem hmem] at hle
    rw [if_pos hmem]
    omega
  · rw [List.erase_of_not_mem hmem] at hle
    rw [if_neg hmem]
    omega

theorem Woken.keeps (h : Woken q) (hok : Ok none b)
    {posters : List (Poster T)} (hkeeps : Keeps { q.base with posters := posters } b who n)
    (hout : ∀ t ∈ who, t ∉ q.base.waits.queue .send)
    (hbound : Senders.NotStranded ⟨b, q.track b⟩) : Woken ⟨b, q.track b⟩ where
  ok := hok
  asleep := by
    intro t ht
    have hold := hkeeps.queue t ht
    exact hkeeps.tries t (fun hwho => hout t hwho hold) ht (h.asleep t hold)
  calls := by
    intro t c ht hc
    have hbytes : b.stMaxBytes = q.base.stMaxBytes := hkeeps.bytes
    have hold : t ∈ q.woken ∨ t ∈ q.base.waits.queue .send := by
      rcases ht with ht | ht
      · exact (mem_track.mp ht).1
      · exact Or.inr (hkeeps.queue t ht)
    simp only [hbytes]
    exact h.calls t c hold (hkeeps.calls t c hc)
  nodup := h.track_nodup b
  retries := fun t ht => (mem_track.mp ht).2
  bound := hbound

theorem Woken.frees (h : Woken q) (hok : Ok none b)
    (hfrees : Frees q.base b) : Woken ⟨b, q.track b⟩ := by
  obtain ⟨⟨posters, n, hkeeps⟩, hplace⟩ := hfrees
  apply h.keeps hok hkeeps nofun
  intro hclear t ht
  have hall : ∀ u ∈ q.woken, b.retries u = true := fun u hu =>
    hkeeps.retries u (by simp) (h.retries u hu)
  have hlength := length_track hall
  have hmax : b.ulMaxCounter = q.base.ulMaxCounter := hkeeps.max
  simp only at hclear ht ⊢
  rcases hplace with hempty | hclearing | ⟨hquiet, hcounter⟩
  · rw [hempty] at ht
    exact nomatch ht
  · rw [hclear] at hclearing
    exact nomatch hclearing
  · have hbound := h.bound (hquiet hclear) t (hkeeps.queue t ht)
    rcases hcounter with hcounter | ⟨hcounter, u, hu, hretries⟩
    · omega
    · have hgained : 0 < ((q.base.waits.queue .send).filter b.retries).length :=
        List.length_pos_of_mem (List.mem_filter.mpr ⟨hu, hretries⟩)
      omega

theorem Woken.begins (h : Woken q) {c : SendCall} {ulTimeout : Option ℕ}
    (hidle : q.base.frame t = .idle)
    (hb : b = { q.base with frame := update q.base.frame t (.sendAgain c ulTimeout) })
    (hok : Ok none b) : Woken ⟨b, q.track b⟩ := by
  have hnot : t ∉ q.base.waits.queue .send := by
    intro hmem
    have htries := h.asleep t hmem
    rw [hidle] at htries
    exact nomatch htries
  have hfresh : t ∉ q.woken := by
    intro hmem
    have hretries := h.retries t hmem
    simp [State.retries, hidle, Frame.tries] at hretries
  have hother : ∀ u, u ∈ q.woken ∨ u ∈ q.base.waits.queue .send → u ≠ t := by
    rintro u (hu | hu) rfl
    · exact hfresh hu
    · exact hnot hu
  have hframe : ∀ u, u ≠ t → b.frame u = q.base.frame u := by
    intro u hu
    rw [hb]
    exact update_of_ne hu _ _
  have hwaits : b.waits = q.base.waits := by rw [hb]
  constructor
  case ok => exact hok
  case asleep =>
    intro u hu
    simp only [hwaits] at hu
    simp only [hframe u (hother u (Or.inr hu))]
    exact h.asleep u hu
  case calls =>
    intro u c' hu hc
    have hold : u ∈ q.woken ∨ u ∈ q.base.waits.queue .send := by
      rcases hu with hu | hu
      · exact (mem_track.mp hu).1
      · simp only [hwaits] at hu
        exact Or.inr hu
    simp only [hframe u (hother u hold)] at hc
    have hbytes : b.stMaxBytes = q.base.stMaxBytes := by rw [hb]
    simp only [hbytes]
    exact h.calls u c' hold hc
  case nodup => exact h.track_nodup b
  case retries => exact fun u hu => (mem_track.mp hu).2
  case bound =>
    intro hclear u hu
    have hall : ∀ u ∈ q.woken, b.retries u = true := by
      intro u hu
      rw [State.retries, hframe u (hother u (Or.inl hu)), hwaits]
      exact h.retries u hu
    have hlength := length_track hall
    have hbound := h.bound (by rw [hb] at hclear; exact hclear) u (by rw [hb] at hu; exact hu)
    have hmax : b.ulMaxCounter = q.base.ulMaxCounter := by rw [hb]
    have hcounter : b.ulCounter = q.base.ulCounter := by rw [hb]
    simp only [hmax, hcounter]
    omega

theorem Woken.blocks (h : Woken q) {c : SendCall} {ulTimeout : Option ℕ}
    (hfull : q.base.ulMaxCounter ≤ q.base.ulCounter) (hvalid : c.Valid q.base.stMaxBytes)
    (hok : Ok none (q.base.block t c ulTimeout)) :
    Woken ⟨q.base.block t c ulTimeout, q.track (q.base.block t c ulTimeout)⟩ := by
  have hqueue : (q.base.block t c ulTimeout).waits.queue .send =
      q.base.waits.queue .send ++ [t] := by simp [State.block, Waits.eventWait]
  have hself : (q.base.block t c ulTimeout).frame t = .sendAsleep c ulTimeout .none :=
    update_self _ _ _
  have hother : ∀ u, u ≠ t → (q.base.block t c ulTimeout).frame u = q.base.frame u :=
    fun u hu => update_of_ne hu _ _
  constructor
  case ok => exact hok
  case asleep =>
    intro u hu
    simp only [hqueue, List.mem_append, List.mem_singleton] at hu
    by_cases hut : u = t
    · subst hut
      simp [hself, Frame.tries]
    · simp only [hother u hut]
      exact h.asleep u (hu.resolve_right hut)
  case calls =>
    intro u c' hu hc
    by_cases hut : u = t
    · subst hut
      simp only [hself, Frame.sendCall, Option.some.injEq] at hc
      rw [← hc]
      exact hvalid
    · have hold : u ∈ q.woken ∨ u ∈ q.base.waits.queue .send := by
        rcases hu with hu | hu
        · exact (mem_track.mp hu).1
        · simp only [hqueue, List.mem_append, List.mem_singleton] at hu
          exact Or.inr (hu.resolve_right hut)
      simp only [hother u hut] at hc
      exact h.calls u c' hold hc
  case nodup => exact h.track_nodup _
  case retries => exact fun u hu => (mem_track.mp hu).2
  case bound => exact fun _ _ _ => Nat.le_trans hfull (Nat.le_add_right _ _)

theorem Woken.enter_not_queued (h : Woken q) {c : SendCall} {ulTimeout : Option ℕ}
    (hframe : q.base.frame t = .sendAgain c ulTimeout) : t ∉ q.base.waits.queue .send := by
  have hself := h.ok.threads.frame t
  rw [hframe] at hself
  exact h.ok.threads.ok.not_mem hself

theorem Woken.next (h : Woken q) {a : Action T} {q' : Senders T}
    (ha : Replaced q a) (hstep : q.step a = some q') : Woken q' := by
  obtain ⟨b, hb, rfl⟩ := Option.map_eq_some_iff.mp hstep
  have hok := h.ok.step hb
  rcases step_senders h.ok h.asleep hb with hfrees | ⟨t, c, ulTimeout, hidle, hbegins⟩ |
    ⟨t, i, c, ulTimeout, rfl, -, hframe, henter⟩
  · exact h.frees hok hfrees
  · exact h.begins hidle hbegins hok
  · have hcaller := h.ok.threads.running (t := t) (by simp [hframe]) (by simp [hframe])
    have htried := sendEx2_tried h.ok.threads hcaller c ulTimeout i
    rw [← henter] at htried
    have hout : ∀ u ∈ some t, u ∉ q.base.waits.queue .send := by
      rintro u ⟨⟩
      exact h.enter_not_queued hframe
    -- what is left is to count: `t` may be missing from those on their way back
    have hcount : ∀ {n}, Keeps q.base b (some t) n →
        q.woken.length ≤ (q.track b).length + if t ∈ q.woken then 1 else 0 := by
      intro n hkeeps
      apply h.length_track_but
      intro u hu hne
      exact hkeeps.retries u (by simpa using Ne.symm hne) (h.retries u hu)
    have hfinish : Keeps q.base b (some t) 0 → (∀ u ∈ q.base.waits.queue .send,
        q.base.ulMaxCounter ≤ q.base.ulCounter + q.woken.length →
        q.base.ulMaxCounter ≤ b.ulCounter + (q.track b).length) →
        Woken ⟨b, q.track b⟩ := by
      intro hkeeps hbound
      have hkeeps' : Keeps { q.base with posters := q.base.posters } b (some t) 0 := hkeeps
      apply h.keeps hok hkeeps' hout
      intro hclear u hu
      have hold := hkeeps.queue u hu
      simp only [hkeeps.max]
      exact hbound u hold (h.bound (hkeeps.clearing hclear) u hold)
    cases htried with
    | rejected hkeeps => exact h.frees hok hkeeps.frees
    | handed hkeeps hover =>
      apply hfinish hkeeps
      intro u hu hbound
      have hlength := hcount hkeeps
      have hcounter := hkeeps.counter
      by_cases hwoken : t ∈ q.woken
      · have hreplaced : q.base.waits.queue .send = [] ∨
            q.base.ulMaxCounter < q.base.ulCounter + q.woken.length := by
          simp only [Replaced, hframe] at ha
          exact ha hwoken hover
        rw [if_pos hwoken] at hlength
        rcases hreplaced with hempty | hmore
        · rw [hempty] at hu
          exact nomatch hu
        · omega
      · rw [if_neg hwoken] at hlength
        omega
    | stored hkeeps hcounter =>
      apply hfinish hkeeps
      intro u _ hbound
      have hlength := hcount hkeeps
      split at hlength <;> omega
    | full hkeeps hfull =>
      apply hfinish hkeeps
      intro u _ _
      have hcounter := hkeeps.counter
      omega
    | invalid hkeeps hbad =>
      apply hfinish hkeeps
      intro u _ hbound
      have hlength := hcount hkeeps
      have hcounter := hkeeps.counter
      have hwoken : t ∉ q.woken := by
        intro hmem
        exact hbad (h.calls t c (Or.inl hmem) (by rw [hframe]; rfl))
      rw [if_neg hwoken] at hlength
      omega
    | blocked t' hwho hfull hvalid hs' =>
      obtain rfl : t = t' := Option.some.inj hwho
      subst hs'
      exact h.blocks hfull hvalid hok

theorem handed_over (h : Threads s) {c : SendCall} (hvalid : c.Valid s.stMaxBytes)
    (ulTimeout : Option ℕ) {i : ℕ} (hover : s.handsOver c i = true) (hposters : s.posters = []) :
    (msgQueueSendEx2 s (some t) c ulTimeout i).waits.queue .send = s.waits.queue .send ∧
      (msgQueueSendEx2 s (some t) c ulTimeout i).ulCounter = s.ulCounter ∧
      (msgQueueSendEx2 s (some t) c ulTimeout i).ulMaxCounter = s.ulMaxCounter ∧
      (msgQueueSendEx2 s (some t) c ulTimeout i).clearing = false ∧
      (msgQueueSendEx2 s (some t) c ulTimeout i).frame t = .idle := by
  have hsection : ∀ uiPrio, (sendSection s (some t) c ulTimeout uiPrio i).waits.queue .send =
        s.waits.queue .send ∧
      (sendSection s (some t) c ulTimeout uiPrio i).ulCounter = s.ulCounter ∧
      (sendSection s (some t) c ulTimeout uiPrio i).ulMaxCounter = s.ulMaxCounter ∧
      (sendSection s (some t) c ulTimeout uiPrio i).clearing = false ∧
      (sendSection s (some t) c ulTimeout uiPrio i).frame t = .idle := by
    intro uiPrio
    unfold sendSection
    split
    case h_1 r waits hlow =>
      have hfit := hover
      rw [handsOver_of_low hlow] at hfit
      rw [if_pos hfit]
      refine ⟨(keeps_passOn h hlow ⟨c.msg, false⟩ .exit).2, rfl, rfl, ?_, ?_⟩
      · simp [State.clearing, State.sendRet, State.passOn, hposters]
      · simp [State.sendRet, State.leaveCall]
    case h_2 hlow =>
      have hnobody := Option.map_eq_none_iff.mp hlow
      rw [State.handsOver, hnobody] at hover
      cases hover
  obtain ⟨hpos, hle, hoption⟩ := hvalid
  unfold msgQueueSendEx2
  rw [if_neg (by omega)]
  rcases hoption with hdefault | ⟨hurgent, -⟩
  · rw [if_pos hdefault]
    exact hsection _
  · by_cases hdefault : c.isDefault = true
    · rw [if_pos hdefault]
      exact hsection _
    · rw [if_neg hdefault, if_pos hurgent]
      exact hsection _

theorem Woken.replaced (h : Woken q) {a : Action T} {q' : Senders T}
    (hstep : q.step a = some q') (hbound : q'.NotStranded) : Replaced q a := by
  obtain ⟨b, hb, rfl⟩ := Option.map_eq_some_iff.mp hstep
  cases a with
  | enter t i =>
    simp only [Replaced]
    split
    case h_2 => trivial
    case h_1 c ulTimeout hframe =>
      intro hwoken hover
      have hvalid := h.calls t c (Or.inl hwoken) (by rw [hframe]; rfl)
      simp only [MsgQueue.step] at hb
      split at hb
      case isFalse => cases hb
      case isTrue hposters =>
        rw [hframe] at hb
        cases hb
        obtain ⟨hqueue, hcounter, hmax, hclearing, hidle⟩ :=
          handed_over (t := t) h.ok.threads hvalid ulTimeout hover (by simpa using hposters)
        by_cases hempty : q.base.waits.queue .send = []
        · exact Or.inl hempty
        right
        obtain ⟨u, hu⟩ := List.exists_mem_of_ne_nil _ hempty
        have hplaces := hbound hclearing u (by rw [hqueue]; exact hu)
        -- those in the queue are still there, and `t` has gone
        have hless : (q.track (msgQueueSendEx2 q.base (some t) c ulTimeout i)).length <
            q.woken.length := by
          have hstay : (q.base.waits.queue .send).filter
              (msgQueueSendEx2 q.base (some t) c ulTimeout i).retries = [] := by
            rw [List.filter_eq_nil_iff]
            intro v hv
            simp [State.retries, hqueue, hv]
          rw [Senders.track, List.filter_append, hstay, List.append_nil,
            List.length_filter_lt_length_iff_exists]
          exact ⟨t, hwoken, by simp [State.retries, hidle, Frame.tries]⟩
        simp only [hcounter, hmax] at hplaces
        exact Nat.lt_of_le_of_lt hplaces (Nat.add_lt_add_left hless _)
  | _ => trivial

theorem woken_create {base : State T} (h : Ok none base)
    (hqueue : base.waits.queue .send = []) : Woken (Senders.create base) where
  ok := h
  asleep := by simp [Senders.create, hqueue]
  calls := by simp [Senders.create, hqueue]
  nodup := List.nodup_nil
  retries := nofun
  bound := by simp [Senders.NotStranded, Senders.create, hqueue]

/-- Along a run no sender is stranded if and only if no sender on its way back gives its message to
a waiting receiver while others are blocked and too few are on their way back. -/
theorem senders_not_stranded (store : MsgQueueMem.MsgQueue)
    (ulMaxMsgCounter stMaxMsgByteSize : ℕ) (signalInter : Bool) (receiver : T → Receiver)
    (actions : List (Action T)) :
    Visits Senders.step Senders.NotStranded (Senders.create
      (State.create store ulMaxMsgCounter stMaxMsgByteSize signalInter receiver)) actions ↔
    Obeys Senders.step Replaced (Senders.create
      (State.create store ulMaxMsgCounter stMaxMsgByteSize signalInter receiver)) actions := by
  have hcreate : Woken (Senders.create
      (State.create store ulMaxMsgCounter stMaxMsgByteSize signalInter receiver)) :=
    woken_create (ok_create store ulMaxMsgCounter stMaxMsgByteSize signalInter receiver) rfl
  exact visits_iff_obeys (fun s a s' h ha hstep => h.next ha hstep) (fun s h => h.bound)
    (fun s a s' h hstep hbound => h.replaced hstep hbound) hcreate

/-- Senders 0 and 1 wait for the only place. A receive takes the message and sender 0 out, and
the next one, of thread 2, waits; sender 0 gives its message to it, and sender 1 stays blocked on
an empty queue. -/
theorem sender_left_behind :
    ¬Visits Senders.step Senders.NotStranded
      (Senders.create (State.create (blockAt .w64) 1 4 false
        fun _ : Fin 3 => ⟨0, false, 0, []⟩))
      [.send 2 ⟨[1], 0⟩ none, .enter 2 0, .send 0 ⟨[1], 0⟩ none, .enter 0 0,
        .send 1 ⟨[1], 0⟩ none, .enter 1 0, .tryReceive 2 4 0, .readyHigh, .goOn 0, .wake 0 0,
        .receive 2 ⟨4, false, false⟩ none, .enter 2 0, .enter 0 0] := by
  intro h
  have hrun : (run Senders.step
      (Senders.create (State.create (blockAt .w64) 1 4 false
        fun _ : Fin 3 => ⟨0, false, 0, []⟩))
      [.send 2 ⟨[1], 0⟩ none, .enter 2 0, .send 0 ⟨[1], 0⟩ none, .enter 0 0,
        .send 1 ⟨[1], 0⟩ none, .enter 1 0, .tryReceive 2 4 0, .readyHigh, .goOn 0, .wake 0 0,
        .receive 2 ⟨4, false, false⟩ none, .enter 2 0, .enter 0 0]).map
        (fun s => (s.base.clearing, s.base.waits.queue .send, s.base.ulMaxCounter,
          s.base.ulCounter, s.woken)) = some (false, [1], 1, 0, []) := by
    decide +kernel
  obtain ⟨s', hlast, hvalues⟩ := Option.map_eq_some_iff.mp hrun
  simp only [Prod.mk.injEq] at hvalues
  obtain ⟨hclearing, hqueue, hmax, hcounter, hwoken⟩ := hvalues
  have hplaces := h.last hlast hclearing 1 (by simp [hqueue])
  rw [hmax, hcounter, hwoken] at hplaces
  exact absurd hplaces (by decide)

end SylixOS.MsgQueue
