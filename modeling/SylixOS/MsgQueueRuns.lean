import SylixOS.MsgQueue

/-! The kernel message queue refines a bounded priority queue. The threads and
their buffers are followed in one invariant, the store and what has been told to
the callers in another. -/

namespace SylixOS.MsgQueue
open EventWait MsgQueueMem PriorityQueue StepRuns Function
open MsgQueueLib (Slot msgQPrio msgQPrioLow urgency)

variable {T : Type*} [DecidableEq T]

/-- What a receiver finds in its TCB when it has been taken out of the queue: the message that it
has got, or the marks of a message that did not fit. -/
def Outcome (c : RecvCall) (r : Receiver) : Option Delivery → Prop
  | some d => r.message = d.msg.take c.stMaxByteSize ∧ 0 < r.msgByteSize
  | none => c.ex = true ∧ r.msgByteSize = 0 ∧ r.stMaxByteSize = 0

def FrameOk (tcb : Tcb WaitQ) (taken : Prop) (r : Receiver) : Frame → Prop
  | .sendAsleep _ _ _ => tcb.pend = true → tcb.event = some .send
  | .recvAsleep c _ iSchedRet got =>
    0 < c.stMaxByteSize ∧
      (tcb.pend = true → tcb.event = some .recv ∧ iSchedRet = .none ∧
        (taken → Outcome c r got) ∧
        (¬ taken → got = none ∧ r.stMaxByteSize = c.stMaxByteSize ∧
          r.recvOption = c.recvOption)) ∧
      (tcb.pend = false →
        if iSchedRet = .none ∧ tcb.timeout = false then Outcome c r got else got = none)
  | _ => tcb.pend = false

/-- A message that a receiver has been handed and not yet returned. -/
def Frame.inbox : Frame → Option (List UInt8)
  | .recvAsleep _ _ _ (some d) => if d.broadcast then none else some d.msg
  | _ => none

/-- A receive returns `ERROR_NONE` when it has got a message, cut to its buffer. -/
def RecvReturn.Ok (r : RecvReturn T) : Prop :=
  (r.result = .none ↔ r.got.isSome) ∧ ∀ d ∈ r.got, r.bytes = d.msg.take r.stMaxByteSize

structure Threads (s : State T) : Prop where
  ok : s.waits.Ok s.taken
  frame : ∀ t, FrameOk (s.waits.tcb t) (t ∈ s.taken) (s.receiver t) (s.frame t)
  fair : 0 < s.ulCounter → s.waits.queue .recv = []
  inbox : ∀ t m, (t, m) ∈ s.inbox ↔ (s.frame t).inbox = some m
  keys : (s.inbox.map Prod.fst).Nodup
  returns : ∀ r ∈ s.returns, r.Ok

variable {s : State T} {t : T}

def Caller (s : State T) (who : Option T) : Prop :=
  ∀ t ∈ who, (s.waits.tcb t).pend = false ∧ (s.frame t).inbox = none

omit [DecidableEq T] in
theorem caller_isr : Caller s none := fun _ ht => nomatch ht

omit [DecidableEq T] in
theorem Threads.running (h : Threads s)
    (hsend : ∀ c ulTimeout iSchedRet, s.frame t ≠ .sendAsleep c ulTimeout iSchedRet)
    (hrecv : ∀ c ulTimeout iSchedRet got, s.frame t ≠ .recvAsleep c ulTimeout iSchedRet got) :
    Caller s (some t) := by
  intro u hu
  obtain rfl : t = u := Option.some.inj hu
  have hok := h.frame t
  cases hf : s.frame t with
  | sendAsleep c ulTimeout iSchedRet => exact absurd hf (hsend c ulTimeout iSchedRet)
  | recvAsleep c ulTimeout iSchedRet got => exact absurd hf (hrecv c ulTimeout iSchedRet got)
  | idle => exact ⟨by simpa [FrameOk, hf] using hok, rfl⟩
  | sendAgain c ulTimeout => exact ⟨by simpa [FrameOk, hf] using hok, rfl⟩
  | recvAgain c ulTimeout => exact ⟨by simpa [FrameOk, hf] using hok, rfl⟩

theorem Threads.move (h : Threads s) {frame : Frame}
    (hself : FrameOk (s.waits.tcb t) (t ∈ s.taken) (s.receiver t) frame)
    (hinbox : frame.inbox = (s.frame t).inbox) :
    Threads { s with frame := update s.frame t frame } := by
  constructor
  case ok => exact h.ok
  case frame =>
    intro u
    by_cases hu : u = t
    · subst hu
      simpa [State.taken] using hself
    · simpa [hu, State.taken] using h.frame u
  case fair => exact h.fair
  case inbox =>
    intro u m
    by_cases hu : u = t
    · subst hu
      simpa [hinbox] using h.inbox u m
    · simpa [hu] using h.inbox u m
  case keys => exact h.keys
  case returns => exact h.returns

theorem Threads.leaveCall (h : Threads s) {who : Option T} (hwho : Caller s who) :
    Threads { s with frame := s.leaveCall who } := by
  cases who with
  | none => exact h
  | some t =>
    obtain ⟨hpend, hinbox⟩ := hwho t rfl
    exact h.move (by simpa [FrameOk] using hpend) hinbox.symm

theorem Threads.sendRet (h : Threads s) {who : Option T} (hwho : Caller s who)
    (c : SendCall) (result : Result) : Threads (s.sendRet who c result) := by
  have hleft := h.leaveCall hwho
  constructor
  case ok => exact hleft.ok
  case frame => exact hleft.frame
  case fair => exact hleft.fair
  case inbox => exact hleft.inbox
  case keys => exact hleft.keys
  case returns => exact hleft.returns

theorem Threads.recvRet (h : Threads s) {who : Option T} (hwho : Caller s who)
    {stMaxByteSize : ℕ} {result : Result} {bytes : List UInt8} {got : Option Delivery}
    (hok : RecvReturn.Ok ⟨who, stMaxByteSize, result, bytes, got⟩) :
    Threads (s.recvRet who stMaxByteSize result bytes got) := by
  have hleft := h.leaveCall hwho
  constructor
  case ok => exact hleft.ok
  case frame => exact hleft.frame
  case fair => exact hleft.fair
  case inbox => exact hleft.inbox
  case keys => exact hleft.keys
  case returns =>
    intro r hr
    rcases List.mem_append.mp hr with hr | hr
    · exact h.returns r hr
    · rw [List.mem_singleton.mp hr]
      exact hok

omit [DecidableEq T] in
theorem ok_failed {who : Option T} {stMaxByteSize : ℕ} {result : Result} {bytes : List UInt8}
    (h : result ≠ .none) : RecvReturn.Ok ⟨who, stMaxByteSize, result, bytes, none⟩ :=
  ⟨by simp [h], fun d hd => nomatch hd⟩

omit [DecidableEq T] in
theorem Threads.receiver (h : Threads s) (ht : t ∈ s.waits.queue .recv) :
    ∃ c ulTimeout, s.frame t = .recvAsleep c ulTimeout .none none ∧ 0 < c.stMaxByteSize ∧
      (s.receiver t).stMaxByteSize = c.stMaxByteSize ∧
      (s.receiver t).recvOption = c.recvOption := by
  have hpend := h.ok.pend_of_mem ht
  obtain ⟨hevent, hfree⟩ := (h.ok.queued .recv t).mp ht
  have hok := h.frame t
  cases hf : s.frame t with
  | idle => simp [hf, FrameOk, hpend] at hok
  | sendAgain c ulTimeout => simp [hf, FrameOk, hpend] at hok
  | recvAgain c ulTimeout => simp [hf, FrameOk, hpend] at hok
  | sendAsleep c ulTimeout iSchedRet => simp [hf, FrameOk, hpend, hevent] at hok
  | recvAsleep c ulTimeout iSchedRet got =>
    rw [hf] at hok
    obtain ⟨hsize, hasleep, -⟩ := hok
    obtain ⟨-, rfl, -, hunmet⟩ := hasleep hpend
    obtain ⟨rfl, hmax, hoption⟩ := hunmet hfree
    exact ⟨c, ulTimeout, rfl, hsize, hmax, hoption⟩

theorem outcome_deliver {c : RecvCall} {r : Receiver} {d : Delivery}
    (hc : 0 < c.stMaxByteSize) (hmax : r.stMaxByteSize = c.stMaxByteSize)
    (hlen : 0 < d.msg.length) : Outcome c (r.deliver d.msg) (some d) := by
  unfold Outcome Receiver.deliver
  rw [hmax]
  constructor
  · dsimp only
    split
    case isTrue hlt =>
      rw [List.take_of_length_le (Nat.le_refl _), List.take_of_length_le (by omega)]
    case isFalse => rfl
  · dsimp only
    split <;> omega

theorem outcome_reject {c : RecvCall} {r : Receiver} {n : ℕ}
    (hoption : r.recvOption = c.recvOption) (hn : r.accepts n = false) :
    Outcome c r.reject none := by
  have hex : c.recvOption = false := by
    rw [← hoption]
    simp only [Receiver.accepts, Bool.not_eq_eq_eq_not, Bool.not_false, Bool.and_eq_true] at hn
    simpa using hn.2
  simp only [RecvCall.recvOption, Bool.or_eq_false_iff] at hex
  exact ⟨by simpa using hex.1, rfl, rfl⟩

def State.inboxed (s : State T) (t : T) (d : Delivery) : List (T × List UInt8) :=
  if (s.receiver t).accepts d.msg.length ∧ d.broadcast = false then s.inbox ++ [(t, d.msg)]
  else s.inbox

theorem Threads.passOn (h : Threads s) {i : ℕ} {waits : Waits T WaitQ}
    (hlow : s.waits.eventReadyLowLevel .recv i = some (t, waits)) {d : Delivery}
    (hlen : 0 < d.msg.length) (rest : Rest) :
    Threads { s.passOn waits t d rest with inbox := s.inboxed t d } := by
  obtain ⟨hmem, hok, htcb, hqueue⟩ := h.ok.eventReadyLowLevel hlow
  obtain ⟨c, ulTimeout, hframe, hsize, hmax, hoption⟩ := h.receiver hmem
  have hevent := ((h.ok.queued .recv t).mp hmem).1
  have hpend := h.ok.pend_of_mem hmem
  have hnone : ∀ m, (t, m) ∉ s.inbox := by
    intro m hm
    rw [h.inbox, hframe] at hm
    cases hm
  constructor
  case ok => exact hok
  case frame =>
    intro u
    dsimp only [State.passOn, State.taken]
    rw [htcb]
    by_cases hu : u = t
    · subst hu
      by_cases hfit : (s.receiver u).accepts d.msg.length = true
      · have hout := outcome_deliver (c := c) hsize hmax hlen
        simp [hfit, hframe, Frame.give, FrameOk, hpend, hevent, hsize, hout]
      · have hout := outcome_reject (c := c) hoption (by simpa using hfit)
        simp [hfit, hframe, FrameOk, hpend, hevent, hsize, hout]
    · have hother := h.frame u
      by_cases hfit : (s.receiver t).accepts d.msg.length = true
      · simpa [hfit, hu, State.taken] using hother
      · simpa [hfit, hu, State.taken] using hother
  case fair =>
    intro hpos
    rw [h.fair hpos] at hmem
    cases hmem
  case inbox =>
    intro u m
    dsimp only [State.passOn, State.inboxed]
    by_cases hfit : (s.receiver t).accepts d.msg.length = true
    · by_cases hu : u = t
      · subst hu
        by_cases hb : d.broadcast = true
        · simp [hfit, hb, hframe, Frame.give, Frame.inbox, hnone]
        · simp [hfit, hb, hframe, Frame.give, Frame.inbox, hnone, eq_comm]
      · by_cases hb : d.broadcast = true
        · simp [hfit, hb, hu, h.inbox]
        · simp [hfit, hb, hu, h.inbox]
    · simp [hfit, h.inbox]
  case keys =>
    dsimp only [State.inboxed]
    split
    case isFalse => exact h.keys
    case isTrue =>
      have hout : t ∉ s.inbox.map Prod.fst := by
        intro hin
        obtain ⟨e, he, rfl⟩ := List.mem_map.mp hin
        exact hnone e.2 he
      simpa using h.keys.concat hout
  case returns => exact h.returns

theorem Threads.wait (h : Threads s) (hcaller : Caller s (some t)) {q : WaitQ} {delay : Bool}
    {frame : Frame} {receiver : Receiver}
    (hself : FrameOk ⟨true, delay, false, some q⟩ False receiver frame)
    (hinbox : frame.inbox = none) (hfair : q = .recv → s.ulCounter = 0) :
    Threads { s with
      receiver := update s.receiver t receiver
      waits := s.waits.eventWait t q delay
      frame := update s.frame t frame } := by
  obtain ⟨hpend, hold⟩ := hcaller t rfl
  have hfree := h.ok.not_taken hpend
  constructor
  case ok => exact h.ok.eventWait hpend q delay
  case frame =>
    intro u
    by_cases hu : u = t
    · subst hu
      have hfalse : (u ∈ s.taken) = False := by simp [hfree]
      rw [← hfalse] at hself
      simp only [Waits.eventWait, update_self]
      exact hself
    · simpa [Waits.eventWait, hu, State.taken] using h.frame u
  case fair =>
    intro hpos
    change 0 < s.ulCounter at hpos
    have hne : WaitQ.recv ≠ q := by
      intro he
      have := hfair he.symm
      omega
    simpa [Waits.eventWait, hne] using h.fair hpos
  case inbox =>
    intro u m
    by_cases hu : u = t
    · subst hu
      simp [h.inbox, hold, hinbox]
    · simp [hu, h.inbox]
  case keys => exact h.keys
  case returns => exact h.returns

theorem Threads.wakeSender (h : Threads s) (rest : Rest) (i : ℕ) :
    Threads (wakeSender s rest i) := by
  unfold MsgQueue.wakeSender
  split
  case h_2 => exact h
  case h_1 t waits hlow =>
    obtain ⟨hmem, hok, htcb, hqueue⟩ := h.ok.eventReadyLowLevel hlow
    obtain ⟨hevent, hfree⟩ := (h.ok.queued .send t).mp hmem
    have hpend := h.ok.pend_of_mem hmem
    constructor
    case ok => exact hok
    case frame =>
      intro u
      have hother := h.frame u
      dsimp only [State.taken]
      rw [htcb]
      by_cases hu : u = t
      · subst hu
        cases hf : s.frame u with
        | idle => simp [hf, FrameOk, hpend] at hother
        | sendAgain c ulTimeout => simp [hf, FrameOk, hpend] at hother
        | recvAgain c ulTimeout => simp [hf, FrameOk, hpend] at hother
        | sendAsleep c ulTimeout iSchedRet => simp [FrameOk, hevent]
        | recvAsleep c ulTimeout iSchedRet got => simp [hf, FrameOk, hpend, hevent] at hother
      · simpa [hu, State.taken] using hother
    case fair =>
      intro hpos
      rw [hqueue]
      simpa using h.fair hpos
    case inbox => exact h.inbox
    case keys => exact h.keys
    case returns => exact h.returns

theorem Threads.readyHigh (h : Threads s) {rest : Rest} {outer : List (Poster T)}
    (hposters : s.posters = ⟨some t, rest⟩ :: outer) :
    Threads { s with
      waits := s.waits.eventReadyHighLevel t
      posters := ⟨none, rest⟩ :: outer } := by
  have htaken : s.taken = t :: outer.filterMap Poster.readying := by
    simp [State.taken, hposters]
  have hok := h.ok
  rw [htaken] at hok
  obtain ⟨hready, htcb⟩ := hok.eventReadyHighLevel
  have hpend := hok.held t (by simp)
  constructor
  case ok => simpa [State.taken] using hready
  case frame =>
    intro u
    have hother := h.frame u
    rw [htaken] at hother
    dsimp only [State.taken]
    rw [htcb]
    by_cases hu : u = t
    · subst hu
      cases hf : s.frame u with
      | idle => simp [hf, FrameOk, hpend] at hother
      | sendAgain c ulTimeout => simp [hf, FrameOk, hpend] at hother
      | recvAgain c ulTimeout => simp [hf, FrameOk, hpend] at hother
      | sendAsleep c ulTimeout iSchedRet => simp [FrameOk]
      | recvAsleep c ulTimeout iSchedRet got =>
        rw [hf] at hother
        obtain ⟨hsize, hasleep, -⟩ := hother
        obtain ⟨-, rfl, hout, -⟩ := hasleep hpend
        simp [FrameOk, hsize, hout (by simp)]
    · simpa [hu] using hother
  case fair => exact h.fair
  case inbox => exact h.inbox
  case keys => exact h.keys
  case returns => exact h.returns

theorem signalled_inbox (frame : Frame) (r : SchedRet) :
    (frame.signalled r).inbox = frame.inbox := by
  cases frame with
  | recvAsleep c ulTimeout iSchedRet got => cases got <;> rfl
  | _ => rfl

theorem Threads.leaveQueue (h : Threads s) {q : WaitQ} (hmem : t ∈ s.waits.queue q)
    (r : SchedRet) :
    Threads { s with
      waits := s.waits.leave q t
      frame := update s.frame t ((s.frame t).signalled r) } := by
  have hpend := h.ok.pend_of_mem hmem
  obtain ⟨hevent, hfree⟩ := (h.ok.queued q t).mp hmem
  have hself := h.frame t
  constructor
  case ok => exact h.ok.leave hmem
  case frame =>
    intro u
    by_cases hu : u = t
    · subst hu
      cases hf : s.frame u with
      | idle => simp [hf, FrameOk, hpend] at hself
      | sendAgain c ulTimeout => simp [hf, FrameOk, hpend] at hself
      | recvAgain c ulTimeout => simp [hf, FrameOk, hpend] at hself
      | sendAsleep c ulTimeout iSchedRet => simp [FrameOk, Frame.signalled, Waits.leave]
      | recvAsleep c ulTimeout iSchedRet got =>
        rw [hf] at hself
        obtain ⟨hsize, hasleep, -⟩ := hself
        obtain ⟨rfl, -⟩ := (hasleep hpend).2.2.2 hfree
        simp [FrameOk, Frame.signalled, Waits.leave, hsize]
    · simpa [Waits.leave, hu, State.taken] using h.frame u
  case fair =>
    intro hpos
    have hempty := h.fair hpos
    by_cases hq : WaitQ.recv = q
    · subst hq
      simp [Waits.leave, hempty]
    · simpa [Waits.leave, hq] using hempty
  case inbox =>
    intro u m
    by_cases hu : u = t
    · subst hu
      simp [h.inbox, signalled_inbox]
    · simp [hu, h.inbox]
  case keys => exact h.keys
  case returns => exact h.returns

theorem signalled_none (frame : Frame) : frame.signalled .none = frame := by
  cases frame with
  | sendAsleep c ulTimeout iSchedRet => cases iSchedRet <;> rfl
  | recvAsleep c ulTimeout iSchedRet got => cases iSchedRet <;> rfl
  | _ => rfl

theorem Threads.tick (h : Threads s) (hdelay : (s.waits.tcb t).delay = true) :
    Threads { s with waits := s.waits.threadTick t } := by
  obtain ⟨q, hmem, htick⟩ := h.ok.threadTick hdelay
  have hleft := h.leaveQueue hmem .none
  rw [signalled_none, update_eq_self] at hleft
  rw [htick]
  exact hleft

theorem Threads.signal (h : Threads s) (hposters : s.posters = []) (saType : SchedRet) :
    Threads { s with
      waits := (s.waits.sigMakeReady t saType).2
      frame := update s.frame t
        ((s.frame t).signalled (s.waits.sigMakeReady t saType).1) } := by
  have hfree : t ∉ s.taken := by simp [State.taken, hposters]
  rcases h.ok.sigMakeReady hfree saType with ⟨-, hr⟩ | ⟨q, hmem, hr⟩
  · rw [hr, signalled_none, update_eq_self]
    exact h
  · rw [hr]
    exact h.leaveQueue hmem saType

theorem Threads.sendWake (h : Threads s) (hpend : (s.waits.tcb t).pend = false)
    {c : SendCall} {ulTimeout : Option ℕ} {iSchedRet : SchedRet}
    (hframe : s.frame t = .sendAsleep c ulTimeout iSchedRet) (elapsed : ℕ) :
    Threads (sendWake s t c ulTimeout iSchedRet elapsed) := by
  have hcaller : Caller s (some t) := by
    intro u hu
    obtain rfl : t = u := Option.some.inj hu
    exact ⟨hpend, by rw [hframe]; rfl⟩
  have hagain : ∀ ulTimeout, Threads
      { s with frame := update s.frame t (.sendAgain c ulTimeout) } := fun _ =>
    h.move (by simpa [FrameOk] using hpend) (by rw [hframe]; rfl)
  unfold MsgQueue.sendWake
  split
  · split
    · exact h.sendRet hcaller c _
    · split
      · exact h.sendRet hcaller c _
      · exact hagain _
  · split
    · exact h.sendRet hcaller c _
    · exact hagain _

theorem Threads.recvWake (h : Threads s) (hpend : (s.waits.tcb t).pend = false)
    {c : RecvCall} {ulTimeout : Option ℕ} {iSchedRet : SchedRet} {got : Option Delivery}
    (hframe : s.frame t = .recvAsleep c ulTimeout iSchedRet got) (elapsed : ℕ) :
    Threads (recvWake s t c ulTimeout iSchedRet got elapsed) := by
  have hself := h.frame t
  rw [hframe] at hself
  obtain ⟨hsize, -, hready⟩ := hself
  have hready := hready hpend
  have hcaller : got = none → Caller s (some t) := by
    rintro rfl u hu
    obtain rfl : t = u := Option.some.inj hu
    exact ⟨hpend, by rw [hframe]; rfl⟩
  unfold MsgQueue.recvWake
  split
  case isTrue hret =>
    rw [if_neg (by simp [hret])] at hready
    subst hready
    split
    case isTrue => exact h.recvRet (hcaller rfl) (ok_failed (by simp))
    case isFalse =>
      split
      case isTrue => exact h.recvRet (hcaller rfl) (ok_failed (by simp))
      case isFalse => exact h.move (by simpa [FrameOk] using hpend) (by rw [hframe]; rfl)
  case isFalse hret =>
    have hret : iSchedRet = .none := by simpa using hret
    split
    case isTrue htimeout =>
      rw [if_neg (by simp [htimeout])] at hready
      subst hready
      exact h.recvRet (hcaller rfl) (ok_failed (by simp))
    case isFalse htimeout =>
      rw [if_pos ⟨hret, by simpa using htimeout⟩] at hready
      cases got with
      | none =>
        -- the message that it was to get did not fit
        obtain ⟨hex, hlen, hmax⟩ := hready
        rw [if_pos ⟨hex, hlen, hmax⟩]
        exact h.recvRet (hcaller rfl) (ok_failed (by simp))
      | some d =>
        obtain ⟨hmessage, hlen⟩ := hready
        have hnot : ¬ (c.ex = true ∧ (s.receiver t).msgByteSize = 0 ∧
            (s.receiver t).stMaxByteSize = 0) := by
          intro hall
          omega
        rw [if_neg hnot]
        constructor
        case ok => exact h.ok
        case frame =>
          intro u
          by_cases hu : u = t
          · subst hu
            simpa [State.recvRet, State.leaveCall, FrameOk] using hpend
          · have hother := h.frame u
            simpa [State.recvRet, State.leaveCall, hu, State.taken] using hother
        case fair => exact h.fair
        case inbox =>
          intro u m
          by_cases hu : u = t
          · simp [State.recvRet, State.leaveCall, hu, Frame.inbox]
          · simp [State.recvRet, State.leaveCall, hu, h.inbox]
        case keys => exact h.keys.sublist (List.filter_sublist.map _)
        case returns =>
          intro r hr
          rcases List.mem_append.mp hr with hr | hr
          · exact h.returns r hr
          · rw [List.mem_singleton.mp hr]
            refine ⟨by simp, ?_⟩
            rintro e he
            obtain rfl : d = e := Option.some.inj he
            exact hmessage

def SendReturn.accepted (r : SendReturn T) : List (List UInt8) :=
  if r.result = .none ∧ r.call.isBroadcast = false then [r.call.msg] else []

def RecvReturn.message (r : RecvReturn T) : Option (List UInt8) :=
  r.got.bind fun d => if d.broadcast then none else some d.msg

def State.Created (s : State T) (L : Layout) : Prop :=
  L.Ok ∧ s.stMaxBytes = L.stMaxBytes ∧ s.ulMaxCounter = L.ulMsgTotal

structure Books (L : Layout) (s : State T) : Prop where
  created : s.Created L
  store : ∃ r chain a, Stored L s.store r chain a.queue ∧
    Admits (Ledger.Step L.ulMsgTotal) Ledger.empty s.history a ∧
    s.ulCounter = a.queue.length ∧
    a.delivered.Perm (s.inbox.map Prod.snd ++ s.returns.filterMap RecvReturn.message)
  sends : s.sends.flatMap SendReturn.accepted = s.history.flatMap Event.sent

variable {L : Layout}

theorem admits_one {ulMaxCounter : ℕ} {a b c : Ledger} {es : List Event} {e : Event}
    (h : Admits (Ledger.Step ulMaxCounter) a es b) (hstep : b.Step ulMaxCounter e c) :
    Admits (Ledger.Step ulMaxCounter) a (es ++ [e]) c :=
  admits_append h ⟨c, hstep, rfl⟩

theorem Books.sendRet (h : Books L s) {who : Option T} {c : SendCall}
    {result : Result} (hquiet : result ≠ .none ∨ c.isBroadcast = true) :
    Books L (s.sendRet who c result) := by
  have haccepted : (⟨who, c, result⟩ : SendReturn T).accepted = [] := by
    rcases hquiet with hresult | hbroadcast
    · simp [SendReturn.accepted, hresult]
    · simp [SendReturn.accepted, hbroadcast]
  constructor
  case created => exact h.created
  case store => exact h.store
  case sends => simp [State.sendRet, haccepted, h.sends]

theorem Books.recvRet (h : Books L s) {who : Option T} {stMaxByteSize : ℕ}
    {result : Result} {bytes : List UInt8} :
    Books L (s.recvRet who stMaxByteSize result bytes none) := by
  obtain ⟨r, chain, a, hstored, hadmits, hcount, hperm⟩ := h.store
  have hmessage : (⟨who, stMaxByteSize, result, bytes, none⟩ : RecvReturn T).message = none :=
    rfl
  refine ⟨h.created, ⟨r, chain, a, hstored, hadmits, hcount, ?_⟩, h.sends⟩
  simpa [State.recvRet, List.filterMap_append, hmessage] using hperm

theorem Books.put (h : Books L s) (hroom : s.ulCounter < s.ulMaxCounter)
    {who : Option T} {c : SendCall} (hc : c.isBroadcast = false)
    (hlong : c.msg.length ≤ s.stMaxBytes) {uiPrio : ℕ} (hprio : uiPrio < msgQPrio) :
    Books L ({ s with
      ulCounter := s.ulCounter + 1
      store := msgQueuePut s.store c.msg uiPrio
      history := s.history ++ [Event.put c.msg uiPrio] }.sendRet who c .none) := by
  obtain ⟨r, chain, a, hstored, hadmits, hcount, hperm⟩ := h.store
  obtain ⟨hL, hbytes, hmax⟩ := h.created
  have hlt : a.queue.length < L.ulMsgTotal := by omega
  obtain ⟨r', chain', hput⟩ := hstored.put hL hlt (hbytes ▸ hlong) hprio
  constructor
  case created => exact h.created
  case store =>
    refine ⟨r', chain', { a with queue := a.queue ++ [⟨urgency uiPrio, c.msg⟩] }, hput,
      admits_one hadmits ⟨hlt, hprio, rfl⟩, ?_, hperm⟩
    simp [State.sendRet, hcount]
  case sends => simp [State.sendRet, h.sends, SendReturn.accepted, hc, Event.sent]

theorem Books.handed (h : Books L s) (hempty : s.ulCounter = 0) {who : Option T}
    {c : SendCall} (hc : c.isBroadcast = false) (waits : Waits T WaitQ) (t : T)
    (d : Delivery) (rest : Rest) :
    Books L ({ s.passOn waits t d rest with
      history := s.history ++ [Event.handed c.msg]
      inbox := s.inbox ++ [(t, c.msg)] }.sendRet who c .none) := by
  obtain ⟨r, chain, a, hstored, hadmits, hcount, hperm⟩ := h.store
  have hnil : a.queue = [] := by
    rw [← List.length_eq_zero_iff]
    omega
  constructor
  case created => exact h.created
  case store =>
    refine ⟨r, chain, { a with delivered := a.delivered ++ [c.msg] }, hstored,
      admits_one hadmits ⟨hnil, rfl⟩, hcount, ?_⟩
    simp only [State.sendRet, State.passOn, List.map_append, List.map_cons, List.map_nil,
      List.append_assoc]
    apply (hperm.append_right _).trans
    rw [List.append_assoc]
    exact List.Perm.append_left _ List.perm_append_comm
  case sends =>
    simp [State.sendRet, State.passOn, h.sends, SendReturn.accepted, hc, Event.sent]

theorem Books.took (h : Books L s) (hpos : 0 < s.ulCounter) (who : Option T)
    (stMaxByteSize : ℕ) :
    ∃ msg store, msgQueueGet s.store stMaxByteSize = some (⟨msg.take stMaxByteSize, msg⟩, store) ∧
      Books L ({ s with
        ulCounter := s.ulCounter - 1
        store := store
        history := s.history ++ [Event.took msg] }.recvRet who stMaxByteSize .none
          (msg.take stMaxByteSize) (some ⟨msg, false⟩)) := by
  obtain ⟨r, chain, a, hstored, hadmits, hcount, hperm⟩ := h.store
  have hne : a.queue ≠ [] := by
    rw [← List.length_pos_iff]
    omega
  obtain ⟨p, msg, store, r', chain', hbest, -, hget, hstored'⟩ :=
    hstored.get h.created.1 hne stMaxByteSize
  have hpop := length_pop hbest
  refine ⟨msg, store, hget, ?_⟩
  constructor
  case created => exact h.created
  case store =>
    have hmessage : (⟨who, stMaxByteSize, .none, msg.take stMaxByteSize,
        some ⟨msg, false⟩⟩ : RecvReturn T).message = some msg := rfl
    refine ⟨r', chain', { a with queue := pop a.queue, delivered := a.delivered ++ [msg] }, hstored',
      admits_one hadmits ⟨p, hbest, rfl⟩, ?_, ?_⟩
    · dsimp only [State.recvRet]
      omega
    · simpa [State.recvRet, List.filterMap_append, hmessage] using hperm.append_right [msg]
  case sends => simp [State.recvRet, h.sends, Event.sent]

omit [DecidableEq T] in
theorem Books.clear (h : Books L s) :
    Books L { s with
      store := msgQueueClear s.store s.stMaxBytes s.ulMaxCounter
      ulCounter := 0
      history := s.history ++ [Event.cleared] } := by
  obtain ⟨r, chain, a, hstored, hadmits, hcount, hperm⟩ := h.store
  obtain ⟨hL, hbytes, hmax⟩ := h.created
  obtain ⟨r', chain', hclear⟩ := hstored.clear hL
  constructor
  case created => exact h.created
  case store =>
    rw [hbytes, hmax]
    exact ⟨r', chain', _, hclear, admits_one hadmits rfl, rfl, hperm⟩
  case sends => simp [h.sends, Event.sent]

theorem Books.wakeSender (h : Books L s) (rest : Rest) (i : ℕ) :
    Books L (wakeSender s rest i) := by
  unfold MsgQueue.wakeSender
  split
  · exact ⟨h.created, h.store, h.sends⟩
  · exact h

theorem Books.sendWake (h : Books L s) (t : T) (c : SendCall)
    (ulTimeout : Option ℕ) (iSchedRet : SchedRet) (elapsed : ℕ) :
    Books L (sendWake s t c ulTimeout iSchedRet elapsed) := by
  unfold MsgQueue.sendWake
  split
  · split
    · exact h.sendRet (Or.inl (by simp))
    · split
      · exact h.sendRet (Or.inl (by simp))
      · exact ⟨h.created, h.store, h.sends⟩
  · split
    · exact h.sendRet (Or.inl (by simp))
    · exact ⟨h.created, h.store, h.sends⟩

theorem perm_filter_key {l : List (T × List UInt8)} {m : List UInt8} (hkeys : (l.map Prod.fst).Nodup)
    (hm : (t, m) ∈ l) : l.Perm ((t, m) :: l.filter fun e => e.1 ≠ t) := by
  induction l with
  | nil => cases hm
  | cons e l ih =>
    obtain ⟨hout, hkeys⟩ := List.nodup_cons.mp hkeys
    rcases List.mem_cons.mp hm with rfl | hm
    · have hrest : l.filter (fun e => e.1 ≠ t) = l := by
        apply List.filter_eq_self.mpr
        intro f hf
        have hne : f.1 ≠ t := fun he => hout (List.mem_map.mpr ⟨f, hf, he⟩)
        simpa using hne
      rw [List.filter_cons_of_neg (by simp), hrest]
    · have hne : e.1 ≠ t := fun he => hout (List.mem_map.mpr ⟨(t, m), hm, he.symm⟩)
      rw [List.filter_cons_of_pos (by simpa using hne)]
      exact ((ih hkeys hm).cons e).trans (List.Perm.swap _ _ _)

theorem Books.recvWake (h : Books L s) (hthreads : Threads s)
    (hpend : (s.waits.tcb t).pend = false) {c : RecvCall} {ulTimeout : Option ℕ}
    {iSchedRet : SchedRet} {got : Option Delivery}
    (hframe : s.frame t = .recvAsleep c ulTimeout iSchedRet got) (elapsed : ℕ) :
    Books L (recvWake s t c ulTimeout iSchedRet got elapsed) := by
  have hself := hthreads.frame t
  rw [hframe] at hself
  obtain ⟨-, -, hready⟩ := hself
  have hready := hready hpend
  unfold MsgQueue.recvWake
  split
  case isTrue hret =>
    rw [if_neg (by simp [hret])] at hready
    subst hready
    split
    case isTrue => exact h.recvRet
    case isFalse =>
      split
      case isTrue => exact h.recvRet
      case isFalse => exact ⟨h.created, h.store, h.sends⟩
  case isFalse hret =>
    have hret : iSchedRet = .none := by simpa using hret
    split
    case isTrue htimeout =>
      rw [if_neg (by simp [htimeout])] at hready
      subst hready
      exact h.recvRet
    case isFalse htimeout =>
      rw [if_pos ⟨hret, by simpa using htimeout⟩] at hready
      cases got with
      | none =>
        obtain ⟨hex, hlen, hmax⟩ := hready
        rw [if_pos ⟨hex, hlen, hmax⟩]
        exact h.recvRet
      | some d =>
        obtain ⟨-, hlen⟩ := hready
        have hnot : ¬ (c.ex = true ∧ (s.receiver t).msgByteSize = 0 ∧
            (s.receiver t).stMaxByteSize = 0) := by
          intro hall
          omega
        rw [if_neg hnot]
        obtain ⟨r, chain, a, hstored, hadmits, hcount, hperm⟩ := h.store
        refine ⟨h.created, ⟨r, chain, a, hstored, hadmits, hcount, hperm.trans ?_⟩, h.sends⟩
        simp only [State.recvRet, List.filterMap_append]
        by_cases hb : d.broadcast = true
        · have hout : s.inbox.filter (fun e => e.1 ≠ t) = s.inbox := by
            apply List.filter_eq_self.mpr
            intro e he
            have hne : e.1 ≠ t := by
              rintro rfl
              have hin := (hthreads.inbox e.1 e.2).mp he
              simp [hframe, Frame.inbox, hb] at hin
            simpa using hne
          have hmessage : (⟨some t, c.stMaxByteSize, .none, (s.receiver t).message,
              some d⟩ : RecvReturn T).message = none := by simp [RecvReturn.message, hb]
          rw [hout]
          simp [hmessage]
        · have hmem : (t, d.msg) ∈ s.inbox := by
            rw [hthreads.inbox, hframe]
            simp [Frame.inbox, hb]
          have hmove := (perm_filter_key hthreads.keys hmem).map Prod.snd
          have hmessage : (⟨some t, c.stMaxByteSize, .none, (s.receiver t).message,
              some d⟩ : RecvReturn T).message = some d.msg := by simp [RecvReturn.message, hb]
          apply (hmove.append_right _).trans
          simp only [List.map_cons, List.cons_append, List.filterMap_cons, List.filterMap_nil,
            hmessage]
          rw [← List.append_assoc]
          exact (List.perm_append_singleton _ _).symm

structure Ok (block : Option Layout) (s : State T) : Prop where
  threads : Threads s
  books : ∀ L ∈ block, Books L s
  broadcasts : ∀ p ∈ s.posters, ∀ msg, p.rest = .broadcast msg → 0 < msg.length

variable {block : Option Layout}

omit [DecidableEq T] in
theorem Threads.stored (h : Threads s) {store : MsgQueueMem.MsgQueue} {ulCounter : ℕ}
    {history : List Event} (hfair : 0 < ulCounter → s.waits.queue .recv = []) :
    Threads { s with
      store := store
      ulCounter := ulCounter
      history := history } :=
  ⟨h.ok, h.frame, hfair, h.inbox, h.keys, h.returns⟩

theorem Caller.passOn {who : Option T} (hwho : Caller s who) (h : Threads s) {i : ℕ}
    {waits : Waits T WaitQ} (hlow : s.waits.eventReadyLowLevel .recv i = some (t, waits))
    (d : Delivery) (rest : Rest) : Caller (s.passOn waits t d rest) who := by
  obtain ⟨hmem, -, htcb, -⟩ := h.ok.eventReadyLowLevel hlow
  intro u hu
  obtain ⟨hpend, hinbox⟩ := hwho u hu
  have hne : u ≠ t := by
    rintro rfl
    simp [h.ok.pend_of_mem hmem] at hpend
  dsimp only [State.passOn]
  rw [htcb]
  refine ⟨by simpa [hne] using hpend, ?_⟩
  split
  · simpa [hne] using hinbox
  · exact hinbox

theorem Ok.sendRet (h : Ok block s) {who : Option T} (hwho : Caller s who)
    {c : SendCall} {result : Result} (hquiet : result ≠ .none ∨ c.isBroadcast = true) :
    Ok block (s.sendRet who c result) :=
  ⟨h.threads.sendRet hwho c result, fun L hL => (h.books L hL).sendRet hquiet, h.broadcasts⟩

theorem Ok.recvRet (h : Ok block s) {who : Option T} (hwho : Caller s who)
    {stMaxByteSize : ℕ} {result : Result} {bytes : List UInt8} (hresult : result ≠ .none) :
    Ok block (s.recvRet who stMaxByteSize result bytes none) :=
  ⟨h.threads.recvRet hwho (ok_failed hresult), fun L hL => (h.books L hL).recvRet, h.broadcasts⟩

omit [DecidableEq T] in
theorem Ok.quiet (h : Ok block s) {s' : State T} (hthreads : Threads s')
    (hsame : ∀ L, Books L s → Books L s')
    (hposters : ∀ p ∈ s'.posters, ∀ msg, p.rest = .broadcast msg → 0 < msg.length) : Ok block s' :=
  ⟨hthreads, fun L hL => hsame L (h.books L hL), hposters⟩

theorem Ok.passOn (h : Ok block s) {i : ℕ} {waits : Waits T WaitQ}
    (hlow : s.waits.eventReadyLowLevel .recv i = some (t, waits)) {d : Delivery}
    (hlen : 0 < d.msg.length) {rest : Rest}
    (hquiet : d.broadcast = true ∨ (s.receiver t).accepts d.msg.length = false)
    (hrest : ∀ msg, rest = .broadcast msg → 0 < msg.length) :
    Ok block (s.passOn waits t d rest) := by
  have hinboxed : s.inboxed t d = s.inbox := by
    unfold State.inboxed
    rcases hquiet with hb | hfit
    · simp [hb]
    · simp [hfit]
  have hthreads := h.threads.passOn hlow hlen rest
  rw [hinboxed] at hthreads
  refine h.quiet hthreads (fun L hL => ⟨hL.created, hL.store, hL.sends⟩) ?_
  intro p hp
  rcases List.mem_cons.mp hp with rfl | hp
  · exact hrest
  · exact h.broadcasts p hp

theorem Ok.sendSection (h : Ok block s) {who : Option T} (hwho : Caller s who)
    {c : SendCall} (hlen : 0 < c.msg.length) (hlong : c.msg.length ≤ s.stMaxBytes)
    (hc : c.isBroadcast = false) (ulTimeout : Option ℕ) (uiPrio i : ℕ) :
    Ok block (sendSection s who c ulTimeout uiPrio i) := by
  unfold MsgQueue.sendSection
  split
  case h_1 t waits hlow =>
    obtain ⟨hmem, -, -, -⟩ := h.threads.ok.eventReadyLowLevel hlow
    have hempty : s.ulCounter = 0 := by
      by_contra hne
      rw [h.threads.fair (Nat.pos_of_ne_zero hne)] at hmem
      cases hmem
    split
    case isTrue hfit =>
      have hthreads := h.threads.passOn hlow (d := ⟨c.msg, false⟩) hlen .exit
      have hinboxed : s.inboxed t ⟨c.msg, false⟩ = s.inbox ++ [(t, c.msg)] := by
        simp [State.inboxed, hfit]
      rw [hinboxed] at hthreads
      have hpassed : Threads { s.passOn waits t ⟨c.msg, false⟩ .exit with
          history := s.history ++ [Event.handed c.msg]
          inbox := s.inbox ++ [(t, c.msg)] } := hthreads.stored hthreads.fair
      refine ⟨hpassed.sendRet (hwho.passOn h.threads hlow ⟨c.msg, false⟩ .exit) c .none,
        fun L hL => (h.books L hL).handed hempty hc waits t _ _, ?_⟩
      intro p hp
      rcases List.mem_cons.mp hp with rfl | hp
      · intro msg hmsg
        cases hmsg
      · exact h.broadcasts p hp
    case isFalse hfit =>
      apply h.passOn hlow hlen (Or.inr (by simpa using hfit))
      intro msg hmsg
      split at hmsg <;> cases hmsg
  case h_2 hlow =>
    have hnobody := Waits.eventReadyLowLevel_none.mp hlow
    split
    case isTrue => exact h.sendRet hwho (Or.inl (by simp))
    case isFalse hprio =>
      split
      case isTrue hroom =>
        have hlt : uiPrio < msgQPrio := by
          unfold msgQPrioLow at hprio
          unfold msgQPrio
          omega
        have hstored : Threads { s with
            ulCounter := s.ulCounter + 1
            store := msgQueuePut s.store c.msg uiPrio
            history := s.history ++ [Event.put c.msg uiPrio] } :=
          h.threads.stored fun _ => hnobody
        exact ⟨hstored.sendRet hwho c .none,
          fun L hL => (h.books L hL).put hroom hc hlong hlt, h.broadcasts⟩
      case isFalse hfull =>
        split
        case h_1 => exact h.sendRet hwho (Or.inl (by simp))
        case h_2 t =>
          split
          case isTrue => exact h.sendRet hwho (Or.inl (by simp))
          case isFalse =>
            have hself : FrameOk ⟨true, ulTimeout.isSome, false, some .send⟩ False (s.receiver t)
                (.sendAsleep c ulTimeout .none) := fun _ => rfl
            have hwait := h.threads.wait hwho hself rfl nofun
            rw [update_eq_self] at hwait
            exact h.quiet hwait (fun L hL => ⟨hL.created, hL.store, hL.sends⟩) h.broadcasts

theorem Ok.broadcastRound (h : Ok block s) {msg : List UInt8} (hlen : 0 < msg.length)
    (i : ℕ) : Ok block (broadcastRound s msg i) := by
  unfold MsgQueue.broadcastRound
  split
  case h_2 => exact h
  case h_1 t waits hlow =>
    apply h.passOn hlow hlen (Or.inl rfl)
    intro m hm
    cases hm
    exact hlen

theorem Ok.sendEx2 (h : Ok block s) {who : Option T} (hwho : Caller s who)
    (c : SendCall) (ulTimeout : Option ℕ) (i : ℕ) :
    Ok block (msgQueueSendEx2 s who c ulTimeout i) := by
  unfold msgQueueSendEx2
  split
  case isTrue => exact h.sendRet hwho (Or.inl (by simp))
  case isFalse hbad =>
    have hlen : 0 < c.msg.length := by
      by_contra hzero
      exact hbad (Or.inl (by omega))
    have hlong : c.msg.length ≤ s.stMaxBytes := by
      by_contra hlt
      exact hbad (Or.inr (by omega))
    split
    case isTrue hdefault =>
      have hc : c.isBroadcast = false := by
        have hzero : c.ulOption = 0#32 := by simpa [SendCall.isDefault] using hdefault
        simp [SendCall.isBroadcast, hzero]
      exact h.sendSection hwho hlen hlong hc ulTimeout _ i
    case isFalse =>
      split
      case isTrue hurgent =>
        have hc : c.isBroadcast = false := by simp [SendCall.isBroadcast, hurgent]
        exact h.sendSection hwho hlen hlong hc ulTimeout _ i
      case isFalse =>
        split
        case isTrue hbroadcast =>
          exact (h.sendRet hwho (Or.inr hbroadcast)).broadcastRound hlen i
        case isFalse => exact h.sendRet hwho (Or.inl (by simp))

theorem Ok.wakeSender (h : Ok block s) {rest : Rest}
    (hrest : ∀ msg, rest = .broadcast msg → 0 < msg.length) (i : ℕ) :
    Ok block (wakeSender s rest i) := by
  refine ⟨h.threads.wakeSender rest i, fun L hL => (h.books L hL).wakeSender rest i, ?_⟩
  unfold MsgQueue.wakeSender
  split
  · intro p hp
    rcases List.mem_cons.mp hp with rfl | hp
    · exact hrest
    · exact h.broadcasts p hp
  · exact h.broadcasts

theorem Ok.takeMessage (h : Ok block s) {who : Option T} (hwho : Caller s who)
    (hpos : 0 < s.ulCounter) (stMaxByteSize i : ℕ) :
    Ok block (takeMessage s who stMaxByteSize i) := by
  unfold MsgQueue.takeMessage
  split
  case h_1 => exact h
  case h_2 got store hget =>
    have hstored : Threads { s with
        ulCounter := s.ulCounter - 1
        store := store
        history := s.history ++ [Event.took got.whole] } :=
      h.threads.stored fun hleft => h.threads.fair (by omega)
    have hok : RecvReturn.Ok
        ⟨who, stMaxByteSize, .none, got.bytes, some ⟨got.whole, false⟩⟩ := by
      refine ⟨by simp, ?_⟩
      rintro d hd
      obtain rfl := Option.some.inj hd
      exact msgQueueGet_bytes hget
    have hreturned : Ok block ({ s with
        ulCounter := s.ulCounter - 1
        store := store
        history := s.history ++ [Event.took got.whole] }.recvRet who stMaxByteSize .none
          got.bytes (some ⟨got.whole, false⟩)) := by
      refine ⟨hstored.recvRet hwho hok, fun L hL => ?_, h.broadcasts⟩
      obtain ⟨msg, store', hget', hbooks⟩ := (h.books L hL).took hpos who stMaxByteSize
      obtain ⟨rfl, rfl⟩ := Prod.mk.inj (Option.some.inj (hget.symm.trans hget'))
      exact hbooks
    exact hreturned.wakeSender (by simp) i

theorem Ok.receiveEx (h : Ok block s) (hcaller : Caller s (some t)) (c : RecvCall)
    (ulTimeout : Option ℕ) (i : ℕ) : Ok block (msgQueueReceiveEx s t c ulTimeout i) := by
  unfold msgQueueReceiveEx
  split
  case isTrue => exact h.recvRet hcaller (by simp)
  case isFalse hsize =>
    split
    case isTrue hpos =>
      split
      case isTrue => exact h.recvRet hcaller (by simp)
      case isFalse => exact h.takeMessage hcaller hpos _ i
    case isFalse hempty =>
      split
      case isTrue => exact h.recvRet hcaller (by simp)
      case isFalse =>
        have hself : FrameOk ⟨true, ulTimeout.isSome, false, some WaitQ.recv⟩ False
            { s.receiver t with stMaxByteSize := c.stMaxByteSize, recvOption := c.recvOption }
            (.recvAsleep c ulTimeout .none none) := by
          simp [FrameOk]
          omega
        have hwait := h.threads.wait hcaller hself rfl fun _ => by omega
        exact h.quiet hwait (fun L hL => ⟨hL.created, hL.store, hL.sends⟩) h.broadcasts

theorem Ok.tryReceive (h : Ok block s) {who : Option T} (hwho : Caller s who)
    (stMaxByteSize i : ℕ) : Ok block (msgQueueTryReceive s who stMaxByteSize i) := by
  unfold msgQueueTryReceive
  split
  case isTrue hpos => exact h.takeMessage hwho hpos _ i
  case isFalse => exact h.recvRet hwho (by simp)

theorem Ok.clear (h : Ok block s) (i : ℕ) : Ok block (clearQueue s i) := by
  have hcleared : Ok block { s with
      store := msgQueueClear s.store s.stMaxBytes s.ulMaxCounter
      ulCounter := 0
      history := s.history ++ [.cleared] } :=
    ⟨h.threads.stored (by simp), fun L hL => (h.books L hL).clear, h.broadcasts⟩
  exact hcleared.wakeSender (by simp) i

omit [DecidableEq T] in
theorem threads_create (store : MsgQueueMem.MsgQueue) (ulMaxMsgCounter stMaxMsgByteSize : ℕ)
    (signalInter : Bool) (receiver : T → Receiver) :
    Threads (State.create store ulMaxMsgCounter stMaxMsgByteSize signalInter receiver) := by
  constructor
  case ok => exact Waits.ok_empty
  case frame => exact fun t => rfl
  case fair => exact fun _ => rfl
  case inbox => exact fun t m => ⟨nofun, nofun⟩
  case keys => exact List.nodup_nil
  case returns => exact nofun

omit [DecidableEq T] in
theorem ok_create (store : MsgQueueMem.MsgQueue) (ulMaxMsgCounter stMaxMsgByteSize : ℕ)
    (signalInter : Bool) (receiver : T → Receiver) :
    Ok none (State.create store ulMaxMsgCounter stMaxMsgByteSize signalInter receiver) :=
  ⟨threads_create store _ _ _ _, nofun, nofun⟩

theorem Ok.goOn (h : Ok block s) {rest : Rest}
    (hrest : ∀ msg, rest = .broadcast msg → 0 < msg.length) (i : ℕ) :
    Ok block (goOn s rest i) := by
  cases rest with
  | exit => exact h
  | resend c => exact h.sendEx2 caller_isr c (some 0) i
  | broadcast msg => exact h.broadcastRound (hrest msg rfl) i
  | clear => exact h.wakeSender (by simp) i

theorem Ok.enters (h : Ok block s) {frame : Frame} (hframe : s.frame t = .idle)
    (hinbox : frame.inbox = none)
    (hself : (s.waits.tcb t).pend = false →
      FrameOk (s.waits.tcb t) (t ∈ s.taken) (s.receiver t) frame) :
    Ok block { s with frame := update s.frame t frame } := by
  have hidle := h.threads.frame t
  rw [hframe] at hidle
  exact h.quiet (h.threads.move (hself hidle) (by rw [hframe, hinbox]; rfl))
    (fun L hL => ⟨hL.created, hL.store, hL.sends⟩) h.broadcasts

theorem Ok.step (h : Ok block s) {a : Action T} {s' : State T}
    (hstep : step s a = some s') : Ok block s' := by
  cases step_cases hstep with
  | send t c ulTimeout hframe | receive t c ulTimeout hframe => exact h.enters hframe rfl id
  | enterSend t i c ulTimeout _ hframe =>
    exact h.sendEx2 (h.threads.running (by simp [hframe]) (by simp [hframe])) c ulTimeout i
  | enterRecv t i c ulTimeout _ hframe =>
    exact h.receiveEx (h.threads.running (by simp [hframe]) (by simp [hframe])) c ulTimeout i
  | wakeSend t elapsed c ulTimeout iSchedRet hpend hframe =>
    refine ⟨h.threads.sendWake hpend hframe elapsed,
      fun L hL => (h.books L hL).sendWake t c _ _ elapsed, ?_⟩
    unfold MsgQueue.sendWake
    split <;> split <;> try split
    all_goals exact h.broadcasts
  | wakeRecv t elapsed c ulTimeout iSchedRet got hpend hframe =>
    refine ⟨h.threads.recvWake hpend hframe elapsed,
      fun L hL => (h.books L hL).recvWake h.threads hpend hframe elapsed, ?_⟩
    unfold MsgQueue.recvWake
    split <;> split <;> try split
    all_goals exact h.broadcasts
  | tryReceive t stMaxByteSize i _ hframe =>
    exact h.tryReceive (h.threads.running (by simp [hframe]) (by simp [hframe])) _ i
  | clear inIsr i => exact h.clear i
  | isrSend c i => exact h.sendEx2 caller_isr c (some 0) i
  | isrTryReceive stMaxByteSize i => exact h.tryReceive caller_isr stMaxByteSize i
  | readyHigh t rest outer hposters =>
    apply h.quiet (h.threads.readyHigh hposters) fun L hL => ⟨hL.created, hL.store, hL.sends⟩
    intro p hp
    rcases List.mem_cons.mp hp with rfl | hp
    · exact h.broadcasts ⟨some t, rest⟩ (by simp [hposters])
    · exact h.broadcasts p (by simp [hposters, hp])
  | goOn i rest outer hposters =>
    have htaken : ({ s with posters := outer } : State T).taken = s.taken := by
      simp [State.taken, hposters]
    have hthreads : Threads { s with posters := outer } :=
      ⟨by rw [htaken]; exact h.threads.ok, by rw [htaken]; exact h.threads.frame,
        h.threads.fair, h.threads.inbox, h.threads.keys, h.threads.returns⟩
    have hleft : Ok block { s with posters := outer } :=
      h.quiet hthreads (fun L hL => ⟨hL.created, hL.store, hL.sends⟩)
        fun p hp => h.broadcasts p (by simp [hposters, hp])
    exact hleft.goOn (h.broadcasts ⟨none, rest⟩ (by simp [hposters])) i
  | tick t hdelay =>
    exact h.quiet (h.threads.tick hdelay) (fun L hL => ⟨hL.created, hL.store, hL.sends⟩)
      h.broadcasts
  | signal t saRestart hposters =>
    exact h.quiet (h.threads.signal hposters _) (fun L hL => ⟨hL.created, hL.store, hL.sends⟩)
      h.broadcasts

end SylixOS.MsgQueue
