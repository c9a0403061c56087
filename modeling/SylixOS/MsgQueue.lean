import SylixOS.EventWait
import SylixOS.MsgQueueMem

/-! The kernel message queue (MsgQueueSend.c, MsgQueueSendEx.c, MsgQueueReceive.c,
MsgQueueTryReceive.c, MsgQueueClear.c). Every call runs in sections that hold the kernel;
behind a section that has taken a thread out of a wait queue an interrupt may send, try to
receive or clear. Of a signal only the value remains with which the scheduler returns to
the call. -/

namespace SylixOS.MsgQueue
open EventWait MsgQueueMem PriorityQueue StepRuns Function
open MsgQueueLib (msgQPrio msgQPrioLow urgency)

variable {T : Type*} [DecidableEq T]

inductive WaitQ where
  | recv
  | send
  deriving DecidableEq, Repr

/-- The arguments of `API_MsgQueueSendEx2`; with `LW_OPTION_DEFAULT` it is `API_MsgQueueSend2`. -/
structure SendCall where
  msg : List UInt8
  ulOption : BitVec 32

def lwOptionUrgent : BitVec 32 := 0x1#32

def lwOptionBroadcast : BitVec 32 := 0x2#32

def SendCall.isDefault (c : SendCall) : Bool := c.ulOption = 0#32

def SendCall.isUrgent (c : SendCall) : Bool := c.ulOption &&& lwOptionUrgent ≠ 0#32

def SendCall.isBroadcast (c : SendCall) : Bool :=
  !c.isUrgent && c.ulOption &&& lwOptionBroadcast ≠ 0#32

def SendCall.uiPrio (c : SendCall) : ℕ := ((c.ulOption >>> 4) &&& 0xf#32).toNat

def SendCall.Valid (c : SendCall) (stMaxBytes : ℕ) : Prop :=
  0 < c.msg.length ∧ c.msg.length ≤ stMaxBytes ∧
    (c.isDefault = true ∨ c.isUrgent = true ∧ c.uiPrio ≤ msgQPrioLow)

/-- The arguments of `API_MsgQueueReceiveEx`, or of `API_MsgQueueReceive`, which cuts a message
that is too long. -/
structure RecvCall where
  stMaxByteSize : ℕ
  ex : Bool
  noerror : Bool
  deriving DecidableEq, Repr

def RecvCall.recvOption (c : RecvCall) : Bool := !c.ex || c.noerror

inductive Result where
  | none
  | msgNull
  | msgLen
  | option
  | full
  | waitTimeout
  | eintr
  | e2big
  deriving DecidableEq, Repr

/-- A message that a receiver has got, whole (ghost). -/
structure Delivery where
  msg : List UInt8
  broadcast : Bool

/-- Where a thread is in a call: outside, at `__re_send` or `__wait_again`, or in the
`__KERNEL_EXIT` behind its place in a queue, with what `_Schedule` will return and, for a receiver,
what it has been given (ghost). -/
inductive Frame where
  | idle
  | sendAgain (c : SendCall) (ulTimeout : Option ℕ)
  | sendAsleep (c : SendCall) (ulTimeout : Option ℕ) (iSchedRet : SchedRet)
  | recvAgain (c : RecvCall) (ulTimeout : Option ℕ)
  | recvAsleep (c : RecvCall) (ulTimeout : Option ℕ) (iSchedRet : SchedRet)
      (got : Option Delivery)

/-- `TCB_stMaxByteSize`, `TCB_ulRecvOption`, and what `TCB_pstMsgByteSize` and
`TCB_pvMsgQueueMessage` point at. -/
structure Receiver where
  stMaxByteSize : ℕ
  recvOption : Bool
  msgByteSize : ℕ
  message : List UInt8

/-- What is left of a section once the thread that it has taken out is ready. Only an interrupt
sends again by itself; a thread is at `__re_send`. -/
inductive Rest where
  | exit
  | resend (c : SendCall)
  | broadcast (msg : List UInt8)
  | clear

structure Poster (T : Type*) where
  readying : Option T
  rest : Rest

structure SendReturn (T : Type*) where
  thread : Option T
  call : SendCall
  result : Result

/-- A receive that has returned, with the bytes in its buffer and the message it has got
(ghost). -/
structure RecvReturn (T : Type*) where
  thread : Option T
  stMaxByteSize : ℕ
  result : Result
  bytes : List UInt8
  got : Option Delivery

inductive Event where
  | put (msg : List UInt8) (uiPrio : ℕ)
  | took (msg : List UInt8)
  | handed (msg : List UInt8)
  | cleared

structure State (T : Type*) where
  store : MsgQueueMem.MsgQueue
  ulCounter : ℕ
  ulMaxCounter : ℕ
  stMaxBytes : ℕ
  signalInter : Bool
  waits : Waits T WaitQ
  receiver : T → Receiver
  frame : T → Frame
  /-- The sections under way; each has interrupted the next one. -/
  posters : List (Poster T)
  history : List Event
  sends : List (SendReturn T)
  returns : List (RecvReturn T)
  /-- Messages that have been handed to a receiver that has not returned yet (ghost). -/
  inbox : List (T × List UInt8)

/-- `API_MsgQueueCreate`, with the block that `__KHEAP_ALLOC` has given to `store`; its memory is
not cleared. -/
def State.create (store : MsgQueueMem.MsgQueue) (ulMaxMsgCounter stMaxMsgByteSize : ℕ)
    (signalInter : Bool) (receiver : T → Receiver) : State T where
  store := msgQueueClear store stMaxMsgByteSize ulMaxMsgCounter
  ulCounter := 0
  ulMaxCounter := ulMaxMsgCounter
  stMaxBytes := stMaxMsgByteSize
  signalInter := signalInter
  waits := Waits.empty
  receiver := receiver
  frame := fun _ => .idle
  posters := []
  history := []
  sends := []
  returns := []
  inbox := []

def State.taken (s : State T) : List T := s.posters.filterMap Poster.readying

variable (s : State T)

def State.leaveCall (who : Option T) : T → Frame :=
  match who with
  | none => s.frame
  | some t => update s.frame t .idle

def State.sendRet (who : Option T) (c : SendCall) (result : Result) : State T :=
  { s with
    frame := s.leaveCall who
    sends := s.sends ++ [⟨who, c, result⟩] }

def State.recvRet (who : Option T) (stMaxByteSize : ℕ) (result : Result) (bytes : List UInt8)
    (got : Option Delivery) : State T :=
  { s with
    frame := s.leaveCall who
    returns := s.returns ++ [⟨who, stMaxByteSize, result, bytes, got⟩] }

def Frame.give (d : Delivery) : Frame → Frame
  | .recvAsleep c ulTimeout iSchedRet _ => .recvAsleep c ulTimeout iSchedRet (some d)
  | frame => frame

def Receiver.accepts (r : Receiver) (stMsgLen : ℕ) : Bool :=
  !(stMsgLen > r.stMaxByteSize && !r.recvOption)

def Receiver.reject (r : Receiver) : Receiver :=
  { r with msgByteSize := 0, stMaxByteSize := 0 }

def Receiver.deliver (r : Receiver) (msg : List UInt8) : Receiver :=
  let stRealLen := if msg.length < r.stMaxByteSize then msg.length else r.stMaxByteSize
  { r with msgByteSize := stRealLen, message := msg.take stRealLen }

def State.passOn (waits : Waits T WaitQ) (t : T) (d : Delivery) (rest : Rest) : State T :=
  { s with
    waits := waits
    receiver := update s.receiver t
      (if (s.receiver t).accepts d.msg.length then (s.receiver t).deliver d.msg
        else (s.receiver t).reject)
    frame :=
      if (s.receiver t).accepts d.msg.length then
        update s.frame t ((s.frame t).give d)
      else s.frame
    posters := ⟨some t, rest⟩ :: s.posters }

/-- The section of `API_MsgQueueSend2`, and of `API_MsgQueueSendEx2` with `LW_OPTION_URGENT`, up to
`_EventReadyHighLevel`. -/
def sendSection (who : Option T) (c : SendCall) (ulTimeout : Option ℕ) (uiPrio i : ℕ) :
    State T :=
  match s.waits.eventReadyLowLevel .recv i with
  | some (t, waits) =>
    if (s.receiver t).accepts c.msg.length then
      let s := s.passOn waits t ⟨c.msg, false⟩ .exit
      { s with
        history := s.history ++ [Event.handed c.msg]
        inbox := s.inbox ++ [(t, c.msg)] }.sendRet who c .none
    else
      s.passOn waits t ⟨c.msg, false⟩ (if who.isSome then .exit else .resend c)
  | none =>
    if uiPrio > msgQPrioLow then s.sendRet who c .option
    else if s.ulCounter < s.ulMaxCounter then
      { s with
        ulCounter := s.ulCounter + 1
        store := msgQueuePut s.store c.msg uiPrio
        history := s.history ++ [Event.put c.msg uiPrio] }.sendRet who c .none
    else
      match who with
      | none => s.sendRet none c .full
      | some t =>
        if ulTimeout = some 0 then s.sendRet (some t) c .full
        else
          { s with
            waits := s.waits.eventWait t .send ulTimeout.isSome
            frame := update s.frame t (.sendAsleep c ulTimeout .none) }

/-- One round of the loop of `API_MsgQueueSendEx2` with `LW_OPTION_BROADCAST`. -/
def broadcastRound (msg : List UInt8) (i : ℕ) : State T :=
  match s.waits.eventReadyLowLevel .recv i with
  | some (t, waits) => s.passOn waits t ⟨msg, true⟩ (.broadcast msg)
  | none => s

def msgQueueSendEx2 (who : Option T) (c : SendCall) (ulTimeout : Option ℕ) (i : ℕ) : State T :=
  if c.msg.length = 0 ∨ c.msg.length > s.stMaxBytes then s.sendRet who c .msgLen
  else if c.isDefault then sendSection s who c ulTimeout msgQPrioLow i
  else if c.isUrgent then sendSection s who c ulTimeout c.uiPrio i
  else if c.isBroadcast then broadcastRound (s.sendRet who c .none) c.msg i
  else s.sendRet who c .option

def wakeSender (rest : Rest) (i : ℕ) : State T :=
  match s.waits.eventReadyLowLevel .send i with
  | some (t, waits) => { s with waits := waits, posters := ⟨some t, rest⟩ :: s.posters }
  | none => s

def takeMessage (who : Option T) (stMaxByteSize i : ℕ) : State T :=
  match msgQueueGet s.store stMaxByteSize with
  | none => s
  | some (got, store) =>
    wakeSender
      ({ s with
        ulCounter := s.ulCounter - 1
        store := store
        history := s.history ++ [Event.took got.whole] }.recvRet who stMaxByteSize .none got.bytes
          (some ⟨got.whole, false⟩))
      .exit i

def msgQueueReceiveEx (t : T) (c : RecvCall) (ulTimeout : Option ℕ) (i : ℕ) : State T :=
  if c.stMaxByteSize = 0 then s.recvRet (some t) c.stMaxByteSize .msgNull [] none
  else if s.ulCounter > 0 then
    if c.ex ∧ msgQueueMsgLen s.store > c.stMaxByteSize ∧ ¬ c.noerror then
      s.recvRet (some t) c.stMaxByteSize .e2big [] none
    else takeMessage s (some t) c.stMaxByteSize i
  else if ulTimeout = some 0 then s.recvRet (some t) c.stMaxByteSize .waitTimeout [] none
  else
    { s with
      receiver := update s.receiver t
        { s.receiver t with stMaxByteSize := c.stMaxByteSize, recvOption := c.recvOption }
      waits := s.waits.eventWait t .recv ulTimeout.isSome
      frame := update s.frame t (.recvAsleep c ulTimeout .none none) }

def msgQueueTryReceive (who : Option T) (stMaxByteSize i : ℕ) : State T :=
  if s.ulCounter > 0 then takeMessage s who stMaxByteSize i
  else s.recvRet who stMaxByteSize .waitTimeout [] none

def clearQueue (i : ℕ) : State T :=
  wakeSender
    { s with
      store := msgQueueClear s.store s.stMaxBytes s.ulMaxCounter
      ulCounter := 0
      history := s.history ++ [.cleared] }
    .clear i

def sendWake (t : T) (c : SendCall) (ulTimeout : Option ℕ) (iSchedRet : SchedRet)
    (elapsed : ℕ) : State T :=
  if iSchedRet ≠ .none then
    if iSchedRet = .eintr ∧ s.signalInter then s.sendRet (some t) c .eintr
    else if sigTimeoutRecalc elapsed ulTimeout = some 0 then s.sendRet (some t) c .waitTimeout
    else
      { s with
        frame := update s.frame t (.sendAgain c (sigTimeoutRecalc elapsed ulTimeout)) }
  else if (s.waits.tcb t).timeout then s.sendRet (some t) c .waitTimeout
  else { s with frame := update s.frame t (.sendAgain c ulTimeout) }

def recvWake (t : T) (c : RecvCall) (ulTimeout : Option ℕ) (iSchedRet : SchedRet)
    (got : Option Delivery) (elapsed : ℕ) : State T :=
  if iSchedRet ≠ .none then
    if iSchedRet = .eintr ∧ s.signalInter then
      s.recvRet (some t) c.stMaxByteSize .eintr [] got
    else if sigTimeoutRecalc elapsed ulTimeout = some 0 then
      s.recvRet (some t) c.stMaxByteSize .waitTimeout [] got
    else
      { s with
        frame := update s.frame t (.recvAgain c (sigTimeoutRecalc elapsed ulTimeout)) }
  else if (s.waits.tcb t).timeout then s.recvRet (some t) c.stMaxByteSize .waitTimeout [] got
  else if c.ex ∧ (s.receiver t).msgByteSize = 0 ∧ (s.receiver t).stMaxByteSize = 0 then
    s.recvRet (some t) c.stMaxByteSize .e2big [] got
  else
    { s with inbox := s.inbox.filter fun e => e.1 ≠ t }.recvRet (some t) c.stMaxByteSize .none
      (s.receiver t).message got

def Frame.signalled (r : SchedRet) : Frame → Frame
  | .sendAsleep c ulTimeout iSchedRet => .sendAsleep c ulTimeout (iSchedRet.set r)
  | .recvAsleep c ulTimeout iSchedRet got => .recvAsleep c ulTimeout (iSchedRet.set r) got
  | frame => frame

inductive Action (T : Type*) where
  | send (t : T) (c : SendCall) (ulTimeout : Option ℕ)
  | receive (t : T) (c : RecvCall) (ulTimeout : Option ℕ)
  | enter (t : T) (i : ℕ)
  | wake (t : T) (elapsed : ℕ)
  | tryReceive (t : T) (stMaxByteSize i : ℕ)
  | clear (inIsr : Bool) (i : ℕ)
  | isrSend (c : SendCall) (i : ℕ)
  | isrTryReceive (stMaxByteSize i : ℕ)
  | readyHigh
  | goOn (i : ℕ)
  | tick (t : T)
  | signal (t : T) (saRestart : Bool)

def goOn (s : State T) (rest : Rest) (i : ℕ) : State T :=
  match rest with
  | .exit => s
  | .resend c => msgQueueSendEx2 s none c (some 0) i
  | .broadcast msg => broadcastRound s msg i
  | .clear => wakeSender s .clear i

/-- One step; `none` where it is not enabled. A thread enters the kernel, or is sent a signal,
only while nobody else holds it. -/
def step : Action T → Option (State T)
  | .send t c ulTimeout =>
    match s.frame t with
    | .idle => some { s with frame := update s.frame t (.sendAgain c ulTimeout) }
    | _ => none
  | .receive t c ulTimeout =>
    match s.frame t with
    | .idle => some { s with frame := update s.frame t (.recvAgain c ulTimeout) }
    | _ => none
  | .enter t i =>
    if s.posters.isEmpty then
      match s.frame t with
      | .sendAgain c ulTimeout => some (msgQueueSendEx2 s (some t) c ulTimeout i)
      | .recvAgain c ulTimeout => some (msgQueueReceiveEx s t c ulTimeout i)
      | _ => none
    else none
  | .wake t elapsed =>
    if (s.waits.tcb t).pend then none
    else
      match s.frame t with
      | .sendAsleep c ulTimeout iSchedRet => some (sendWake s t c ulTimeout iSchedRet elapsed)
      | .recvAsleep c ulTimeout iSchedRet got =>
        some (recvWake s t c ulTimeout iSchedRet got elapsed)
      | _ => none
  | .tryReceive t stMaxByteSize i =>
    if s.posters.isEmpty then
      match s.frame t with
      | .idle => some (msgQueueTryReceive s (some t) stMaxByteSize i)
      | _ => none
    else none
  | .clear inIsr i => if inIsr ∨ s.posters.isEmpty then some (clearQueue s i) else none
  | .isrSend c i => some (msgQueueSendEx2 s none c (some 0) i)
  | .isrTryReceive stMaxByteSize i => some (msgQueueTryReceive s none stMaxByteSize i)
  | .readyHigh =>
    match s.posters with
    | ⟨some t, rest⟩ :: outer =>
      some { s with
        waits := s.waits.eventReadyHighLevel t
        posters := ⟨none, rest⟩ :: outer }
    | _ => none
  | .goOn i =>
    match s.posters with
    | ⟨none, rest⟩ :: outer => some (goOn { s with posters := outer } rest i)
    | _ => none
  | .tick t =>
    if (s.waits.tcb t).delay then some { s with waits := s.waits.threadTick t } else none
  | .signal t saRestart =>
    if s.posters.isEmpty then
      let r := s.waits.sigMakeReady t (if saRestart then .restart else .eintr)
      some { s with
        waits := r.2
        frame := update s.frame t ((s.frame t).signalled r.1) }
    else none

/-- What a step does, and where it is enabled. -/
inductive Steps : Action T → State T → Prop where
  | send (t : T) (c : SendCall) (ulTimeout : Option ℕ) (hframe : s.frame t = .idle) :
      Steps (.send t c ulTimeout) { s with frame := update s.frame t (.sendAgain c ulTimeout) }
  | receive (t : T) (c : RecvCall) (ulTimeout : Option ℕ) (hframe : s.frame t = .idle) :
      Steps (.receive t c ulTimeout) { s with frame := update s.frame t (.recvAgain c ulTimeout) }
  | enterSend (t : T) (i : ℕ) (c : SendCall) (ulTimeout : Option ℕ) (hposters : s.posters = [])
      (hframe : s.frame t = .sendAgain c ulTimeout) :
      Steps (.enter t i) (msgQueueSendEx2 s (some t) c ulTimeout i)
  | enterRecv (t : T) (i : ℕ) (c : RecvCall) (ulTimeout : Option ℕ) (hposters : s.posters = [])
      (hframe : s.frame t = .recvAgain c ulTimeout) :
      Steps (.enter t i) (msgQueueReceiveEx s t c ulTimeout i)
  | wakeSend (t : T) (elapsed : ℕ) (c : SendCall) (ulTimeout : Option ℕ) (iSchedRet : SchedRet)
      (hpend : (s.waits.tcb t).pend = false) (hframe : s.frame t = .sendAsleep c ulTimeout iSchedRet) :
      Steps (.wake t elapsed) (sendWake s t c ulTimeout iSchedRet elapsed)
  | wakeRecv (t : T) (elapsed : ℕ) (c : RecvCall) (ulTimeout : Option ℕ) (iSchedRet : SchedRet)
      (got : Option Delivery) (hpend : (s.waits.tcb t).pend = false)
      (hframe : s.frame t = .recvAsleep c ulTimeout iSchedRet got) :
      Steps (.wake t elapsed) (recvWake s t c ulTimeout iSchedRet got elapsed)
  | tryReceive (t : T) (stMaxByteSize i : ℕ) (hposters : s.posters = []) (hframe : s.frame t = .idle) :
      Steps (.tryReceive t stMaxByteSize i) (msgQueueTryReceive s (some t) stMaxByteSize i)
  | clear (inIsr : Bool) (i : ℕ) : Steps (.clear inIsr i) (clearQueue s i)
  | isrSend (c : SendCall) (i : ℕ) : Steps (.isrSend c i) (msgQueueSendEx2 s none c (some 0) i)
  | isrTryReceive (stMaxByteSize i : ℕ) :
      Steps (.isrTryReceive stMaxByteSize i) (msgQueueTryReceive s none stMaxByteSize i)
  | readyHigh (t : T) (rest : Rest) (outer : List (Poster T))
      (hposters : s.posters = ⟨some t, rest⟩ :: outer) :
      Steps .readyHigh { s with
        waits := s.waits.eventReadyHighLevel t
        posters := ⟨none, rest⟩ :: outer }
  | goOn (i : ℕ) (rest : Rest) (outer : List (Poster T)) (hposters : s.posters = ⟨none, rest⟩ :: outer) :
      Steps (.goOn i) (goOn { s with posters := outer } rest i)
  | tick (t : T) (hdelay : (s.waits.tcb t).delay = true) :
      Steps (.tick t) { s with waits := s.waits.threadTick t }
  | signal (t : T) (saRestart : Bool) (hposters : s.posters = []) :
      Steps (.signal t saRestart) { s with
        waits := (s.waits.sigMakeReady t (if saRestart then .restart else .eintr)).2
        frame := update s.frame t ((s.frame t).signalled
          (s.waits.sigMakeReady t (if saRestart then .restart else .eintr)).1) }

variable {s} in
theorem step_cases {a : Action T} {s' : State T} (hstep : step s a = some s') : Steps s a s' := by
  cases a with
  | isrSend | isrTryReceive =>
    cases hstep
    constructor
  | send | receive | readyHigh | goOn | tick =>
    simp only [step] at hstep
    split at hstep <;> cases hstep
    constructor
    assumption
  | enter | wake | tryReceive =>
    simp only [step] at hstep
    split at hstep <;> try cases hstep
    all_goals split at hstep <;> cases hstep <;> constructor <;> simp_all
  | clear =>
    simp only [step] at hstep
    split at hstep <;> cases hstep
    constructor
  | signal =>
    simp only [step] at hstep
    split at hstep <;> cases hstep
    constructor
    simp_all

structure Ledger where
  queue : List (Msg (List UInt8))
  delivered : List (List UInt8)
  discarded : List (List UInt8)

def Ledger.empty : Ledger := ⟨[], [], []⟩

/-- A message is stored while there is room, and taken out in the order of urgency and age; it
goes past the queue only when that is empty. -/
def Ledger.Step (ulMaxCounter : ℕ) (a : Ledger) : Event → Ledger → Prop
  | .put msg uiPrio, a' =>
    a.queue.length < ulMaxCounter ∧ uiPrio < msgQPrio ∧
      a' = { a with queue := a.queue ++ [⟨urgency uiPrio, msg⟩] }
  | .took msg, a' =>
    ∃ p, best a.queue = some ⟨p, msg⟩ ∧
      a' = { a with queue := pop a.queue, delivered := a.delivered ++ [msg] }
  | .handed msg, a' =>
    a.queue = [] ∧ a' = { a with delivered := a.delivered ++ [msg] }
  | .cleared, a' =>
    a' = { a with queue := [], discarded := a.discarded ++ a.queue.map Msg.body }

def Event.sent : Event → List (List UInt8)
  | .put msg _ => [msg]
  | .handed msg => [msg]
  | _ => []

def Ledger.all (a : Ledger) : List (List UInt8) :=
  a.queue.map Msg.body ++ (a.delivered ++ a.discarded)

theorem ledger_sent {ulMaxCounter : ℕ} {a a' : Ledger} {es : List Event}
    (h : Admits (Ledger.Step ulMaxCounter) a es a') :
    a'.all.Perm (a.all ++ es.flatMap Event.sent) := by
  induction es generalizing a with
  | nil =>
    obtain rfl : a = a' := h
    simp
  | cons e es ih =>
    obtain ⟨b, hstep, hrest⟩ := h
    have hstepPerm : b.all.Perm (a.all ++ e.sent) := by
      classical
      rw [List.perm_iff_count]
      intro x
      cases e with
      | put msg uiPrio =>
        obtain ⟨-, -, rfl⟩ := hstep
        simp only [Ledger.all, Event.sent, List.map_append, List.map_cons, List.map_nil,
          List.count_append]
        omega
      | took msg =>
        obtain ⟨p, hbest, rfl⟩ := hstep
        have hpop := ((perm_pop hbest).map Msg.body).count_eq x
        simp only [List.map_cons, List.count_cons] at hpop
        simp only [Ledger.all, Event.sent, List.count_append, List.count_cons, List.count_nil]
        omega
      | handed msg =>
        obtain ⟨-, rfl⟩ := hstep
        simp only [Ledger.all, Event.sent, List.count_append]
        omega
      | cleared =>
        obtain rfl : b = _ := hstep
        simp only [Ledger.all, Event.sent, List.map_nil, List.count_append, List.count_nil]
        omega
    rw [List.flatMap_cons, ← List.append_assoc]
    exact (ih hrest).trans (hstepPerm.append_right _)

end SylixOS.MsgQueue
