import SylixOS.MsgQueueRuns

/-! The kernel message queue is a bounded priority queue as long as no size wraps that is
computed for its memory: a call that finds a message returns the oldest of the most urgent
ones, and one that finds room stores its own. -/

namespace SylixOS.MsgQueue
open EventWait MsgQueueMem PriorityQueue StepRuns Function
open MsgQueueLib (Slot msgQPrio msgQPrioLow urgency)

variable {T : Type*} [DecidableEq T]

structure State.Takes (s s' : State T) (who : Option T) (stMaxByteSize : ℕ) (msg : List UInt8) :
    Prop where
  returns : s'.returns = s.returns ++
    [⟨who, stMaxByteSize, .none, msg.take stMaxByteSize, some ⟨msg, false⟩⟩]
  counter : s'.ulCounter + 1 = s.ulCounter
  history : s'.history = s.history ++ [.took msg]

def SendCall.storedPrio (c : SendCall) : ℕ := if c.isDefault then msgQPrioLow else c.uiPrio

structure State.Stores (s s' : State T) (who : Option T) (c : SendCall) : Prop where
  sends : s'.sends = s.sends ++ [⟨who, c, .none⟩]
  counter : s'.ulCounter = s.ulCounter + 1
  history : s'.history = s.history ++ [.put c.msg c.storedPrio]

structure State.Hands (s s' : State T) (who : Option T) (t : T) (c : SendCall) : Prop where
  sends : s'.sends = s.sends ++ [⟨who, c, .none⟩]
  inbox : s'.inbox = s.inbox ++ [(t, c.msg)]
  counter : s'.ulCounter = s.ulCounter

/-- From `s` to `s'` a send stores its message if there is room and nobody waits for one, and
gives it to a waiting receiver that takes a message of its length. -/
structure State.Accepts (s s' : State T) (who : Option T) (c : SendCall) : Prop where
  stores : s.waits.queue .recv = [] → s.ulCounter < s.ulMaxCounter → s.Stores s' who c
  hands : s.waits.queue .recv ≠ [] → ∃ t ∈ s.waits.queue .recv,
    (s.receiver t).accepts c.msg.length = true → s.Hands s' who t c

structure Serves (s : State T) (a : Ledger) : Prop where
  receive : ∀ t c ulTimeout i, s.posters = [] → s.frame t = .recvAgain c ulTimeout →
    0 < c.stMaxByteSize → 0 < s.ulCounter →
    ∃ p msg s', best a.queue = some ⟨p, msg⟩ ∧ step s (.enter t i) = some s' ∧
      if c.ex ∧ msg.length > c.stMaxByteSize ∧ ¬c.noerror then
        s' = s.recvRet (some t) c.stMaxByteSize .e2big [] none
      else s.Takes s' (some t) c.stMaxByteSize msg
  tryReceive : ∀ t stMaxByteSize i, s.posters = [] → s.frame t = .idle → 0 < s.ulCounter →
    ∃ p msg s', best a.queue = some ⟨p, msg⟩ ∧ step s (.tryReceive t stMaxByteSize i) = some s' ∧
      s.Takes s' (some t) stMaxByteSize msg
  isrTryReceive : ∀ stMaxByteSize i, 0 < s.ulCounter →
    ∃ p msg s', best a.queue = some ⟨p, msg⟩ ∧ step s (.isrTryReceive stMaxByteSize i) = some s' ∧
      s.Takes s' none stMaxByteSize msg
  handed : ∀ t msg, (t, msg) ∈ s.inbox → ∃ c ulTimeout iSchedRet,
    s.frame t = .recvAsleep c ulTimeout iSchedRet (some ⟨msg, false⟩) ∧
      ((s.waits.tcb t).pend = false → ∀ elapsed, ∃ s', step s (.wake t elapsed) = some s' ∧
        s'.returns = s.returns ++ [⟨some t, c.stMaxByteSize, .none, msg.take c.stMaxByteSize,
          some ⟨msg, false⟩⟩])
  send : ∀ t c ulTimeout i, s.posters = [] → s.frame t = .sendAgain c ulTimeout →
    c.Valid s.stMaxBytes → ∃ s', step s (.enter t i) = some s' ∧ s.Accepts s' (some t) c
  isrSend : ∀ c i, c.Valid s.stMaxBytes →
    ∃ s', step s (.isrSend c i) = some s' ∧ s.Accepts s' none c

/-- A state as a bounded priority queue: what is stored, what the callers have been told and what
they will be told. -/
structure Refines (L : Layout) (s : State T) (r : MsgQueueLib.MsgQueue UInt8)
    (chain : Slot → List ℕ) (a : Ledger) : Prop where
  stored : Stored L s.store r chain a.queue
  admits : Admits (Ledger.Step L.ulMsgTotal) Ledger.empty s.history a
  counter : s.ulCounter = a.queue.length
  bound : s.ulCounter ≤ L.ulMsgTotal
  free : (chain .free).length + s.ulCounter = L.ulMsgTotal
  map : ∀ p < msgQPrio, s.store.uiMap.getLsbD p = true ↔ s.store.pmonoHeader p ≠ 0
  fair : s.waits.queue .recv ≠ [] → a.queue = []
  serves : Serves s a
  sent : (s.sends.flatMap SendReturn.accepted).Perm
    (a.queue.map Msg.body ++ (s.inbox.map Prod.snd ++ s.returns.filterMap RecvReturn.message) ++
      a.discarded)
  returns : ∀ r ∈ s.returns, r.Ok

variable {s : State T} {t : T} {L : Layout} {r : MsgQueueLib.MsgQueue UInt8}
  {chain : Slot → List ℕ} {a : Ledger}

theorem takes_takeMessage (hstored : Stored L s.store r chain a.queue) (hL : L.Ok)
    (hcount : s.ulCounter = a.queue.length) (hpos : 0 < s.ulCounter) (who : Option T)
    (stMaxByteSize i : ℕ) :
    ∃ p msg, best a.queue = some ⟨p, msg⟩ ∧ msgQueueMsgLen s.store = msg.length ∧
      s.Takes (takeMessage s who stMaxByteSize i) who stMaxByteSize msg := by
  have hne : a.queue ≠ [] := by
    rw [← List.length_pos_iff]
    omega
  obtain ⟨p, msg, store, -, -, hbest, hlen, hget, -⟩ := hstored.get hL hne stMaxByteSize
  have hcounter : s.ulCounter - 1 + 1 = s.ulCounter := by omega
  refine ⟨p, msg, hbest, hlen, ?_⟩
  unfold takeMessage wakeSender
  rw [hget]
  dsimp only
  split <;> exact ⟨rfl, hcounter, rfl⟩

theorem serves_receive (hstored : Stored L s.store r chain a.queue) (hL : L.Ok)
    (hcount : s.ulCounter = a.queue.length) (hposters : s.posters = []) {c : RecvCall}
    {ulTimeout : Option ℕ} (hframe : s.frame t = .recvAgain c ulTimeout)
    (hsize : 0 < c.stMaxByteSize) (hpos : 0 < s.ulCounter) (i : ℕ) :
    ∃ p msg s', best a.queue = some ⟨p, msg⟩ ∧ step s (.enter t i) = some s' ∧
      if c.ex ∧ msg.length > c.stMaxByteSize ∧ ¬c.noerror then
        s' = s.recvRet (some t) c.stMaxByteSize .e2big [] none
      else s.Takes s' (some t) c.stMaxByteSize msg := by
  obtain ⟨p, msg, hbest, hlen, htakes⟩ :=
    takes_takeMessage hstored hL hcount hpos (some t) c.stMaxByteSize i
  have hstep : step s (.enter t i) = some (msgQueueReceiveEx s t c ulTimeout i) := by
    simp [step, hposters, hframe]
  have hsize : ¬c.stMaxByteSize = 0 := by omega
  refine ⟨p, msg, _, hbest, hstep, ?_⟩
  unfold msgQueueReceiveEx
  rw [if_neg hsize, if_pos hpos, hlen]
  by_cases hbig : c.ex ∧ msg.length > c.stMaxByteSize ∧ ¬c.noerror
  · rw [if_pos hbig, if_pos hbig]
  · rw [if_neg hbig, if_neg hbig]
    exact htakes

theorem serves_tryReceive (hstored : Stored L s.store r chain a.queue) (hL : L.Ok)
    (hcount : s.ulCounter = a.queue.length) (hpos : 0 < s.ulCounter) (who : Option T)
    (stMaxByteSize i : ℕ) :
    ∃ p msg, best a.queue = some ⟨p, msg⟩ ∧
      s.Takes (msgQueueTryReceive s who stMaxByteSize i) who stMaxByteSize msg := by
  obtain ⟨p, msg, hbest, -, htakes⟩ :=
    takes_takeMessage hstored hL hcount hpos who stMaxByteSize i
  refine ⟨p, msg, hbest, ?_⟩
  rw [msgQueueTryReceive, if_pos hpos]
  exact htakes

theorem Threads.serves_handed (h : Threads s) {msg : List UInt8} (hmem : (t, msg) ∈ s.inbox) :
    ∃ c ulTimeout iSchedRet, s.frame t = .recvAsleep c ulTimeout iSchedRet (some ⟨msg, false⟩) ∧
      ((s.waits.tcb t).pend = false → ∀ elapsed, ∃ s', step s (.wake t elapsed) = some s' ∧
        s'.returns = s.returns ++ [⟨some t, c.stMaxByteSize, .none, msg.take c.stMaxByteSize,
          some ⟨msg, false⟩⟩]) := by
  have hinbox := (h.inbox t msg).mp hmem
  have hself := h.frame t
  cases hf : s.frame t with
  | idle | sendAgain c ulTimeout | sendAsleep c ulTimeout iSchedRet | recvAgain c ulTimeout =>
    simp [hf, Frame.inbox] at hinbox
  | recvAsleep c ulTimeout iSchedRet got =>
    obtain ⟨d, rfl⟩ : ∃ d, got = some d := by
      cases got with
      | none => simp [hf, Frame.inbox] at hinbox
      | some d => exact ⟨d, rfl⟩
    obtain ⟨body, broadcast⟩ := d
    obtain ⟨rfl, rfl⟩ : broadcast = false ∧ body = msg := by
      simpa [hf, Frame.inbox] using hinbox
    refine ⟨c, ulTimeout, iSchedRet, rfl, fun hpend elapsed => ?_⟩
    rw [hf] at hself
    have hready := hself.2.2 hpend
    split at hready
    case isFalse => cases hready
    case isTrue hcond =>
      obtain ⟨rfl, htimeout⟩ := hcond
      obtain ⟨hmessage, hlen⟩ := hready
      have hfit : ¬(c.ex = true ∧ (s.receiver t).msgByteSize = 0 ∧
          (s.receiver t).stMaxByteSize = 0) := by
        intro hall
        omega
      have hstep : MsgQueue.step s (.wake t elapsed) =
          some (MsgQueue.recvWake s t c ulTimeout .none (some ⟨body, false⟩) elapsed) := by
        simp [MsgQueue.step, hpend, hf]
      refine ⟨_, hstep, ?_⟩
      simp [MsgQueue.recvWake, htimeout, hfit, State.recvRet, hmessage]

theorem msgQueueSendEx2_valid {c : SendCall} (hvalid : c.Valid s.stMaxBytes) (who : Option T)
    (ulTimeout : Option ℕ) (i : ℕ) :
    c.storedPrio ≤ msgQPrioLow ∧
      msgQueueSendEx2 s who c ulTimeout i = sendSection s who c ulTimeout c.storedPrio i := by
  obtain ⟨hlen, hlong, hoption⟩ := hvalid
  have hlength : ¬(c.msg.length = 0 ∨ c.msg.length > s.stMaxBytes) := by omega
  unfold msgQueueSendEx2 SendCall.storedPrio
  rw [if_neg hlength]
  by_cases hdefault : c.isDefault = true
  · rw [if_pos hdefault, if_pos hdefault]
    exact ⟨Nat.le_refl _, rfl⟩
  · obtain ⟨hurgent, hprio⟩ := hoption.resolve_left hdefault
    rw [if_neg hdefault, if_neg hdefault, if_pos hurgent]
    exact ⟨hprio, rfl⟩

theorem Threads.serves_send (h : Threads s) {who : Option T} {c : SendCall}
    (hvalid : c.Valid s.stMaxBytes) (ulTimeout : Option ℕ) (i : ℕ) :
    s.Accepts (msgQueueSendEx2 s who c ulTimeout i) who c := by
  obtain ⟨hprio, hsend⟩ := msgQueueSendEx2_valid hvalid who ulTimeout i
  rw [hsend]
  unfold sendSection
  constructor
  case stores =>
    intro hnobody hroom
    have hlow := Waits.eventReadyLowLevel_none (i := i).mpr hnobody
    rw [hlow, if_neg (Nat.not_lt.mpr hprio), if_pos hroom]
    exact ⟨rfl, rfl, rfl⟩
  case hands =>
    intro hwaiting
    cases hlow : s.waits.eventReadyLowLevel .recv i with
    | none => exact absurd (Waits.eventReadyLowLevel_none.mp hlow) hwaiting
    | some p =>
      obtain ⟨t, waits⟩ := p
      obtain ⟨hmem, -⟩ := h.ok.eventReadyLowLevel hlow
      refine ⟨t, hmem, fun haccepts => ?_⟩
      dsimp only
      rw [if_pos haccepts]
      exact ⟨rfl, rfl, rfl⟩

theorem Ok.refines (h : Ok (some L) s) : ∃ r chain a, Refines L s r chain a := by
  have hbooks := h.books L rfl
  obtain ⟨r, chain, a, hstored, hadmits, hcount, hperm⟩ := hbooks.store
  obtain ⟨hL, -, -⟩ := hbooks.created
  have htotal := hstored.holds.total
  refine ⟨r, chain, a, ?_⟩
  constructor
  case stored => exact hstored
  case admits => exact hadmits
  case counter => exact hcount
  case bound => omega
  case free => omega
  case map =>
    intro p hp
    rw [hstored.sim.map, hstored.holds.map p hp, hstored.sim.header, ne_eq, ne_eq,
      hL.ptr_eq_zero, hstored.holds.header_none p]
  case fair =>
    intro hwaiting
    rw [← List.length_eq_zero_iff, ← hcount]
    by_contra hne
    exact hwaiting (h.threads.fair (Nat.pos_of_ne_zero hne))
  case serves =>
    constructor
    case receive =>
      intro t c ulTimeout i hposters hframe hsize hpos
      exact serves_receive hstored hL hcount hposters hframe hsize hpos i
    case tryReceive =>
      intro t stMaxByteSize i hposters hframe hpos
      obtain ⟨p, msg, hbest, htakes⟩ :=
        serves_tryReceive hstored hL hcount hpos (some t) stMaxByteSize i
      have hstep : MsgQueue.step s (.tryReceive t stMaxByteSize i) =
          some (msgQueueTryReceive s (some t) stMaxByteSize i) := by
        simp [MsgQueue.step, hposters, hframe]
      exact ⟨p, msg, _, hbest, hstep, htakes⟩
    case isrTryReceive =>
      intro stMaxByteSize i hpos
      obtain ⟨p, msg, hbest, htakes⟩ :=
        serves_tryReceive hstored hL hcount hpos none stMaxByteSize i
      exact ⟨p, msg, _, hbest, rfl, htakes⟩
    case handed => exact fun t msg hmem => h.threads.serves_handed hmem
    case send =>
      intro t c ulTimeout i hposters hframe hvalid
      have hstep : MsgQueue.step s (.enter t i) =
          some (msgQueueSendEx2 s (some t) c ulTimeout i) := by
        simp [MsgQueue.step, hposters, hframe]
      exact ⟨_, hstep, h.threads.serves_send hvalid ulTimeout i⟩
    case isrSend =>
      exact fun c i hvalid => ⟨_, rfl, h.threads.serves_send hvalid (some 0) i⟩
  case sent =>
    have hall := ledger_sent hadmits
    rw [← hbooks.sends] at hall
    apply hall.symm.trans
    rw [List.append_assoc]
    exact (hperm.append_right a.discarded).append_left _
  case returns => exact h.threads.returns

end SylixOS.MsgQueue
