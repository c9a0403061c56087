import SylixOS.BinarySemaphore
import SylixOS.BitmapLib
import SylixOS.ByteBuffer
import SylixOS.ListLink
import SylixOS.PriorityQueue
import SylixOS.RingBuffer

/-! POSIX message queues of `mqueue.c`, with `LW_CFG_POSIX_MQ_MULTI_EN`. The message nodes
are linked in one free ring and a ring for each priority. Taking the mutex, each operation
on the two binary semaphores and releasing the mutex are steps of their own; what is done
while the mutex is held is one step with the test before it. -/

namespace SylixOS.Mqueue
open StepRuns BinarySemaphore BitmapLib LinkedChain ListLink PriorityQueue RingBuffer Function

def mqPrioMax : ℕ := 32

def prioConvert (prio : ℕ) : ℕ := mqPrioMax - 1 - prio

/-- The attributes of a queue that `__mqueueCreate` reads, and the width of a word; `mq_msgsize` is
a `long`. -/
structure Attr where
  word : ByteBuffer.Word
  maxmsg : ℕ
  msgsize : ℕ
  maxmsg_pos : 0 < maxmsg
  msgsize_lt : msgsize < 2 ^ (word.bits - 1)

def Attr.bytesPerMsg (attr : Attr) : ℕ :=
  attr.word.roundUp ((attr.msgsize + 3 * attr.word.bytes) % 2 ^ attr.word.bits)

def Attr.memBufferSize (attr : Attr) : ℕ := attr.bytesPerMsg * attr.maxmsg % 2 ^ attr.word.bits

inductive Slot where
  | free
  | prio (p : ℕ)
  deriving DecidableEq

variable {α : Type}

/-- The part of `__PX_MSG` that holds messages. A node is its address; behind it lie its length and
its bytes. -/
structure Store (α : Type) where
  links : Links ℕ
  header : Slot → Option ℕ
  map : BitVec 32
  curmsgs : ℕ
  msgLen : ℕ → ℕ
  buffer : ℕ → ℕ → α

def mqueueInitBuffer (attr : Attr) (m : Store α) : (left pmsgnode : ℕ) → Store α
  | 0, _ => m
  | left + 1, pmsgnode =>
    let r := listRingAddLast m.links pmsgnode (m.header .free)
    mqueueInitBuffer attr { m with links := r.1, header := update m.header .free r.2 } left
      ((pmsgnode + attr.bytesPerMsg) % 2 ^ attr.word.bits)

/-- The store that `__mqueueCreate` makes in the block at `pcMem`, which is not cleared. -/
def mqueueCreate (attr : Attr) (pcMem : ℕ) (links : Links ℕ) (msgLen : ℕ → ℕ)
    (buffer : ℕ → ℕ → α) : Store α :=
  mqueueInitBuffer attr ⟨links, fun _ => none, 0, 0, msgLen, buffer⟩ attr.maxmsg pcMem

def mqueueSeekPrio (m : Store α) : ℕ := archFindLsb m.map - 1

def sendMsg (m : Store α) (pmqn : ℕ) (msg : List α) (uiRealPrio : ℕ) : Store α :=
  let r := listRingDel m.links pmqn (m.header .free)
  let map := if m.header (.prio uiRealPrio) = none then m.map ||| (1#32 <<< uiRealPrio) else m.map
  let r' := listRingAddLast r.1 pmqn (m.header (.prio uiRealPrio))
  { links := r'.1
    header := update (update m.header .free r.2) (.prio uiRealPrio) r'.2
    map := map
    curmsgs := m.curmsgs + 1
    msgLen := update m.msgLen pmqn msg.length
    buffer := update m.buffer pmqn (put (m.buffer pmqn) 0 msg) }

def Store.body (m : Store α) (pmqn : ℕ) : List α := slice (m.buffer pmqn) 0 (m.msgLen pmqn)

def recvMsg (m : Store α) (pmqn uiRealPrio : ℕ) : Store α :=
  let r := listRingDel m.links pmqn (m.header (.prio uiRealPrio))
  let map := if r.2 = none then m.map &&& ~~~(1#32 <<< uiRealPrio) else m.map
  let r' := listRingAddLast r.1 pmqn (m.header .free)
  { m with
    links := r'.1
    header := update (update m.header (.prio uiRealPrio) r.2) .free r'.2
    map := map
    curmsgs := m.curmsgs - 1 }

inductive Wait where
  | nonblock
  | timed
  | forever
  deriving DecidableEq, Repr

structure Send (α : Type) where
  msg : List α
  uiRealPrio : ℕ
  wait : Wait

structure Recv where
  msglen : ℕ
  wait : Wait
  deriving DecidableEq

inductive Ret (α : Type) where
  | sent
  | received (msg : List α) (prio : ℕ)
  | eagain
  | etimedout
  | emsgsize
  | einval

inductive Phase (α : Type) where
  | idle (ret : Option (Ret α))
  /-- about to take the mutex, at the start of the call or woken from `PMSG_ulWriteSync` -/
  | sendLock (c : Send α) (woken : Bool)
  /-- holds the mutex and looks for a free node -/
  | sendTest (c : Send α)
  /-- has cleared the semaphore and is about to unlock -/
  | sendLeave (c : Send α)
  | sendWait (c : Send α)
  | sendAsleep (c : Send α)
  /-- the first message is in, and `PMSG_ulReadSync` is to be posted -/
  | sendPostRead
  /-- `PMSG_ulWriteSync` is to be posted if there is a free node -/
  | sendPostWrite
  | sendUnlock
  | recvLock (c : Recv) (woken : Bool)
  | recvTest (c : Recv)
  | recvLeave (c : Recv)
  | recvWait (c : Recv)
  | recvAsleep (c : Recv)
  /-- the message is too long, and `PMSG_ulReadSync` is to be posted -/
  | recvTooBig
  /-- the first free node is back, and `PMSG_ulWriteSync` is to be posted -/
  | recvPostWrite (ret : Ret α)
  /-- `PMSG_ulReadSync` is to be posted if there is a message -/
  | recvPostRead (ret : Ret α)
  | recvUnlock (ret : Ret α)

structure State (α T : Type) where
  mq : Store α
  mutex : Option T
  readSync : Sem T
  writeSync : Sem T
  phase : T → Phase α

variable {T : Type} [DecidableEq T]

def State.setPhase (s : State α T) (t : T) (p : Phase α) : State α T :=
  { s with phase := update s.phase t p }

def State.wake (s : State α T) : Option T → State α T
  | none => s
  | some t =>
    match s.phase t with
    | .sendAsleep c => s.setPhase t (.sendLock c true)
    | .recvAsleep c => s.setPhase t (.recvLock c true)
    | _ => s

/-- `__PX_MQ_RPOST`; `i` picks the thread that is woken. -/
def State.postRead (s : State α T) (i : ℕ) : State α T :=
  let r := s.readSync.post i
  { s with readSync := r.2 }.wake r.1

def State.postWrite (s : State α T) (i : ℕ) : State α T :=
  let r := s.writeSync.post i
  { s with writeSync := r.2 }.wake r.1

def sendTest (s : State α T) (t : T) (c : Send α) : State α T :=
  match s.mq.header .free with
  | some pmqn =>
    let mq := sendMsg s.mq pmqn c.msg c.uiRealPrio
    { s with
      mq := mq
      phase := update s.phase t
        (if mq.curmsgs = 1 then .sendPostRead else .sendPostWrite) }
  | none =>
    { s with
      writeSync := s.writeSync.clear
      phase := update s.phase t (.sendLeave c) }

/-- The test of `__mqueueRecv`, and what follows it up to the next semaphore. No node under the
highest bit of the map would be a null pointer. -/
def recvTest (s : State α T) (t : T) (c : Recv) : Option (State α T) :=
  if s.mq.curmsgs = 0 then
    some { s with
      readSync := s.readSync.clear
      phase := update s.phase t (.recvLeave c) }
  else
    let uiRealPrio := mqueueSeekPrio s.mq
    match s.mq.header (.prio uiRealPrio) with
    | none => none
    | some pmqn =>
      if c.msglen < s.mq.msgLen pmqn then some (s.setPhase t .recvTooBig)
      else
        let ret := Ret.received (s.mq.body pmqn) (prioConvert uiRealPrio)
        some { s with
          mq := recvMsg s.mq pmqn uiRealPrio
          phase := update s.phase t
            (if s.mq.header .free = none then .recvPostWrite ret else .recvPostRead ret) }

def sendWait (s : State α T) (t : T) (c : Send α) : State α T :=
  if s.writeSync.token then
    { s with
      writeSync := s.writeSync.clear
      phase := update s.phase t (.sendLock c true) }
  else if c.wait = .nonblock then s.setPhase t (.idle (some .eagain))
  else
    { s with
      writeSync := (s.writeSync.pend t).2
      phase := update s.phase t (.sendAsleep c) }

def recvWait (s : State α T) (t : T) (c : Recv) : State α T :=
  if s.readSync.token then
    { s with
      readSync := s.readSync.clear
      phase := update s.phase t (.recvLock c true) }
  else if c.wait = .nonblock then s.setPhase t (.idle (some .eagain))
  else
    { s with
      readSync := (s.readSync.pend t).2
      phase := update s.phase t (.recvAsleep c) }

def lock (s : State α T) (t : T) (p : Phase α) : Option (State α T) :=
  if s.mutex = none then
    some { s with mutex := some t, phase := update s.phase t p }
  else none

def unlock (s : State α T) (t : T) (p : Phase α) : State α T :=
  { s with mutex := none, phase := update s.phase t p }

def go (s : State α T) (t : T) (i : ℕ) : Option (State α T) :=
  match s.phase t with
  | .sendLock c _ => lock s t (.sendTest c)
  | .sendTest c => some (sendTest s t c)
  | .sendLeave c => some (unlock s t (.sendWait c))
  | .sendWait c => some (sendWait s t c)
  | .sendPostRead => some ((s.setPhase t .sendPostWrite).postRead i)
  | .sendPostWrite =>
    let s := s.setPhase t .sendUnlock
    some (if s.mq.header .free = none then s else s.postWrite i)
  | .sendUnlock => some (unlock s t (.idle (some .sent)))
  | .recvLock c _ => lock s t (.recvTest c)
  | .recvTest c => recvTest s t c
  | .recvLeave c => some (unlock s t (.recvWait c))
  | .recvWait c => some (recvWait s t c)
  | .recvTooBig => some ((s.setPhase t (.recvUnlock .emsgsize)).postRead i)
  | .recvPostWrite ret => some ((s.setPhase t (.recvPostRead ret)).postWrite i)
  | .recvPostRead ret =>
    let s := s.setPhase t (.recvUnlock ret)
    some (if s.mq.curmsgs = 0 then s else s.postRead i)
  | .recvUnlock ret => some (unlock s t (.idle (some ret)))
  | _ => none

def expire (s : State α T) (t : T) : Option (State α T) :=
  match s.phase t with
  | .sendWait c =>
    if c.wait = .timed ∧ s.writeSync.token = false then
      some (s.setPhase t (.idle (some .etimedout)))
    else none
  | .sendAsleep c =>
    if c.wait = .timed then
      some { s with
        writeSync := s.writeSync.leave t
        phase := update s.phase t (.idle (some .etimedout)) }
    else none
  | .recvWait c =>
    if c.wait = .timed ∧ s.readSync.token = false then
      some (s.setPhase t (.idle (some .etimedout)))
    else none
  | .recvAsleep c =>
    if c.wait = .timed then
      some { s with
        readSync := s.readSync.leave t
        phase := update s.phase t (.idle (some .etimedout)) }
    else none
  | _ => none

inductive Act (α T : Type) where
  | send (t : T) (msg : List α) (msgprio : ℕ) (wait : Wait)
  | recv (t : T) (msglen : ℕ) (wait : Wait)
  | go (t : T) (i : ℕ)
  | expire (t : T)

def sendEntry (attr : Attr) (s : State α T) (t : T) (msg : List α) (msgprio : ℕ) (wait : Wait) :
    State α T :=
  if msg = [] ∨ mqPrioMax ≤ msgprio then s.setPhase t (.idle (some .einval))
  else if attr.msgsize < msg.length then s.setPhase t (.idle (some .emsgsize))
  else s.setPhase t (.sendLock ⟨msg, prioConvert msgprio, wait⟩ false)

def step (attr : Attr) (s : State α T) : Act α T → Option (State α T)
  | .send t msg msgprio wait =>
    match s.phase t with
    | .idle _ => some (sendEntry attr s t msg msgprio wait)
    | _ => none
  | .recv t msglen wait =>
    match s.phase t with
    | .idle _ => some (s.setPhase t (.recvLock ⟨msglen, wait⟩ false))
    | _ => none
  | .go t i => go s t i
  | .expire t => expire s t

def created (attr : Attr) (pcMem : ℕ) (links : Links ℕ) (msgLen : ℕ → ℕ) (buffer : ℕ → ℕ → α) :
    State α T where
  mq := mqueueCreate attr pcMem links msgLen buffer
  mutex := none
  readSync := ⟨false, []⟩
  writeSync := ⟨false, []⟩
  phase := fun _ => .idle none

end SylixOS.Mqueue
