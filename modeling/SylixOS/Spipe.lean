import Mathlib.Logic.Function.Basic
import SylixOS.BinarySemaphore
import SylixOS.RingBuffer
import SylixOS.StepRuns

/-! Stream pipes of `spipeLib.c`, with `LW_CFG_SPIPE_MULTI_EN`. What a call does between
`LW_SPIPE_LOCK` and `LW_SPIPE_UNLOCK` is one step; testing the other end before the loop
and waiting on a semaphore are steps of their own. -/

namespace SylixOS.Spipe
open StepRuns BinarySemaphore RingBuffer Function

def pipeBuf : ℕ := 4096

variable {α T : Type}

structure RingBuf (α : Type) where
  buffer : ℕ → α
  inPtr : ℕ
  outPtr : ℕ
  totalBytes : ℕ
  msgBytes : ℕ

def RingBuf.copyOut (r : RingBuf α) (stNBytes : ℕ) : List α × RingBuf α :=
  let stLen := r.totalBytes - r.outPtr
  let msgBytes := r.msgBytes - stNBytes
  if stLen < stNBytes then
    (slice r.buffer r.outPtr stLen ++ slice r.buffer 0 (stNBytes - stLen),
      { r with outPtr := stNBytes - stLen, msgBytes := msgBytes })
  else if stNBytes < stLen then
    (slice r.buffer r.outPtr stNBytes,
      { r with outPtr := r.outPtr + stNBytes, msgBytes := msgBytes })
  else
    (slice r.buffer r.outPtr stNBytes, { r with outPtr := 0, msgBytes := msgBytes })

def RingBuf.copyIn (r : RingBuf α) (bytes : List α) : RingBuf α :=
  let stLen := r.totalBytes - r.inPtr
  let msgBytes := r.msgBytes + bytes.length
  if stLen < bytes.length then
    { r with
      buffer := put (put r.buffer r.inPtr (bytes.take stLen)) 0 (bytes.drop stLen)
      inPtr := bytes.length - stLen
      msgBytes := msgBytes }
  else if bytes.length < stLen then
    { r with
      buffer := put r.buffer r.inPtr bytes
      inPtr := r.inPtr + bytes.length
      msgBytes := msgBytes }
  else
    { r with
      buffer := put r.buffer r.inPtr bytes
      inPtr := 0
      msgBytes := msgBytes }

def spipeCanRead (stMsgLen : ℕ) : Bool := stMsgLen ≠ 0

def spipeCanWrite (stMsgLen stTotal : ℕ) : Bool := pipeBuf ≤ stTotal - stMsgLen

inductive Access where
  | rdonly
  | wronly
  | rdwr
  deriving DecidableEq, Repr

structure File where
  access : Access
  nonblock : Bool
  noSig : Bool
  deriving DecidableEq, Repr

inductive Ret (α : Type) where
  | bytes (bs : List α)
  | written (n : ℕ)
  | eagain (n : ℕ)
  | etimedout (n : ℕ)
  | einval
  | epipe

structure Write (α : Type) where
  id : ℕ
  all : List α
  rest : List α

inductive Phase (α : Type) where
  | idle (ret : Option (Ret α))
  /-- in the loop of `_SpipeRead`, about to lock -/
  | readLoop (f : File) (stMaxBytes : ℕ)
  /-- about to wait on `SPIPEDEV_hReadLock` -/
  | readWait (f : File) (stMaxBytes : ℕ)
  | readAsleep (f : File) (stMaxBytes : ℕ)
  /-- at `__continue_write` -/
  | writeEnter (f : File) (w : Write α)
  | writeLoop (f : File) (w : Write α)
  | writeWait (f : File) (w : Write α)
  | writeAsleep (f : File) (w : Write α)

/-- `LW_SPIPE_DEV`, the threads, and the history of the writes: the bytes of every call, and the
pieces that they stored with the number of the call. -/
structure State (α T : Type) where
  ring : RingBuf α
  readLock : Sem T
  writeLock : Sem T
  readCnt : ℕ
  writeCnt : ℕ
  files : List File
  phase : T → Phase α
  calls : List (List α)
  chunks : List (ℕ × List α)

def spipeDevCreate (buffer : ℕ → α) (total : ℕ) : State α T where
  ring := ⟨buffer, 0, 0, total, 0⟩
  readLock := ⟨false, []⟩
  writeLock := ⟨false, []⟩
  readCnt := 0
  writeCnt := 0
  files := []
  phase := fun _ => .idle none
  calls := []
  chunks := []

variable [DecidableEq T]

def State.setPhase (s : State α T) (t : T) (p : Phase α) : State α T :=
  { s with phase := update s.phase t p }

def State.wake (s : State α T) : Option T → State α T
  | none => s
  | some t =>
    match s.phase t with
    | .readAsleep f n => s.setPhase t (.readLoop f n)
    | .writeAsleep f w => s.setPhase t (.writeLoop f w)
    | _ => s

def State.postRead (s : State α T) (i : ℕ) : State α T :=
  let r := s.readLock.post i
  { s with readLock := r.2 }.wake r.1

def State.postWrite (s : State α T) (i : ℕ) : State α T :=
  let r := s.writeLock.post i
  { s with writeLock := r.2 }.wake r.1

def State.incCnt (s : State α T) : Access → State α T
  | .rdonly => { s with readCnt := s.readCnt + 1 }
  | .wronly => { s with writeCnt := s.writeCnt + 1 }
  | .rdwr => { s with readCnt := s.readCnt + 1, writeCnt := s.writeCnt + 1 }

def State.decCnt (s : State α T) : Access → State α T
  | .rdonly => { s with readCnt := s.readCnt - 1 }
  | .wronly => { s with writeCnt := s.writeCnt - 1 }
  | .rdwr => { s with readCnt := s.readCnt - 1, writeCnt := s.writeCnt - 1 }

/-- `_SpipeOpen`; a non-blocking open for writing without a reader is `ENXIO`. -/
def spipeOpen (s : State α T) (f : File) : State α T :=
  if f.nonblock ∧ f.access = .wronly ∧ s.readCnt = 0 then s
  else { s with files := f :: s.files }.incCnt f.access

def spipeClose (s : State α T) (f : File) (i j : ℕ) : State α T :=
  let s := { s with files := s.files.erase f }.decCnt f.access
  let s := if s.writeCnt = 0 then s.postRead i else s
  if s.readCnt = 0 then s.postWrite j else s

def readEntry (s : State α T) (t : T) (f : File) (stMaxBytes : ℕ) : State α T :=
  if stMaxBytes = 0 then s.setPhase t (.idle (some (.bytes [])))
  else if s.writeCnt = 0 ∧ s.ring.msgBytes = 0 ∧ f.noSig = false then
    s.setPhase t (.idle (some (.bytes [])))
  else s.setPhase t (.readLoop f stMaxBytes)

def readSection (s : State α T) (t : T) (f : File) (stMaxBytes i j : ℕ) : State α T :=
  if s.ring.msgBytes ≠ 0 then
    let stNBytes := if stMaxBytes < s.ring.msgBytes then stMaxBytes else s.ring.msgBytes
    let bOrgWriteEn := spipeCanWrite s.ring.msgBytes s.ring.totalBytes
    let r := s.ring.copyOut stNBytes
    let s := { s with
      ring := r.2
      phase := update s.phase t (.idle (some (.bytes r.1))) }
    let s := if spipeCanWrite s.ring.msgBytes s.ring.totalBytes && !bOrgWriteEn then s.postWrite i
      else s
    if spipeCanRead s.ring.msgBytes then s.postRead j else s
  else if s.writeCnt = 0 then
    { s with
      readLock := s.readLock.clear
      phase := update s.phase t (.idle (some (.bytes []))) }
  else
    { s with
      readLock := s.readLock.clear
      phase := update s.phase t (.readWait f stMaxBytes) }

def readPend (s : State α T) (t : T) (f : File) (stMaxBytes : ℕ) : State α T :=
  if s.readLock.token then
    { s with
      readLock := s.readLock.clear
      phase := update s.phase t (.readLoop f stMaxBytes) }
  else if f.nonblock then s.setPhase t (.idle (some (.eagain 0)))
  else
    { s with
      readLock := (s.readLock.pend t).2
      phase := update s.phase t (.readAsleep f stMaxBytes) }

def writeEntry (s : State α T) (t : T) (f : File) (bytes : List α) : State α T :=
  if bytes = [] then s.setPhase t (.idle (some .einval))
  else
    { s with
      calls := s.calls ++ [bytes]
      phase := update s.phase t (.writeEnter f ⟨s.calls.length, bytes, bytes⟩) }

def writeContinue (s : State α T) (t : T) (f : File) (w : Write α) : State α T :=
  if s.readCnt = 0 then s.setPhase t (.idle (some .epipe))
  else s.setPhase t (.writeLoop f w)

def writeSection (s : State α T) (t : T) (f : File) (w : Write α) (i j : ℕ) : State α T :=
  if s.readCnt = 0 then s.setPhase t (.idle (some .epipe))
  else
    let stFreeByteSize := s.ring.totalBytes - s.ring.msgBytes
    if min w.rest.length pipeBuf ≤ stFreeByteSize then
      let chunk := w.rest.take stFreeByteSize
      let rest := w.rest.drop stFreeByteSize
      let bOrgReadEn := spipeCanRead s.ring.msgBytes
      let s := { s with
        ring := s.ring.copyIn chunk
        phase := update s.phase t
          (if rest = [] then .idle (some (.written w.all.length))
            else .writeEnter f { w with rest := rest })
        chunks := s.chunks ++ [(w.id, chunk)] }
      let s := if spipeCanRead s.ring.msgBytes && !bOrgReadEn then s.postRead i else s
      if spipeCanWrite s.ring.msgBytes s.ring.totalBytes then s.postWrite j else s
    else
      { s with
        writeLock := s.writeLock.clear
        phase := update s.phase t (.writeWait f w) }

def writePend (s : State α T) (t : T) (f : File) (w : Write α) : State α T :=
  if s.writeLock.token then
    { s with
      writeLock := s.writeLock.clear
      phase := update s.phase t (.writeLoop f w) }
  else if f.nonblock then
    s.setPhase t (.idle (some (.eagain (w.all.length - w.rest.length))))
  else
    { s with
      writeLock := (s.writeLock.pend t).2
      phase := update s.phase t (.writeAsleep f w) }

def expire (s : State α T) (t : T) : Option (State α T) :=
  match s.phase t with
  | .readAsleep _ _ => some
      { s with
        readLock := s.readLock.leave t
        phase := update s.phase t (.idle (some (.etimedout 0))) }
  | .writeAsleep _ w => some
      { s with
        writeLock := s.writeLock.leave t
        phase := update s.phase t
          (.idle (some (.etimedout (w.all.length - w.rest.length)))) }
  | _ => none

inductive Act (α T : Type) where
  | open_ (f : File)
  | close (f : File) (i j : ℕ)
  | read (t : T) (f : File) (stMaxBytes : ℕ)
  | write (t : T) (f : File) (bytes : List α)
  /-- the next step of a call; the numbers pick the threads that it wakes -/
  | go (t : T) (i j : ℕ)
  | expire (t : T)

def go (s : State α T) (t : T) (i j : ℕ) : Option (State α T) :=
  match s.phase t with
  | .readLoop f n => some (readSection s t f n i j)
  | .readWait f n => some (readPend s t f n)
  | .writeEnter f w => some (writeContinue s t f w)
  | .writeLoop f w => some (writeSection s t f w i j)
  | .writeWait f w => some (writePend s t f w)
  | _ => none

def step (s : State α T) : Act α T → Option (State α T)
  | .open_ f => some (spipeOpen s f)
  | .close f i j => if f ∈ s.files then some (spipeClose s f i j) else none
  | .read t f n =>
    match s.phase t with
    | .idle _ => some (readEntry s t f n)
    | _ => none
  | .write t f bytes =>
    match s.phase t with
    | .idle _ => some (writeEntry s t f bytes)
    | _ => none
  | .go t i j => go s t i j
  | .expire t => expire s t

end SylixOS.Spipe
