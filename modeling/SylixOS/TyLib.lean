import SylixOS.TyDev
import SylixOS.BinarySemaphore
import SylixOS.StepRuns

/-! A tty device and those who use it (tyLib.c): threads that read or control it, holding
`TYDEV_hMutexSemM`, and the interrupts that bring characters, which are received under the
spin lock; `TYDEV_hRdSyncSemB` is posted behind it. -/

namespace SylixOS.TyLib
open BinarySemaphore StepRuns

variable {T : Type*} [DecidableEq T]

structure Read where
  stMaxBytes : ℕ
  sstNTotalBytes : ℕ
  bytes : List (BitVec 8)
  ulTimeout : Option ℕ

inductive After where
  | idle
  | again (r : Read)
  | fetched (r : Read) (sstNBytes : ℕ)

inductive Request where
  | cancel
  | waitAbort
  | rflush
  deriving DecidableEq

/-- Where a thread or an interrupt is: in `_TyRead` at `API_SemaphoreBPend`, asleep in it, with the
token in front of `TYDEV_LOCK`, in front of a section under the spin lock, of `_TyRdXoff`, of its
post; in front of `TYDEV_UNLOCK`; in `_TyIoctl` in front of `TYDEV_LOCK` or of what comes behind
it; in `_TyIRd` behind its first section. -/
inductive Phase where
  | idle
  | pend (r : Read)
  | asleep (r : Read)
  | lock (r : Read)
  | fetch (r : Read)
  | xon (r : Read) (sstNBytes : ℕ)
  | left (r : Read) (sstNBytes : ℕ)
  | post (r : Read) (sstNBytes : ℕ)
  | unlock (after : After)
  | request (iRequest : Request)
  | requestPost
  | rflush
  | rflushXon
  | rflushClear
  | rflushDone
  | irdTandem (bReleaseTaskLevel iStatus : Bool)
  | irdPost (iStatus : Bool)

/-- What `_TyRead` returns: the bytes, and `ERROR_NONE`, `ERROR_IO_DEVICE_TIMEOUT`,
`ERROR_IO_ABORT`, `ERROR_IO_CANCELLED` or `EINVAL`. -/
inductive ReadError where
  | none
  | timeout
  | abort
  | cancelled
  | inval
  deriving DecidableEq

structure State (T : Type*) where
  dev : Dev
  rdSync : Sem T
  mutex : Option T
  phase : T → Phase
  reads : List (T × ReadError × List (BitVec 8))
  statuses : List Bool

def State.create (dev : Dev) : State T where
  dev := { dev.rngFlush with
    bXoff := false, bPending := false, bCanceled := false, bFlushingRdBuf := false, cLastRecv := 0
    abortFlag := false }
  rdSync := ⟨false, []⟩
  mutex := none
  phase := fun _ => .idle
  reads := []
  statuses := []

variable (s : State T)

def State.goto (t : T) (phase : Phase) : State T :=
  { s with phase := Function.update s.phase t phase }

def State.ret (t : T) (error : ReadError) (r : Read) (phase : Phase) : State T :=
  { s.goto t phase with reads := s.reads ++ [(t, error, r.bytes)] }

def tyRead (t : T) (stMaxBytes : ℕ) : State T :=
  let r : Read := ⟨stMaxBytes, 0, [], s.dev.readTimeout true⟩
  if stMaxBytes = 0 then s.ret t .none r .idle
  else if s.dev.cc.vmin > stMaxBytes then s.ret t .inval r .idle
  else s.goto t (.pend r)

def readPend (t : T) (r : Read) : State T :=
  if s.rdSync.token then { s.goto t (.lock r) with rdSync := (s.rdSync.pend t).2 }
  else if r.ulTimeout = some 0 then s.ret t .timeout r .idle
  else { s.goto t (.asleep r) with rdSync := (s.rdSync.pend t).2 }

def readLock (t : T) (r : Read) : State T :=
  let s := { s with mutex := some t }
  if s.dev.abortFlag then
    { s with dev := { s.dev with abortFlag := false } }.ret t .abort r (.unlock .idle)
  else if s.dev.bCanceled then
    { s with dev := { s.dev with bCanceled := false } }.ret t .cancelled r (.unlock .idle)
  else s.goto t (.fetch r)

def readLeft (t : T) (r : Read) (sstNBytes : ℕ) : State T :=
  if s.dev.rdBuf ≠ [] then s.goto t (.post r sstNBytes)
  else s.goto t (.unlock (.fetched r sstNBytes))

def readFetch (t : T) (r : Read) : State T :=
  if s.dev.rdBuf = [] then s.goto t (.unlock (.again r))
  else
    let taken := s.dev.take r.stMaxBytes
    let s := { s with dev := taken.2.2 }
    let r := { r with bytes := r.bytes ++ taken.1 }
    if s.dev.mayXon then s.goto t (.xon r taken.2.1) else readLeft s t r taken.2.1

def Phase.woken : Phase → Phase
  | .asleep r => .lock r
  | phase => phase

def rdSyncPost (i : ℕ) : State T :=
  match s.rdSync.post i with
  | (none, rdSync) => { s with rdSync := rdSync }
  | (some u, rdSync) => { s.goto u (s.phase u).woken with rdSync := rdSync }

def State.unlock (t : T) : After → State T
  | .idle => { s.goto t .idle with mutex := none }
  | .again r => { s.goto t (.pend r) with mutex := none }
  | .fetched r sstNBytes =>
    let s := { s with mutex := none }
    let r : Read := ⟨r.stMaxBytes - sstNBytes, r.sstNTotalBytes + sstNBytes, r.bytes,
      s.dev.readTimeout false⟩
    if r.sstNTotalBytes < s.dev.cc.vmin then s.goto t (.pend r) else s.ret t .none r .idle

def tyIoctl (t : T) : Request → State T
  | .cancel =>
    { s.goto t .requestPost with dev := { s.dev with bCanceled := true }, mutex := some t }
  | .waitAbort =>
    if s.rdSync.queue = [] then { s.goto t (.unlock .idle) with mutex := some t }
    else { s.goto t .requestPost with dev := { s.dev with abortFlag := true }, mutex := some t }
  | .rflush =>
    { s.goto t .rflush with dev := { s.dev with bFlushingRdBuf := true }, mutex := some t }

def State.received (t : T) (iStatus : Bool) : State T :=
  { s.goto t .idle with statuses := s.statuses ++ [iStatus] }

def irdRelease (t : T) (bReleaseTaskLevel iStatus : Bool) : State T :=
  if bReleaseTaskLevel then s.goto t (.irdPost iStatus) else s.received t iStatus

def tyIRd (t : T) (cInchar : BitVec 8) : State T :=
  let r := s.dev.tyIRd cInchar
  let s := { s with dev := r.1 }
  match r.2 with
  | .done iStatus => s.received t iStatus
  | .rest bReleaseTaskLevel tandem iStatus =>
    if tandem then s.goto t (.irdTandem bReleaseTaskLevel iStatus)
    else irdRelease s t bReleaseTaskLevel iStatus

def irdTandem (t : T) (bReleaseTaskLevel iStatus : Bool) : State T :=
  if s.dev.bFlushingRdBuf then s.received t false
  else
    let r := s.dev.irdTandem
    irdRelease { s with dev := r.2 } t (bReleaseTaskLevel || r.1) iStatus

def next (t : T) (i : ℕ) : Option (State T) :=
  match s.phase t with
  | .idle | .asleep _ => none
  | .pend r => some (readPend s t r)
  | .lock r => if s.mutex = none then some (readLock s t r) else none
  | .fetch r => some (readFetch s t r)
  | .xon r sstNBytes => some ({ s with dev := s.dev.tyRdXoff false }.goto t (.left r sstNBytes))
  | .left r sstNBytes => some (readLeft s t r sstNBytes)
  | .post r sstNBytes => some ((rdSyncPost s i).goto t (.unlock (.fetched r sstNBytes)))
  | .unlock after => some (s.unlock t after)
  | .request iRequest => if s.mutex = none then some (tyIoctl s t iRequest) else none
  | .requestPost => some ((rdSyncPost s i).goto t (.unlock .idle))
  | .rflush => some ({ s with dev := s.dev.rngFlush }.goto t .rflushXon)
  | .rflushXon => some ({ s with dev := s.dev.tyRdXoff false }.goto t .rflushClear)
  | .rflushClear => some ({ s with rdSync := s.rdSync.clear }.goto t .rflushDone)
  | .rflushDone =>
    some ({ s with dev := { s.dev with bFlushingRdBuf := false } }.goto t (.unlock .idle))
  | .irdTandem bReleaseTaskLevel iStatus => some (irdTandem s t bReleaseTaskLevel iStatus)
  | .irdPost iStatus => some ((rdSyncPost s i).received t iStatus)

inductive Action (T : Type*) where
  | read (t : T) (stMaxBytes : ℕ)
  | ioctl (t : T) (iRequest : Request)
  | receive (t : T) (cInchar : BitVec 8)
  | next (t : T) (i : ℕ)
  | timeout (t : T)
  | signal (t : T) (ulTimeout : Option ℕ)

/-- One step; `none` where it is not enabled. A signal makes a reader wait again for the time that
is left. -/
def step : Action T → Option (State T)
  | .read t stMaxBytes =>
    match s.phase t with
    | .idle => some (tyRead s t stMaxBytes)
    | _ => none
  | .ioctl t iRequest =>
    match s.phase t with
    | .idle => some (s.goto t (.request iRequest))
    | _ => none
  | .receive t cInchar =>
    match s.phase t with
    | .idle => some (tyIRd s t cInchar)
    | _ => none
  | .next t i => next s t i
  | .timeout t =>
    match s.phase t with
    | .asleep r =>
      if r.ulTimeout.isSome then
        some ({ s with rdSync := s.rdSync.leave t }.ret t .timeout r .idle)
      else none
    | _ => none
  | .signal t ulTimeout =>
    match s.phase t with
    | .asleep r =>
      if ulTimeout.isSome = r.ulTimeout.isSome then
        let s := { s with rdSync := s.rdSync.leave t }
        if ulTimeout = some 0 then some (s.ret t .timeout r .idle)
        else some (s.goto t (.pend { r with ulTimeout := ulTimeout }))
      else none
    | _ => none

variable {s}

def Phase.reads : Phase → Bool
  | .lock _ | .fetch _ | .xon _ _ | .left _ _ | .post _ _ => true
  | _ => false

def Phase.receives : Phase → Bool
  | .irdTandem _ _ | .irdPost _ => true
  | _ => false

/-- While the ring is not empty a reader that is asleep is not alone: the token is there, or a
reader that has taken it is still to run. -/
def State.Served (s : State T) : Prop :=
  (∀ u, (s.phase u).receives = false) → s.dev.rdBuf ≠ [] → ∀ t r, s.phase t = .asleep r →
    s.rdSync.token = true ∨ ∃ u, (s.phase u).reads = true

def Phase.brings : Phase → Bool
  | .lock _ | .fetch _ | .xon _ _ | .left _ _ | .post _ _ => true
  | .irdTandem bReleaseTaskLevel _ => bReleaseTaskLevel
  | .irdPost _ => true
  | _ => false

/-- The ring can do without what `t` has. -/
def Spared (s : State T) (t : T) : Prop :=
  s.dev.rdBuf = [] ∨ s.rdSync.token = true ∨ ∃ u, u ≠ t ∧ (s.phase u).brings = true

/-- A call that returns without a post is not needed. -/
def MayReturn (s : State T) (t : T) : Phase → Prop
  | .lock _ => s.dev.abortFlag = true ∨ s.dev.bCanceled = true → Spared s t
  | .irdTandem _ _ => s.dev.bFlushingRdBuf = true → Spared s t
  | _ => True

def Fair (s : State T) : Action T → Prop
  | .next t _ => MayReturn s t (s.phase t)
  | _ => True

instance [Fintype T] (s : State T) (t : T) : Decidable (Spared s t) :=
  inferInstanceAs (Decidable
    (s.dev.rdBuf = [] ∨ s.rdSync.token = true ∨ ∃ u, u ≠ t ∧ (s.phase u).brings = true))

instance [Fintype T] (s : State T) (t : T) : (phase : Phase) → Decidable (MayReturn s t phase)
  | .lock _ => inferInstanceAs (Decidable
      (s.dev.abortFlag = true ∨ s.dev.bCanceled = true → Spared s t))
  | .irdTandem _ _ => inferInstanceAs (Decidable (s.dev.bFlushingRdBuf = true → Spared s t))
  | .idle | .pend _ | .asleep _ | .fetch _ | .xon _ _ | .left _ _ | .post _ _ | .unlock _
  | .request _ | .requestPost | .rflush | .rflushXon | .rflushClear | .rflushDone
  | .irdPost _ => inferInstanceAs (Decidable True)

instance [Fintype T] (s : State T) : (a : Action T) → Decidable (Fair s a)
  | .next t _ => inferInstanceAs (Decidable (MayReturn s t (s.phase t)))
  | .read _ _ | .ioctl _ _ | .receive _ _ | .timeout _ | .signal _ _ =>
    inferInstanceAs (Decidable True)

end SylixOS.TyLib
