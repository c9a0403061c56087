import SylixOS.BinarySemaphore
import SylixOS.StepRuns
import Mathlib.Data.Fintype.Basic
import Mathlib.Algebra.GroupWithZero.Nat

/-! The eventfd device (eventfdDev.c): a counter of 64 bits between two binary
semaphores, which stand for "can be read" and "can be written". Each operation
on a semaphore is a step, and so is each section under the spin lock. -/

namespace SylixOS.Eventfd
open BinarySemaphore StepRuns

variable {T : Type*} [DecidableEq T]

def maxCnt : BitVec 64 := 0xffffffffffffffff

/-- The arguments of `_evtfdRead` and `_evtfdWrite`; `nonblock` is the `O_NONBLOCK` that the call
sees, `start` how much of the log was there when it was called (ghost). -/
structure ReadCall where
  nonblock : Bool
  start : ℕ
  deriving DecidableEq

structure WriteCall where
  u64Add : BitVec 64
  nonblock : Bool
  start : ℕ
  deriving DecidableEq

/-- Where a thread is: outside; at `API_SemaphoreBPend` (for the first time or again) or asleep in
it; in front of its section under the spin lock; in front of its posts. -/
inductive Phase where
  | idle
  | readPend (c : ReadCall) (again : Bool)
  | readAsleep (c : ReadCall)
  | readTest (c : ReadCall)
  | readPostRead
  | readPostWrite
  | writePend (c : WriteCall) (again : Bool)
  | writeAsleep (c : WriteCall)
  | writeTest (c : WriteCall)
  | writePostRead
  deriving DecidableEq

inductive Failure where
  | readAgain (c : ReadCall) (moments : List (BitVec 64))
  | writeAgain (c : WriteCall) (moments : List (BitVec 64))
  /-- `EINVAL` -/
  | writeInvalid (u64Add : BitVec 64)
  deriving DecidableEq

structure State (T : Type*) where
  /-- `EF_u64Counter` -/
  counter : BitVec 64
  readLock : Sem T
  writeLock : Sem T
  semaphore : Bool
  phase : T → Phase
  /-- The values that have been written and read. -/
  written : List (BitVec 64)
  read : List (BitVec 64)
  failures : List Failure
  /-- The values of the counter, and again when a call begins (ghost). -/
  log : List (BitVec 64)

def State.create (initval : BitVec 32) (semaphore : Bool) : State T where
  counter := initval.setWidth 64
  readLock := ⟨decide (initval ≠ 0), []⟩
  writeLock := ⟨true, []⟩
  semaphore := semaphore
  phase := fun _ => .idle
  written := []
  read := []
  failures := []
  log := []

variable (s : State T)

def State.goto (t : T) (phase : Phase) : State T :=
  { s with phase := Function.update s.phase t phase }

def State.fail (t : T) (f : Failure) : State T :=
  { s.goto t .idle with failures := s.failures ++ [f] }

def State.set (counter : BitVec 64) : State T :=
  { s with counter := counter, log := s.log ++ [counter] }

def evtfdRead (t : T) (nonblock : Bool) : State T :=
  { s.goto t (.readPend ⟨nonblock, s.log.length⟩ false) with log := s.log ++ [s.counter] }

def readPend (t : T) (c : ReadCall) : State T :=
  if s.readLock.token then
    { s.goto t (.readTest c) with readLock := (s.readLock.pend t).2 }
  else if c.nonblock then s.fail t (.readAgain c (s.log.drop c.start))
  else { s.goto t (.readAsleep c) with readLock := (s.readLock.pend t).2 }

def readTest (t : T) (c : ReadCall) : State T :=
  if s.counter = 0 then s.goto t (.readPend c true)
  else
    let value := if s.semaphore then 1 else s.counter
    let counter := if s.semaphore then s.counter - 1 else 0
    { (s.goto t (if counter = 0 then .readPostWrite else .readPostRead)).set counter with
      read := s.read ++ [value] }

def evtfdWrite (t : T) (u64Add : BitVec 64) (nonblock : Bool) : State T :=
  if u64Add = maxCnt then s.fail t (.writeInvalid u64Add)
  else
    { s.goto t (.writePend ⟨u64Add, nonblock, s.log.length⟩ false) with
      log := s.log ++ [s.counter] }

def writePend (t : T) (c : WriteCall) : State T :=
  if s.writeLock.token then
    { s.goto t (.writeTest c) with writeLock := (s.writeLock.pend t).2 }
  else if c.nonblock then s.fail t (.writeAgain c (s.log.drop c.start))
  else { s.goto t (.writeAsleep c) with writeLock := (s.writeLock.pend t).2 }

def fits (u64Add counter : BitVec 64) : Bool := maxCnt - u64Add > counter

def writeTest (t : T) (c : WriteCall) : State T :=
  if fits c.u64Add s.counter then
    let counter := s.counter + c.u64Add
    { (s.goto t (if counter = 0 then .idle else .writePostRead)).set counter with
      written := s.written ++ [c.u64Add] }
  else s.goto t (.writePend c true)

def Phase.woken : Phase → Phase
  | .readAsleep c => .readTest c
  | .writeAsleep c => .writeTest c
  | phase => phase

def State.wake : Option T → State T
  | none => s
  | some t => s.goto t (s.phase t).woken

def postRead (t : T) (phase : Phase) (i : ℕ) : State T :=
  let r := s.readLock.post i
  { (s.goto t phase).wake r.1 with readLock := r.2 }

def postWrite (t : T) (i : ℕ) : State T :=
  let r := s.writeLock.post i
  { (s.goto t .idle).wake r.1 with writeLock := r.2 }

inductive Action (T : Type*) where
  | read (t : T) (nonblock : Bool)
  | write (t : T) (u64Add : BitVec 64) (nonblock : Bool)
  | next (t : T) (i : ℕ)

def step : Action T → Option (State T)
  | .read t nonblock => if s.phase t = .idle then some (evtfdRead s t nonblock) else none
  | .write t u64Add nonblock =>
    if s.phase t = .idle then some (evtfdWrite s t u64Add nonblock) else none
  | .next t i =>
    match s.phase t with
    | .readPend c _ => some (readPend s t c)
    | .readTest c => some (readTest s t c)
    | .readPostRead => some (postRead s t .readPostWrite i)
    | .readPostWrite => some (postWrite s t i)
    | .writePend c _ => some (writePend s t c)
    | .writeTest c => some (writeTest s t c)
    | .writePostRead => some (postRead s t .idle i)
    | .idle | .readAsleep _ | .writeAsleep _ => none

variable {s}

def Phase.busy : Phase → Bool
  | .readTest _ | .readPostRead | .readPostWrite | .writeTest _ | .writePostRead => true
  | _ => false

/-- A non-blocking call fails only if there was a reason at some moment of the call. -/
def Failure.Justified : Failure → Prop
  | .readAgain _ moments => 0 ∈ moments
  | .writeAgain c moments => ∃ counter ∈ moments, maxCnt.toNat ≤ counter.toNat + c.u64Add.toNat
  | .writeInvalid u64Add => u64Add = maxCnt

def total (l : List (BitVec 64)) : ℕ := (l.map BitVec.toNat).sum

structure State.Counts (initval : BitVec 32) (s : State T) : Prop where
  balance : s.counter.toNat + total s.read = initval.toNat + total s.written
  below : s.counter.toNat < maxCnt.toNat
  failures : ∀ f ∈ s.failures, f.Justified
  readers : (∀ t, (s.phase t).busy = false) → ∀ t c, s.phase t = .readAsleep c → s.counter = 0
  writers : (∀ t, (s.phase t).busy = false) → ∀ t c, s.phase t = .writeAsleep c →
    maxCnt.toNat ≤ s.counter.toNat + c.u64Add.toNat

def Phase.makesRoom : Phase → Bool
  | .readPostRead | .readPostWrite => true
  | _ => false

def Finds (s : State T) : Phase → Prop
  | .readPend c again =>
    s.readLock.token = true ∨ c.nonblock = false ∨ again = true ∨ s.counter = 0
  | .writePend c again =>
    s.writeLock.token = true ∨
      if c.nonblock then again = true ∨ fits c.u64Add s.counter = false
      else
        s.writeLock.queue = [] ∧
          (fits c.u64Add s.counter = false ∨ ∃ u, (s.phase u).makesRoom = true)
  | _ => True

def Fair (s : State T) : Action T → Prop
  | .next t _ => Finds s (s.phase t)
  | _ => True

instance [Fintype T] (s : State T) : (phase : Phase) → Decidable (Finds s phase)
  | .readPend c again => inferInstanceAs (Decidable
      (s.readLock.token = true ∨ c.nonblock = false ∨ again = true ∨ s.counter = 0))
  | .writePend c again => inferInstanceAs (Decidable (s.writeLock.token = true ∨
      if c.nonblock then again = true ∨ fits c.u64Add s.counter = false
      else
        s.writeLock.queue = [] ∧
          (fits c.u64Add s.counter = false ∨ ∃ u, (s.phase u).makesRoom = true)))
  | .idle | .readAsleep _ | .readTest _ | .readPostRead | .readPostWrite | .writeAsleep _
  | .writeTest _ | .writePostRead => inferInstanceAs (Decidable True)

instance [Fintype T] (s : State T) : (a : Action T) → Decidable (Fair s a)
  | .next t _ => inferInstanceAs (Decidable (Finds s (s.phase t)))
  | .read _ _ | .write _ _ _ => inferInstanceAs (Decidable True)

end SylixOS.Eventfd
