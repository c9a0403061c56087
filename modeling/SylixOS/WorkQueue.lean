import SylixOS.ListLink
import SylixOS.StepRuns

/-! The delayed work queue of `WorkQueue.c`. Its nodes are in a pool, linked one way, or
in the wakeup line, where each holds its delay after the node before it. The service loop
keeps its place in `WU_plineOp` while it runs a job with the lock released; what is done
under the lock is one step. -/

namespace SylixOS.WorkQueue
open StepRuns LinkedChain ListLink Function

/-- A function and its arguments, and a number that tells it from every other accepted job. -/
structure Job (W : Type) where
  id : ℕ
  work : W
  deriving DecidableEq

inductive Phase where
  | idle
  /-- a job runs, and `ulCounter` is what is left of the time that has passed -/
  | running (ulCounter : ℕ)
  deriving DecidableEq

structure State (W : Type) where
  lines : Links ℕ
  header : Option ℕ
  op : Option ℕ
  counter : ℕ → ℕ
  mono : ℕ → Option ℕ
  pool : Option ℕ
  job : ℕ → Job W
  count : BitVec 32
  phase : Phase
  accepted : List (Job W)
  ran : List (Job W)
  discarded : List (Job W)

variable {W : Type}

/-- The loop of `_WakeupAdd`: the counters, the node that it stops at and the last one it read.
`none` when the loop has not ended after `fuel` nodes. -/
def wakeupSeek (lines : Links ℕ) (pwun : ℕ) : (fuel : ℕ) → (counter : ℕ → ℕ) →
    (plineTemp pwunTemp : Option ℕ) → Option ((ℕ → ℕ) × Option ℕ × Option ℕ)
  | _, counter, none, pwunTemp => some (counter, none, pwunTemp)
  | 0, _, some _, _ => none
  | fuel + 1, counter, some n, _ =>
    if counter n ≤ counter pwun then
      wakeupSeek lines pwun fuel (update counter pwun (counter pwun - counter n))
        (lines.next n) (some n)
    else some (counter, some n, some n)

def wakeupAdd (fuel : ℕ) (s : State W) (pwun : ℕ) : Option (State W) :=
  (wakeupSeek s.lines pwun fuel s.counter s.header none).bind fun r =>
    match r.2.1, r.2.2 with
    | some n, _ =>
      let l :=
        if some n = s.header then listLineAddAhead s.lines pwun s.header
        else (listLineAddLeft s.lines pwun n, s.header)
      some { s with
        lines := l.1
        header := l.2
        counter := update r.1 n (r.1 n - r.1 pwun) }
    | none, left =>
      match s.header, left with
      | none, _ =>
        let l := listLineAddAhead s.lines pwun s.header
        some { s with lines := l.1, header := l.2, counter := r.1 }
      | some _, some n => some { s with lines := listLineAddRight s.lines pwun n, counter := r.1 }
      | some _, none => none

def wakeupDel (s : State W) (pwun : ℕ) : State W :=
  let l := listLineDel s.lines pwun s.header
  { s with
    lines := l.1
    header := l.2
    op := if s.op = some pwun then s.lines.next pwun else s.op
    counter :=
      match s.lines.next pwun with
      | some n => update s.counter n (s.counter n + s.counter pwun)
      | none => s.counter }

def flushLoop : (fuel : ℕ) → State W → Option (State W)
  | fuel, s =>
    match fuel, s.header with
    | _, none => some s
    | 0, some _ => none
    | fuel + 1, some n =>
      let l := listLineDel s.lines n s.header
      let m := listMonoFree s.mono s.pool n
      flushLoop fuel { s with
        lines := l.1
        header := l.2
        mono := m.1
        pool := m.2
        discarded := s.discarded ++ [s.job n] }

def wqDFlush (fuel : ℕ) (s : State W) : Option (State W) :=
  (flushLoop fuel s).map fun s => { s with count := 0 }

def wqDInsert (fuel : ℕ) (s : State W) (ulDelay : ℕ) (work : W) : Option (State W) :=
  match listMonoAllocate s.mono s.pool with
  | none => some s
  | some (n, pool) =>
    let job : Job W := ⟨s.accepted.length, work⟩
    (wakeupAdd fuel { s with
      pool := pool
      job := update s.job n job
      counter := update s.counter n ulDelay } n).map fun s =>
      { s with count := s.count + 1, accepted := s.accepted ++ [job] }

/-- One turn of the loop of `__wqDExec`, from the test of `WU_plineOp` to the next time that the
lock is released. -/
def passTurn (s : State W) (ulCounter : ℕ) : State W :=
  match s.op with
  | none => { s with phase := .idle }
  | some n =>
    let s := { s with op := s.lines.next n }
    if ulCounter < s.counter n then
      { s with counter := update s.counter n (s.counter n - ulCounter), phase := .idle }
    else
      let left := ulCounter - s.counter n
      let s := wakeupDel { s with counter := update s.counter n 0 } n
      let m := listMonoFree s.mono s.pool n
      { s with
        mono := m.1
        pool := m.2
        count := s.count - 1
        phase := .running left
        ran := s.ran ++ [s.job n] }

inductive Act (W : Type) where
  | insert (ulDelay : ℕ) (work : W)
  | flush
  /-- `__wqDExec` takes the lock; `ulCounter` is the time since the last pass -/
  | exec (ulCounter : ℕ)
  /-- the job returns, and the pass goes on -/
  | resume

def step (uiQSize : UInt32) (s : State W) : Act W → Option (State W)
  | .insert ulDelay work => wqDInsert uiQSize.toNat s ulDelay work
  | .flush => wqDFlush uiQSize.toNat s
  | .exec ulCounter =>
    match s.phase with
    | .idle => some (passTurn { s with op := s.header } ulCounter)
    | .running _ => none
  | .resume =>
    match s.phase with
    | .idle => none
    | .running ulCounter => some (passTurn s ulCounter)

def freeNodes (s : State W) : (left i : ℕ) → State W
  | 0, _ => s
  | left + 1, i =>
    let m := listMonoFree s.mono s.pool i
    freeNodes { s with mono := m.1, pool := m.2 } left (i + 1)

def wqDCreate (uiQSize : UInt32) (lines : Links ℕ) (counter : ℕ → ℕ) (mono : ℕ → Option ℕ)
    (job : ℕ → Job W) : State W :=
  freeNodes
    { lines := lines
      header := none
      op := none
      counter := counter
      mono := mono
      pool := none
      job := job
      count := 0
      phase := .idle
      accepted := []
      ran := []
      discarded := [] } uiQSize.toNat 0

end SylixOS.WorkQueue
