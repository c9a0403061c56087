import Mathlib.Data.Int.Notation
import SylixOS.LinkedChain
import SylixOS.StepRuns

/-! The record locks of `ioLockF.c` on one file node, with `F_POSIX`. The installed locks
are linked one way from `FDNODE_pfdlockHead`; a request that waits uses the same pointer
for the lock that blocks it. What is done under the lock of the file node is one step.
Request `k` allocates the lock `.lock k` and the lock `.spare k` for a split; freed locks
are not used again. -/

namespace SylixOS.FdLockf
open LinkedChain Function

inductive Kind where
  | rdlck
  | wrlck
  | unlck
  deriving DecidableEq, Repr

structure Span where
  pid : ℕ
  usType : Kind
  oftStart : ℤ
  oftEnd : ℤ
  deriving DecidableEq, Repr

inductive Addr where
  | lock (k : ℕ)
  | spare (k : ℕ)
  deriving DecidableEq, Repr

/-- The locks of a file node: `LW_FD_LOCKF` field by field, and the two heads of `LW_FD_NODE`. -/
structure Node where
  span : Addr → Span
  next : Addr → Option Addr
  blockHd : Addr → List Addr
  abort : Addr → Bool
  sem : Addr → Bool
  head : Option Addr
  blockQ : List Addr
  created : ℕ

inductive Case where
  | apart
  | equal
  | contains
  | contained
  | startsBefore
  | endsAfter
  deriving DecidableEq, Repr

/-- The tests of `__fdLockfFindOverlap` on one lock; after the last of them the loop would not
move on. -/
def overlapCase (f lock : Span) : Option Case :=
  if (f.oftEnd ≠ -1 ∧ lock.oftStart > f.oftEnd) ∨
      (lock.oftEnd ≠ -1 ∧ f.oftStart > lock.oftEnd) then some .apart
  else if f.oftStart = lock.oftStart ∧ f.oftEnd = lock.oftEnd then some .equal
  else if f.oftStart ≤ lock.oftStart ∧ lock.oftEnd ≠ -1 ∧
      (f.oftEnd ≥ lock.oftEnd ∨ f.oftEnd = -1) then some .contains
  else if lock.oftStart ≤ f.oftStart ∧
      (lock.oftEnd = -1 ∨ (f.oftEnd ≠ -1 ∧ lock.oftEnd ≥ f.oftEnd)) then some .contained
  else if f.oftStart < lock.oftStart ∧ (f.oftEnd ≥ lock.oftStart ∨ f.oftEnd = -1) then
    some .startsBefore
  else if f.oftStart > lock.oftStart ∧ lock.oftEnd ≠ -1 ∧
      (f.oftEnd > lock.oftEnd ∨ f.oftEnd = -1) then some .endsAfter
  else none

inductive Whose where
  | self
  | others
  deriving DecidableEq, Repr

def skips (whose : Whose) (f lock : Span) : Bool :=
  match whose with
  | .self => decide (f.pid ≠ lock.pid)
  | .others => decide (f.pid = lock.pid)

/-- `__fdLockfFindOverlap` from `cur`: the case, the place of the pointer to the lock that was
found (`none` for `FDNODE_pfdlockHead`, else the lock that it is in), and the lock. -/
def fdLockfFindOverlap (n : Node) (lock : Span) (whose : Whose) :
    (fuel : ℕ) → (prev cur : Option Addr) → Option (Case × Option Addr × Option Addr)
  | _, prev, none => some (.apart, prev, none)
  | 0, _, some _ => none
  | fuel + 1, prev, some a =>
    if skips whose (n.span a) lock then
      fdLockfFindOverlap n lock whose fuel (some a) (n.next a)
    else
      match overlapCase (n.span a) lock with
      | none => none
      | some .apart =>
        if whose = .self ∧ lock.oftEnd ≠ -1 ∧ (n.span a).oftStart > lock.oftEnd then
          some (.apart, prev, some a)
        else fdLockfFindOverlap n lock whose fuel (some a) (n.next a)
      | some c => some (c, prev, some a)

def Node.fuel (n : Node) : ℕ := 2 * n.created + 1

def fdLockfGetBlock (n : Node) (lock : Span) :
    (fuel : ℕ) → (prev cur : Option Addr) → Option (Option Addr)
  | 0, _, _ => none
  | fuel + 1, prev, cur =>
    match fdLockfFindOverlap n lock .others n.fuel prev cur with
    | none => none
    | some (.apart, _, _) => some none
    | some (_, _, none) => none
    | some (_, prev, some a) =>
      if lock.usType = .wrlck ∨ (n.span a).usType = .wrlck then some (some a)
      else fdLockfGetBlock n lock fuel prev (n.next a)

def lineAddTail (l : List Addr) (a : Addr) : List Addr :=
  match l with
  | [] => [a]
  | h :: t => h :: a :: t

def fdLockfBlock (n : Node) (waiter blocker : Addr) : Node :=
  { n with
    blockQ := lineAddTail n.blockQ waiter
    blockHd := update n.blockHd blocker (lineAddTail (n.blockHd blocker) waiter)
    next := update n.next waiter (some blocker) }

def fdLockfUnblock (n : Node) (waiter blocker : Addr) : Node :=
  { n with
    next := update n.next waiter none
    blockHd := update n.blockHd blocker ((n.blockHd blocker).erase waiter)
    blockQ := n.blockQ.erase waiter }

def wakeAll (blocker : Addr) : Node → List Addr → Node
  | n, [] => n
  | n, w :: ws =>
    let n := fdLockfUnblock n w blocker
    wakeAll blocker { n with sem := update n.sem w true } ws

def fdLockfWakeup (n : Node) (blocker : Addr) : Node := wakeAll blocker n (n.blockHd blocker)

def handOver (overlap lock : Addr) : Node → List Addr → Node
  | n, [] => n
  | n, w :: ws => handOver overlap lock (fdLockfBlock (fdLockfUnblock n w overlap) w lock) ws

def fdLockfFindBlock (n : Node) (pid : ℕ) : Option Addr :=
  n.blockQ.find? fun w => (n.span w).pid = pid

def maxDepth : ℕ := 50

def isDeadLockFrom (n : Node) (waiter : Addr) : (left : ℕ) → (prop : Addr) → Bool
  | 0, _ => true
  | left + 1, prop =>
    match fdLockfFindBlock n (n.span prop).pid with
    | none => false
    | some w =>
      match n.next w with
      | none => false
      | some b =>
        if (n.span b).pid = (n.span waiter).pid then true
        else isDeadLockFrom n waiter left b

def fdLockfIsDeadLock (n : Node) (waiter prop : Addr) : Bool :=
  isDeadLockFrom n waiter maxDepth prop

def Node.store (n : Node) (place v : Option Addr) : Node :=
  match place with
  | none => { n with head := v }
  | some a => { n with next := update n.next a v }

def Node.setNext (n : Node) (a : Addr) (v : Option Addr) : Node :=
  { n with next := update n.next a v }

def Node.setSpan (n : Node) (a : Addr) (sp : Span) : Node :=
  { n with span := update n.span a sp }

def Span.withStart (s : Span) (oftStart : ℤ) : Span := { s with oftStart := oftStart }
def Span.withEnd (s : Span) (oftEnd : ℤ) : Span := { s with oftEnd := oftEnd }
def Span.withType (s : Span) (usType : Kind) : Span := { s with usType := usType }

def fdLockfSplit (n : Node) (lock1 lock2 spare : Addr) : Node :=
  let s1 := n.span lock1
  let s2 := n.span lock2
  if s1.oftStart = s2.oftStart then
    (n.setSpan lock1 (s1.withStart (s2.oftEnd + 1))).setNext lock2 (some lock1)
  else if s1.oftEnd = s2.oftEnd then
    ((n.setSpan lock1 (s1.withEnd (s2.oftStart - 1))).setNext lock2 (n.next lock1)).setNext
      lock1 (some lock2)
  else
    let n := { n with
      blockHd := update n.blockHd spare []
      abort := update n.abort spare (n.abort lock1) }
    let n := (n.setSpan spare (s1.withStart (s2.oftEnd + 1))).setSpan lock1
      (s1.withEnd (s2.oftStart - 1))
    ((n.setNext spare (n.next lock1)).setNext lock2 (some spare)).setNext lock1 (some lock2)

def downgrades (lock overlap : Span) : Prop :=
  lock.usType = .rdlck ∧ overlap.usType = .wrlck

instance (lock overlap : Span) : Decidable (downgrades lock overlap) :=
  inferInstanceAs (Decidable (_ ∧ _))

def setLoop (lock spare : Addr) :
    (fuel : ℕ) → Node → (prev cur : Option Addr) → (needToLink : Bool) → Option Node
  | 0, _, _, _, _ => none
  | fuel + 1, n, prev, cur, needToLink =>
    match fdLockfFindOverlap n (n.span lock) .self n.fuel prev cur with
    | none => none
    | some (.apart, prev, overlap) =>
      some (if needToLink then (n.store prev (some lock)).setNext lock overlap else n)
    | some (_, _, none) => none
    | some (.equal, _, some a) =>
      let n := if downgrades (n.span lock) (n.span a) then fdLockfWakeup n a else n
      some (n.setSpan a ((n.span a).withType (n.span lock).usType))
    | some (.contains, prev, some a) =>
      if (n.span a).usType = (n.span lock).usType then some n
      else
        let n :=
          if (n.span a).oftStart = (n.span lock).oftStart then
            ((n.store prev (some lock)).setNext lock (some a)).setSpan a
              ((n.span a).withStart ((n.span lock).oftEnd + 1))
          else fdLockfSplit n a lock spare
        some (fdLockfWakeup n a)
    | some (.contained, prev, some a) =>
      let block := n.next a
      let n :=
        if downgrades (n.span lock) (n.span a) then fdLockfWakeup n a
        else handOver a lock n (n.blockHd a)
      if needToLink then
        setLoop lock spare fuel ((n.store prev (some lock)).setNext lock (n.next a)) (some lock)
          block false
      else setLoop lock spare fuel (n.store prev (n.next a)) prev block needToLink
    | some (.startsBefore, _, some a) =>
      let block := n.next a
      let n := ((n.setNext lock (n.next a)).setNext a (some lock)).setSpan a
        ((n.span a).withEnd ((n.span lock).oftStart - 1))
      setLoop lock spare fuel (fdLockfWakeup n a) (some lock) block false
    | some (.endsAfter, prev, some a) =>
      let n := if needToLink then (n.store prev (some lock)).setNext lock (some a) else n
      some (fdLockfWakeup
        (n.setSpan a ((n.span a).withStart ((n.span lock).oftEnd + 1))) a)

def clearLoop (unlock spare : Addr) :
    (fuel : ℕ) → Node → (prev cur : Option Addr) → Option Node
  | 0, _, _, _ => none
  | fuel + 1, n, prev, cur =>
    match fdLockfFindOverlap n (n.span unlock) .self n.fuel prev cur with
    | none => none
    | some (.apart, _, _) => some n
    | some (_, _, none) => none
    | some (c, prev, some a) =>
      let n := fdLockfWakeup n a
      match c with
      | .apart => some n
      | .equal => some (n.store prev (n.next a))
      | .contains =>
        if (n.span a).oftStart = (n.span unlock).oftStart then
          some (n.setSpan a ((n.span a).withStart ((n.span unlock).oftEnd + 1)))
        else
          let n := fdLockfSplit n a unlock spare
          some (n.setNext a (n.next unlock))
      | .contained => clearLoop unlock spare fuel (n.store prev (n.next a)) prev (n.next a)
      | .startsBefore =>
        clearLoop unlock spare fuel
          (n.setSpan a ((n.span a).withEnd ((n.span unlock).oftStart - 1))) (some a) (n.next a)
      | .endsAfter =>
        some (n.setSpan a ((n.span a).withStart ((n.span unlock).oftEnd + 1)))

inductive Outcome where
  | ok
  | eagain
  | edeadlk
  | einval
  | enolck
  | ebadf
  | interrupted
  deriving DecidableEq, Repr

def fdLockfSetLock (n : Node) (k : ℕ) (wait : Bool) : Option (Node × Option Outcome) :=
  match fdLockfGetBlock n (n.span (.lock k)) n.fuel none n.head with
  | none => none
  | some (some b) =>
    if wait = false then some (n, some .eagain)
    else if fdLockfIsDeadLock n (.lock k) b then some (n, some .edeadlk)
    else some (fdLockfBlock n (.lock k) b, none)
  | some none => (setLoop (.lock k) (.spare k) n.fuel n none n.head true).map fun n => (n, some .ok)

def fdLockfClearLock (n : Node) (k : ℕ) : Option Node :=
  clearLoop (.lock k) (.spare k) n.fuel n none n.head

inductive Whence where
  | seekSet
  | seekCur
  | seekEnd
  | other
  deriving DecidableEq, Repr

/-- The arguments of `__fdLockfAdvLock` for `F_SETLK` and `F_UNLCK`, which `_FdLockfIoctl` tells
apart by `l_type`. `spareOk` and `lockOk` say whether the two allocations succeed. -/
structure Request where
  pid : ℕ
  type : Kind
  whence : Whence
  start : ℤ
  len : ℕ
  oftSize : ℤ
  wait : Bool
  spareOk : Bool
  lockOk : Bool

def Request.oftStart (r : Request) : Option ℤ :=
  match r.whence with
  | .seekSet => some r.start
  | .seekCur => some r.start
  | .seekEnd => some (r.oftSize + r.start)
  | .other => none

def Request.span (r : Request) (oftStart : ℤ) : Span where
  pid := r.pid
  usType := r.type
  oftStart := oftStart
  oftEnd := if r.len = 0 then -1 else oftStart + r.len - 1

inductive Phase where
  | absent
  | asleep
  | woken (error : Bool)
  | finished (o : Outcome)
  deriving DecidableEq, Repr

/-- A file node and the requests on it. `held` is what each process is to hold of each byte. -/
structure State where
  node : Node
  phase : ℕ → Phase
  held : ℕ → ℤ → Option Kind

def Span.Covers (s : Span) (b : ℤ) : Prop := s.oftStart ≤ b ∧ (s.oftEnd = -1 ∨ b ≤ s.oftEnd)

instance (s : Span) (b : ℤ) : Decidable (s.Covers b) := inferInstanceAs (Decidable (_ ∧ _))

def Kind.mark : Kind → Option Kind
  | .unlck => none
  | k => some k

def overwrite (held : ℕ → ℤ → Option Kind) (s : Span) : ℕ → ℤ → Option Kind :=
  fun pid b => if pid = s.pid ∧ s.Covers b then s.usType.mark else held pid b

def State.settle (s : State) (k : ℕ) : Node × Option Outcome → State
  | (n, none) => { s with node := n, phase := update s.phase k .asleep }
  | (n, some o) =>
    { node := n
      phase := update s.phase k (.finished o)
      held := if o = .ok then overwrite s.held (s.node.span (.lock k)) else s.held }

def Node.create (n : Node) (sp : Span) : Node :=
  let a := Addr.lock n.created
  { n with
    span := update n.span a sp
    next := update n.next a none
    blockHd := update n.blockHd a []
    abort := update n.abort a false
    sem := update n.sem a false
    created := n.created + 1 }

def fdLockfAdvLock (s : State) (r : Request) : Option State :=
  let k := s.node.created
  let fails (o : Outcome) : Option State :=
    some { s with
      node := { s.node with created := k + 1 }
      phase := update s.phase k (.finished o) }
  match r.oftStart with
  | none => fails .einval
  | some oftStart =>
    if oftStart < 0 then fails .einval
    else if r.spareOk = false ∨ r.lockOk = false then fails .enolck
    else
      let s := { s with node := s.node.create (r.span oftStart) }
      if s.node.head = none ∧ r.type = .unlck then some (s.settle k (s.node, some .ok))
      else if r.type = .unlck then
        (fdLockfClearLock s.node k).map fun n => s.settle k (n, some .ok)
      else (fdLockfSetLock s.node k r.wait).map (s.settle k)

def retry (s : State) (k : ℕ) (error : Bool) : Option State :=
  let a := Addr.lock k
  if s.node.abort a then some (s.settle k (s.node, some .ebadf))
  else
    let n :=
      match s.node.next a with
      | some b => fdLockfUnblock s.node a b
      | none => s.node
    if error then some (s.settle k (n, some .interrupted))
    else (fdLockfSetLock n k true).map (s.settle k)

def fdLockfCleanupHook (s : State) (k : ℕ) : State :=
  let a := Addr.lock k
  let n :=
    match s.node.next a with
    | some b => fdLockfUnblock s.node a b
    | none => s.node
  { s with node := n, phase := update s.phase k .absent }

/-- The inner loop of `__fdLockAbortAdvLocks`: each waiter is marked, and whoever waits on the
waiter is woken. -/
def abortWaiters : Node → List Addr → Node
  | n, [] => n
  | n, w :: ws =>
    abortWaiters (fdLockfWakeup { n with abort := update n.abort w true } w) ws

def abortLoop : (fuel : ℕ) → Node → Option Addr → Option Node
  | _, n, none => some n
  | 0, _, some _ => none
  | fuel + 1, n, some a =>
    let n := abortWaiters n (n.blockHd a)
    abortLoop fuel n (n.next a)

def fdLockAbortAdvLocks (s : State) : Option State :=
  (abortLoop s.node.fuel s.node s.node.head).map fun n =>
    { s with node := { n with head := none }, held := fun _ _ => none }

inductive Act where
  | request (r : Request)
  | wake (k : ℕ)
  | interrupt (k : ℕ)
  | retry (k : ℕ)
  | cleanup (k : ℕ)
  | abort

def step (s : State) : Act → Option State
  | .request r => fdLockfAdvLock s r
  | .wake k =>
    if s.phase k = .asleep ∧ s.node.sem (.lock k) = true then
      some { s with
        node := { s.node with sem := update s.node.sem (.lock k) false }
        phase := update s.phase k (.woken false) }
    else none
  | .interrupt k =>
    if s.phase k = .asleep then some { s with phase := update s.phase k (.woken true) }
    else none
  | .retry k =>
    match s.phase k with
    | .woken error => retry s k error
    | _ => none
  | .cleanup k => if s.phase k = .asleep then some (fdLockfCleanupHook s k) else none
  | .abort => fdLockAbortAdvLocks s

def fresh : State where
  node :=
    { span := fun _ => ⟨0, .unlck, 0, 0⟩
      next := fun _ => none
      blockHd := fun _ => []
      abort := fun _ => false
      sem := fun _ => false
      head := none
      blockQ := []
      created := 0 }
  phase := fun _ => .absent
  held := fun _ _ => none

end SylixOS.FdLockf
