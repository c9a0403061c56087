import SylixOS.FdLockfRuns
import Mathlib.Algebra.Group.Int.Defs

/-! The range that a record lock is asked for, in the arithmetic of `off_t`. The end of the range
is a sum that is not checked, and an end of `-1` is the end of the file. -/

namespace SylixOS.FdLockf
open LinkedChain StepRuns Function

structure Call where
  get : Bool
  pid : ℕ
  type : Kind
  whence : Whence
  start : Int64
  len : Int64
  oftSize : Int64
  size_nonneg : 0 ≤ oftSize.toInt
  wait : Bool
  spareOk : Bool
  lockOk : Bool

def Call.oftStart (c : Call) : Option Int64 :=
  match c.whence with
  | .seekSet => some c.start
  | .seekCur => some c.start
  | .seekEnd => some (c.oftSize + c.start)
  | .other => none

def Call.oftEnd (c : Call) (oftStart : Int64) : Int64 :=
  if c.len = 0 then -1 else oftStart + c.len - 1

def Call.span (c : Call) (oftStart : Int64) : Span where
  pid := c.pid
  usType := c.type
  oftStart := oftStart.toInt
  oftEnd := (c.oftEnd oftStart).toInt

def offset (z : ℤ) : ℤ := (Int64.ofInt z).toInt

/-- The node as it stands in memory. The sums that a request forms are stored before they are
compared with anything. -/
def Node.stored (n : Node) : Node :=
  { n with
    span := fun a => { n.span a with
      oftStart := offset (n.span a).oftStart
      oftEnd := offset (n.span a).oftEnd } }

def State.stored (s : State) : State := { s with node := s.node.stored }

def State.answer (s : State) (o : Outcome) : State :=
  { s with
    node := { s.node with created := s.node.created + 1 }
    phase := update s.phase s.node.created (.finished o) }

/-- `__fdLockfAdvLock`; what `F_GETLK` writes to the caller is left out. -/
def advLock (s : State) (c : Call) : Option State :=
  let k := s.node.created
  match c.oftStart with
  | none => some (s.answer .einval)
  | some oftStart =>
    if oftStart.toInt < 0 then some (s.answer .einval)
    else if (c.get = false ∧ c.spareOk = false) ∨ c.lockOk = false then some (s.answer .enolck)
    else if s.node.head = none ∧ (c.get = true ∨ c.type = .unlck) then some (s.answer .ok)
    else if c.get then
      (fdLockfGetBlock s.node (c.span oftStart) s.node.fuel none s.node.head).map fun _ =>
        s.answer .ok
    else
      let s := { s with node := s.node.create (c.span oftStart) }
      if c.type = .unlck then
        (fdLockfClearLock s.node k).map fun n => (s.settle k (n, some .ok)).stored
      else (fdLockfSetLock s.node k c.wait).map fun p => (s.settle k p).stored

def Call.reaches (c : Call) (s : State) : Option Span :=
  match c.oftStart with
  | none => none
  | some oftStart =>
    if oftStart.toInt < 0 ∨ ((c.get = false ∧ c.spareOk = false) ∨ c.lockOk = false) ∨
        s.node.head = none ∧ (c.get = true ∨ c.type = .unlck) then none
    else some (c.span oftStart)

/-- A file node, the calls that went to its list, and whether one of them never came back. -/
structure Ranged where
  core : State
  calls : List (Call × Span)
  hung : Bool

def Ranged.ends (s : Ranged) (calls : List (Call × Span)) : Option State → Ranged
  | some core => { core := core, calls := calls, hung := s.hung }
  | none => { s with calls := calls, hung := true }

inductive RangeAct where
  | call (c : Call)
  | retry (k : ℕ)
  | other (a : Act)

def rangeStep (s : Ranged) (a : RangeAct) : Option Ranged :=
  if s.hung then none
  else
    match a with
    | .call c => some (s.ends
        (s.calls ++ ((c.reaches s.core).map fun sp => (c, sp)).toList) (advLock s.core c))
    | .retry k =>
      match s.core.phase k with
      | .woken error => some (s.ends s.calls ((retry s.core k error).map State.stored))
      | _ => none
    | .other (.request _) => none
    | .other (.retry _) => none
    | .other a => (step s.core a).map fun core => { s with core := core.stored }

def Call.resolved (c : Call) : Option ℤ :=
  match c.whence with
  | .seekSet => some c.start.toInt
  | .seekCur => some c.start.toInt
  | .seekEnd => some (c.oftSize.toInt + c.start.toInt)
  | .other => none

def Call.Asked (c : Call) (start b : ℤ) : Prop :=
  if c.len.toInt = 0 then start ≤ b
  else if 0 < c.len.toInt then start ≤ b ∧ b ≤ start + c.len.toInt - 1
  else start + c.len.toInt ≤ b ∧ b ≤ start - 1

/-- The range of a call is the one that POSIX defines, and goes to the end of the file for a
length of 0 only. -/
def Call.Means (c : Call) (sp : Span) : Prop :=
  ∃ start, c.resolved = some start ∧ 0 ≤ start ∧ 0 ≤ start + c.len.toInt ∧
    (∀ b, sp.Covers b ↔ c.Asked start b) ∧ (sp.oftEnd = -1 ↔ c.len.toInt = 0)

/-- Every operation has returned; the list denotes the byte map in which the ranges were
overwritten, and holds no lock that ends below its start; and each range was the one that POSIX
defines. -/
def FollowsPosix (s : Ranged) : Prop :=
  s.hung = false ∧ RefinesMap s.core ∧
    (∃ ids, IsMono s.core.node.next s.core.node.head ids ∧ ∀ x ∈ ids, (s.core.node.span x).Ok) ∧
    ∀ e ∈ s.calls, e.1.Means e.2

/-- A call returns before it goes to the list, or its length is not negative and can be added to
its start. -/
def Measured (s : Ranged) : RangeAct → Prop
  | .call c => c.reaches s.core = none ∨ c.len.toInt = 0 ∨
      0 < c.len.toInt ∧ ∀ start, c.resolved = some start → start + c.len.toInt < 2 ^ 63
  | _ => True

structure Span.Roomy (s : Span) : Prop where
  start_gt : -2 ^ 63 < s.oftStart
  start_lt : s.oftStart < 2 ^ 63
  end_ge : -2 ^ 63 ≤ s.oftEnd
  end_lt : s.oftEnd < 2 ^ 63 - 1

def Node.Roomy (n : Node) : Prop := ∀ a, (n.span a).Roomy

variable {n n' : Node} {k f : Span} {a lock spare : Addr}

theorem offset_of_fits {z : ℤ} (hle : -2 ^ 63 ≤ z) (hlt : z < 2 ^ 63) : offset z = z :=
  Int64.toInt_ofInt_of_le hle hlt

theorem Node.Roomy.stored_eq (h : n.Roomy) : n.stored = n := by
  have hspan : (fun a => ({ n.span a with
      oftStart := offset (n.span a).oftStart
      oftEnd := offset (n.span a).oftEnd } : Span)) = n.span := by
    funext a
    obtain ⟨hgt, hlt, hge, hend⟩ := h a
    rw [offset_of_fits (by omega) hlt, offset_of_fits hge (by omega)]
  rw [Node.stored, hspan]

theorem State.stored_eq {s : State} (h : s.node.Roomy) : s.stored = s := by
  rw [State.stored, h.stored_eq]

theorem Span.Roomy.withStart (h : f.Roomy) (hk : k.Roomy) : (f.withStart (k.oftEnd + 1)).Roomy := by
  obtain ⟨-, -, hge, hend⟩ := h
  obtain ⟨-, -, hge', hend'⟩ := hk
  refine ⟨?_, ?_, hge, hend⟩
  · change -2 ^ 63 < k.oftEnd + 1
    omega
  · change k.oftEnd + 1 < 2 ^ 63
    omega

theorem Span.Roomy.withEnd (h : f.Roomy) (hk : k.Roomy) : (f.withEnd (k.oftStart - 1)).Roomy := by
  obtain ⟨hgt, hlt, -, -⟩ := h
  obtain ⟨hgt', hlt', -, -⟩ := hk
  refine ⟨hgt, hlt, ?_, ?_⟩
  · change -2 ^ 63 ≤ k.oftStart - 1
    omega
  · change k.oftStart - 1 < 2 ^ 63 - 1
    omega

theorem Span.Roomy.withType (h : f.Roomy) (usType : Kind) : (f.withType usType).Roomy :=
  ⟨h.start_gt, h.start_lt, h.end_ge, h.end_lt⟩

theorem Node.Roomy.of_span (h : n.Roomy) (hspan : n'.span = n.span) : n'.Roomy := by
  intro a
  rw [hspan]
  exact h a

theorem Node.Roomy.setSpan (h : n.Roomy) (hf : f.Roomy) : (n.setSpan a f).Roomy := by
  intro b
  by_cases hba : b = a
  · rw [hba, Node.setSpan]
    simp only [update_self]
    exact hf
  · rw [Node.setSpan]
    simp only [update_of_ne hba]
    exact h b

theorem wakeup_span (n : Node) (a : Addr) : (fdLockfWakeup n a).span = n.span := by
  obtain ⟨next', sem', blockQ', heq, -⟩ := fdLockfWakeup_eq n a
  rw [heq]

theorem Node.Roomy.wakeup (h : n.Roomy) (a : Addr) : (fdLockfWakeup n a).Roomy :=
  h.of_span (wakeup_span n a)

theorem handOver_span (overlap lock : Addr) (ws : List Addr) : ∀ n : Node,
    (handOver overlap lock n ws).span = n.span := by
  induction ws with
  | nil => exact fun _ => rfl
  | cons w ws ih => exact fun n => ih _

theorem Node.Roomy.split (h : n.Roomy) (lock1 lock2 spare : Addr) :
    (fdLockfSplit n lock1 lock2 spare).Roomy := by
  rw [fdLockfSplit]
  dsimp only
  split_ifs with hstart hend
  · exact h.setSpan ((h lock1).withStart (h lock2))
  · exact h.setSpan ((h lock1).withEnd (h lock2))
  · have hspare : ({ n with
        blockHd := update n.blockHd spare []
        abort := update n.abort spare (n.abort lock1) } : Node).Roomy := h.of_span rfl
    exact (hspare.setSpan ((h lock1).withStart (h lock2))).setSpan ((h lock1).withEnd (h lock2))

theorem setLoop_roomy {fuel : ℕ} : ∀ {n n' : Node} {prev cur : Option Addr} {needToLink : Bool},
    n.Roomy → setLoop lock spare fuel n prev cur needToLink = some n' → n'.Roomy := by
  induction fuel with
  | zero =>
    intro n n' prev cur needToLink _ hset
    cases hset
  | succ fuel ih =>
    intro n n' prev cur needToLink h hset
    rw [setLoop] at hset
    split at hset
    case h_1 => cases hset
    case h_2 =>
      obtain rfl := Option.some.inj hset
      split_ifs
      · exact h.of_span (store_span _ _ _)
      · exact h
    case h_3 => cases hset
    case h_4 a _ =>
      obtain rfl := Option.some.inj hset
      have hwoken : (if downgrades (n.span lock) (n.span a) then fdLockfWakeup n a else n).Roomy := by
        split_ifs
        · exact h.wakeup a
        · exact h
      exact hwoken.setSpan ((hwoken a).withType _)
    case h_5 a _ =>
      dsimp only at hset
      split_ifs at hset with htype hstart
      · obtain rfl := Option.some.inj hset
        exact h
      · obtain rfl := Option.some.inj hset
        refine Node.Roomy.wakeup ?_ a
        exact Node.Roomy.setSpan (h.of_span (store_span _ _ _)) ((h a).withStart (h lock))
      · obtain rfl := Option.some.inj hset
        exact (h.split a lock spare).wakeup a
    case h_6 prev' a _ =>
      dsimp only at hset
      have hpassed : (if downgrades (n.span lock) (n.span a) then fdLockfWakeup n a
          else handOver a lock n (n.blockHd a)).Roomy := by
        split_ifs
        · exact h.wakeup a
        · exact h.of_span (handOver_span _ _ _ _)
      generalize (if downgrades (n.span lock) (n.span a) then fdLockfWakeup n a
          else handOver a lock n (n.blockHd a)) = passed at hset hpassed
      split_ifs at hset with hlink
      · refine ih ?_ hset
        exact hpassed.of_span (store_span _ _ _)
      · refine ih ?_ hset
        exact hpassed.of_span (store_span _ _ _)
    case h_7 a _ =>
      dsimp only at hset
      refine ih (Node.Roomy.wakeup ?_ a) hset
      exact Node.Roomy.setSpan (h.of_span rfl) ((h a).withEnd (h lock))
    case h_8 prev' a _ =>
      dsimp only at hset
      obtain rfl := Option.some.inj hset
      have hlinked : (if needToLink = true then (n.store prev' (some lock)).setNext lock (some a)
          else n).Roomy := by
        split_ifs
        · exact h.of_span (store_span _ _ _)
        · exact h
      exact (hlinked.setSpan ((hlinked a).withStart (hlinked lock))).wakeup a

theorem clearLoop_roomy {fuel : ℕ} : ∀ {n n' : Node} {prev cur : Option Addr},
    n.Roomy → clearLoop lock spare fuel n prev cur = some n' → n'.Roomy := by
  induction fuel with
  | zero =>
    intro n n' prev cur _ hclear
    cases hclear
  | succ fuel ih =>
    intro n n' prev cur h hclear
    rw [clearLoop] at hclear
    split at hclear
    case h_1 => cases hclear
    case h_2 =>
      obtain rfl := Option.some.inj hclear
      exact h
    case h_3 => cases hclear
    case h_4 c prev' a _ _ =>
      dsimp only at hclear
      have hw := h.wakeup a
      cases c with
      | apart | equal =>
        obtain rfl := Option.some.inj hclear
        exact hw.of_span (by simp)
      | contains =>
        dsimp only at hclear
        split_ifs at hclear with hstart
        · obtain rfl := Option.some.inj hclear
          exact hw.setSpan ((hw a).withStart (hw lock))
        · obtain rfl := Option.some.inj hclear
          exact (hw.split a lock spare).of_span rfl
      | contained => exact ih (hw.of_span (store_span _ _ _)) hclear
      | startsBefore => exact ih (hw.setSpan ((hw a).withEnd (hw lock))) hclear
      | endsAfter =>
        obtain rfl := Option.some.inj hclear
        exact hw.setSpan ((hw a).withStart (hw lock))

section Range

variable {c : Call} {s : State} {st : Int64}

theorem toInt_bounds (z : Int64) : -2 ^ 63 ≤ z.toInt ∧ z.toInt < 2 ^ 63 :=
  ⟨z.le_toInt, z.toInt_lt⟩

theorem reaches_cases {sp : Span} (h : c.reaches s = some sp) : ∃ st, c.oftStart = some st ∧
    0 ≤ st.toInt ∧ ¬((c.get = false ∧ c.spareOk = false) ∨ c.lockOk = false) ∧
    ¬(s.node.head = none ∧ (c.get = true ∨ c.type = .unlck)) ∧ sp = c.span st := by
  rw [Call.reaches] at h
  cases hstart : c.oftStart with
  | none =>
    rw [hstart] at h
    cases h
  | some st =>
    rw [hstart] at h
    dsimp only at h
    split_ifs at h with hearly
    rw [not_or, not_or, Int.not_lt] at hearly
    exact ⟨st, rfl, hearly.1, hearly.2.1, hearly.2.2, (Option.some.inj h).symm⟩

theorem advLock_early (h : c.reaches s = none) : ∃ o, advLock s c = some (s.answer o) := by
  rw [Call.reaches] at h
  unfold advLock
  cases hstart : c.oftStart with
  | none => exact ⟨.einval, rfl⟩
  | some st =>
    rw [hstart] at h
    dsimp only at h ⊢
    split_ifs with hneg hmem hempty
    · exact ⟨.einval, rfl⟩
    · exact ⟨.enolck, rfl⟩
    · exact ⟨.ok, rfl⟩
    · rw [if_neg (by rw [not_or, not_or]; exact ⟨hneg, hmem, hempty⟩)] at h
      cases h
    · rw [if_neg (by rw [not_or, not_or]; exact ⟨hneg, hmem, hempty⟩)] at h
      cases h
    · rw [if_neg (by rw [not_or, not_or]; exact ⟨hneg, hmem, hempty⟩)] at h
      cases h

theorem resolved_of_oftStart (hstart : c.oftStart = some st) (hle : 0 ≤ st.toInt) :
    c.resolved = some st.toInt := by
  unfold Call.oftStart at hstart
  unfold Call.resolved
  cases hwhence : c.whence with
  | seekSet | seekCur =>
    rw [hwhence] at hstart
    obtain rfl := Option.some.inj hstart
    rfl
  | seekEnd =>
    rw [hwhence] at hstart
    obtain rfl := Option.some.inj hstart
    have hsize := c.size_nonneg
    have hsize' := toInt_bounds c.oftSize
    have hbounds := toInt_bounds c.start
    rw [Int64.toInt_add] at hle ⊢
    dsimp only
    congr 1
    rw [Int.bmod_def] at hle ⊢
    split_ifs at hle ⊢ <;> omega
  | other =>
    rw [hwhence] at hstart
    cases hstart

theorem oftEnd_eq (hle : 0 ≤ st.toInt) (hpos : 0 < c.len.toInt)
    (hfits : st.toInt + c.len.toInt < 2 ^ 63) :
    (c.oftEnd st).toInt = st.toInt + c.len.toInt - 1 := by
  have hne : c.len ≠ 0 := by
    intro hzero
    rw [hzero] at hpos
    exact absurd hpos (by decide)
  rw [Call.oftEnd, if_neg hne, Int64.toInt_sub, Int64.toInt_add]
  have hsum : (st.toInt + c.len.toInt).bmod (2 ^ 64) = st.toInt + c.len.toInt :=
    Int.bmod_eq_of_le (by omega) (by omega)
  rw [hsum]
  exact Int.bmod_eq_of_le (by change _ ≤ _ - 1; omega) (by change _ - 1 < _; omega)

theorem span_eq (hle : 0 ≤ st.toInt)
    (h : c.len.toInt = 0 ∨ 0 < c.len.toInt ∧ st.toInt + c.len.toInt < 2 ^ 63) :
    c.span st = ⟨c.pid, c.type, st.toInt,
      if c.len.toInt = 0 then -1 else st.toInt + c.len.toInt - 1⟩ := by
  rcases h with hzero | ⟨hpos, hfits⟩
  · have hlen : c.len = 0 := Int64.toInt_inj.mp hzero
    rw [if_pos hzero, Call.span, Call.oftEnd, if_pos hlen]
    rfl
  · rw [if_neg (by omega), Call.span, oftEnd_eq hle hpos hfits]

def Call.request (c : Call) (st : Int64) : Request where
  pid := c.pid
  type := c.type
  whence := .seekSet
  start := st.toInt
  len := c.len.toInt.toNat
  oftSize := 0
  wait := c.wait
  spareOk := true
  lockOk := true

theorem span_request (hle : 0 ≤ st.toInt)
    (h : c.len.toInt = 0 ∨ 0 < c.len.toInt ∧ st.toInt + c.len.toInt < 2 ^ 63) :
    (c.request st).span st.toInt = c.span st := by
  rw [span_eq hle h]
  rcases h with hzero | ⟨hpos, -⟩
  · rw [if_pos hzero, Request.span]
    have hlen : (c.request st).len = 0 := by simp [Call.request, hzero]
    rw [if_pos hlen]
    rfl
  · have hlen : ((c.request st).len : ℤ) = c.len.toInt :=
      Int.toNat_of_nonneg (Int.le_of_lt hpos)
    rw [if_neg (by omega), Request.span, if_neg (by omega), hlen]
    rfl

theorem means_span (hstart : c.oftStart = some st) (hle : 0 ≤ st.toInt)
    (h : c.len.toInt = 0 ∨ 0 < c.len.toInt ∧ st.toInt + c.len.toInt < 2 ^ 63) :
    c.Means (c.span st) := by
  rw [span_eq hle h]
  refine ⟨st.toInt, resolved_of_oftStart hstart hle, hle, by omega, fun b => ?_, ?_⟩
  · simp only [Span.Covers, Call.Asked]
    split_ifs <;> omega
  · dsimp only
    split_ifs <;> omega

theorem roomy_span (hle : 0 ≤ st.toInt)
    (h : c.len.toInt = 0 ∨ 0 < c.len.toInt ∧ st.toInt + c.len.toInt < 2 ^ 63) :
    (c.span st).Roomy := by
  have hbounds := toInt_bounds st
  rw [span_eq hle h]
  refine ⟨?_, hbounds.2, ?_, ?_⟩
  · change -2 ^ 63 < st.toInt
    omega
  · dsimp only
    split_ifs <;> omega
  · dsimp only
    split_ifs <;> omega

end Range

section Runs

variable {s s' : State} {ids : List Addr}

theorem settle_node (s : State) (k : ℕ) (p : Node × Option Outcome) : (s.settle k p).node = p.1 := by
  obtain ⟨n, o⟩ := p
  cases o <;> rfl

theorem setLock_roomy {k : ℕ} {wait : Bool} {p : Node × Option Outcome} (h : n.Roomy)
    (hset : fdLockfSetLock n k wait = some p) : p.1.Roomy := by
  rw [fdLockfSetLock] at hset
  split at hset
  case h_1 => cases hset
  case h_2 =>
    split_ifs at hset
    · obtain rfl := Option.some.inj hset
      exact h
    · obtain rfl := Option.some.inj hset
      exact h
    · obtain rfl := Option.some.inj hset
      exact h.of_span rfl
  case h_3 =>
    obtain ⟨n', hloop, rfl⟩ := Option.map_eq_some_iff.mp hset
    exact setLoop_roomy h hloop

theorem retried_roomy {k : ℕ} {abort error : Bool} {left : Node} (h : s.node.Roomy)
    (hleft : left.Roomy)
    (hretry : (if abort then some (s.settle k (s.node, some .ebadf))
      else if error then some (s.settle k (left, some .interrupted))
      else (fdLockfSetLock left k true).map (s.settle k)) = some s') : s'.node.Roomy := by
  split_ifs at hretry
  · obtain rfl := Option.some.inj hretry
    exact h
  · obtain rfl := Option.some.inj hretry
    exact hleft
  · obtain ⟨p, hset, rfl⟩ := Option.map_eq_some_iff.mp hretry
    rw [settle_node]
    exact setLock_roomy hleft hset

theorem retry_roomy {k : ℕ} {error : Bool} (h : s.node.Roomy)
    (hretry : retry s k error = some s') : s'.node.Roomy := by
  rw [retry] at hretry
  cases hnext : s.node.next (.lock k) with
  | none =>
    rw [hnext] at hretry
    exact retried_roomy h h hretry
  | some b =>
    rw [hnext] at hretry
    have hleft : (fdLockfUnblock s.node (.lock k) b).Roomy := h.of_span rfl
    exact retried_roomy h hleft hretry

theorem advLock_list {c : Call} {st : Int64} (hstart : c.oftStart = some st)
    (hle : 0 ≤ st.toInt) (hmem : ¬((c.get = false ∧ c.spareOk = false) ∨ c.lockOk = false))
    (hempty : ¬(s.node.head = none ∧ (c.get = true ∨ c.type = .unlck))) :
    advLock s c =
      if c.get then
        (fdLockfGetBlock s.node (c.span st) s.node.fuel none s.node.head).map fun _ =>
          s.answer .ok
      else
        let t := { s with node := s.node.create (c.span st) }
        if c.type = .unlck then
          (fdLockfClearLock t.node s.node.created).map fun n =>
            (t.settle s.node.created (n, some .ok)).stored
        else (fdLockfSetLock t.node s.node.created c.wait).map fun p =>
          (t.settle s.node.created p).stored := by
  unfold advLock
  simp only [hstart, if_neg (Int.not_lt.mpr hle), if_neg hmem, if_neg hempty]

theorem advLock_request {c : Call} {st : Int64} (hstart : c.oftStart = some st)
    (hle : 0 ≤ st.toInt) (hmem : ¬((c.get = false ∧ c.spareOk = false) ∨ c.lockOk = false))
    (hempty : ¬(s.node.head = none ∧ (c.get = true ∨ c.type = .unlck))) (hget : c.get = false)
    (hspan : (c.request st).span st.toInt = c.span st) :
    advLock s c = (fdLockfAdvLock s (c.request st)).map State.stored := by
  have hint : (c.request st).oftStart = some st.toInt := rfl
  have hmem' : ¬((c.request st).spareOk = false ∨ (c.request st).lockOk = false) := by
    simp [Call.request]
  have htype : (c.request st).type = c.type := rfl
  rw [advLock_list hstart hle hmem hempty, if_neg (by simp [hget])]
  unfold fdLockfAdvLock
  simp only [hint, if_neg (Int.not_lt.mpr hle), if_neg hmem', hspan, htype]
  have hhead : ¬((s.node.create (c.span st)).head = none ∧ c.type = .unlck) := fun hboth =>
    hempty ⟨hboth.1, Or.inr hboth.2⟩
  rw [if_neg hhead]
  split_ifs
  · rw [Option.map_map]
    rfl
  · rw [Option.map_map]
    rfl

theorem Node.Roomy.create (h : n.Roomy) (hk : k.Roomy) : (n.create k).Roomy :=
  (h.setSpan hk).of_span rfl

theorem advLock_roomy {c : Call} {st : Int64} (h : s.node.Roomy) (hle : 0 ≤ st.toInt)
    (hspan : (c.request st).span st.toInt = c.span st) (hroomy : (c.span st).Roomy)
    (hadv : fdLockfAdvLock s (c.request st) = some s') : s'.node.Roomy := by
  have hint : (c.request st).oftStart = some st.toInt := rfl
  have hcreated := h.create hroomy
  unfold fdLockfAdvLock at hadv
  simp only [hint, if_neg (Int.not_lt.mpr hle), hspan] at hadv
  split_ifs at hadv
  · obtain rfl := Option.some.inj hadv
    exact h.of_span rfl
  · obtain rfl := Option.some.inj hadv
    rw [settle_node]
    exact hcreated
  · obtain ⟨n', hclear, rfl⟩ := Option.map_eq_some_iff.mp hadv
    rw [settle_node]
    exact clearLoop_roomy hcreated hclear
  · obtain ⟨p, hset, rfl⟩ := Option.map_eq_some_iff.mp hadv
    rw [settle_node]
    exact setLock_roomy hcreated hset

theorem Installed.answer (h : Installed s ids) (o : Outcome) : Installed (s.answer o) ids := by
  have hidle : ¬(s.phase s.node.created).Pending := fun hp =>
    Nat.lt_irrefl _ (h.pending _ hp).1.old
  have hp := not_pending_finished o
  obtain ⟨hwaits, htaken⟩ := waits_settle (s := s) (k := s.node.created)
    ({ s with phase := update s.phase s.node.created (.finished o) } : State)
    (fun j hj => update_of_ne hj _ _) hidle
    (by
      simp only [update_self]
      exact hp) (fun _ => rfl)
  have hrefused : Installed
      ({ s with phase := update s.phase s.node.created (.finished o) } : State) ids := by
    refine h.congr ?_ rfl rfl rfl fun j hj => h.pending j (pending_of_update hp hj).2
    rw [hwaits, htaken]
    exact h.linked
  exact hrefused.grow

theorem advLock_measured {c : Call} (h : Installed s ids) (hroomy : s.node.Roomy)
    (hok : c.reaches s = none ∨ c.len.toInt = 0 ∨
      0 < c.len.toInt ∧ ∀ start, c.resolved = some start → start + c.len.toInt < 2 ^ 63) :
    (∃ s' ids', advLock s c = some s' ∧ Installed s' ids' ∧ s'.node.Roomy) ∧
      ∀ sp, c.reaches s = some sp → c.Means sp := by
  cases hreaches : c.reaches s with
  | none =>
    obtain ⟨o, hadv⟩ := advLock_early hreaches
    exact ⟨⟨_, ids, hadv, h.answer o, hroomy.of_span rfl⟩, fun sp hsp => by cases hsp⟩
  | some sp =>
    obtain ⟨st, hstart, hle, hmem, hempty, rfl⟩ := reaches_cases hreaches
    have hfits : c.len.toInt = 0 ∨ 0 < c.len.toInt ∧ st.toInt + c.len.toInt < 2 ^ 63 := by
      rcases hok with hnone | hzero | ⟨hpos, hall⟩
      · rw [hreaches] at hnone
        cases hnone
      · exact Or.inl hzero
      · exact Or.inr ⟨hpos, hall _ (resolved_of_oftStart hstart hle)⟩
    refine ⟨?_, fun sp hsp => ?_⟩
    · cases hget : c.get with
      | true =>
        have hok : (c.span st).Ok := by
          rw [← span_request hle hfits]
          exact request_span_ok hle
        have hhead := h.linked.mono.head_eq
        have hlength := h.length_lt
        have hadv : advLock s c =
            (fdLockfGetBlock s.node (c.span st) s.node.fuel none s.node.head).map fun _ =>
              s.answer .ok := by
          rw [advLock_list hstart hle hmem hempty, if_pos hget]
        refine ⟨s.answer .ok, ids, ?_, h.answer .ok, hroomy.of_span rfl⟩
        rcases getBlock_spec hok s.node.fuel none ids (hhead ▸ h.linked.mono) h.ok
          (Nat.le_of_lt hlength) hlength with ⟨hnone, -⟩ | ⟨b, -, hsome, -⟩
        · rw [hadv, hhead, hnone]
          rfl
        · rw [hadv, hhead, hsome]
          rfl
      | false =>
        have hspan := span_request hle hfits
        obtain ⟨s', ids', hadv, hinstalled, -⟩ := advLock_installed h (c.request st)
        have hroomy' : s'.node.Roomy := advLock_roomy hroomy hle hspan (roomy_span hle hfits) hadv
        refine ⟨s', ids', ?_, hinstalled, hroomy'⟩
        rw [advLock_request hstart hle hmem hempty hget hspan, hadv, Option.map_some,
          State.stored_eq hroomy']
    · rw [← Option.some.inj hsp]
      exact means_span hstart hle hfits

theorem step_span {a : Act} (h : Installed s ids) (hrequest : ∀ r, a ≠ .request r)
    (hretry : ∀ k, a ≠ .retry k) (hs : step s a = some s') : s'.node.span = s.node.span := by
  cases a with
  | request r => exact absurd rfl (hrequest r)
  | retry k => exact absurd rfl (hretry k)
  | wake k | interrupt k =>
    simp only [step] at hs
    split_ifs at hs
    obtain rfl := Option.some.inj hs
    rfl
  | cleanup k =>
    simp only [step] at hs
    split_ifs at hs
    obtain rfl := Option.some.inj hs
    rw [fdLockfCleanupHook]
    dsimp only
    cases s.node.next (.lock k) <;> rfl
  | abort =>
    obtain ⟨abort', habort, -⟩ := abort_installed h
    obtain rfl := Option.some.inj (habort.symm.trans hs)
    rfl

structure Sound (s : Ranged) : Prop where
  back : s.hung = false
  installed : ∃ ids, Installed s.core ids
  roomy : s.core.node.Roomy
  means : ∀ e ∈ s.calls, e.1.Means e.2

theorem Sound.follows {s : Ranged} (h : Sound s) : FollowsPosix s := by
  obtain ⟨ids, hinstalled⟩ := h.installed
  exact ⟨h.back, hinstalled.refinesMap, ⟨ids, hinstalled.linked.mono, hinstalled.ok⟩, h.means⟩

theorem Sound.call {s : Ranged} {c : Call} (h : Sound s) (hok : Measured s (.call c)) :
    Sound (s.ends (s.calls ++ ((c.reaches s.core).map fun sp => (c, sp)).toList)
      (advLock s.core c)) := by
  obtain ⟨ids, hinstalled⟩ := h.installed
  obtain ⟨⟨s', ids', hadv, hinstalled', hroomy⟩, hmeans⟩ := advLock_measured hinstalled h.roomy hok
  rw [hadv]
  refine ⟨h.back, ⟨ids', hinstalled'⟩, hroomy, fun e he => ?_⟩
  rcases List.mem_append.mp he with hold | hnew
  · exact h.means e hold
  · rw [Option.mem_toList] at hnew
    obtain ⟨sp, hsp, rfl⟩ := Option.map_eq_some_iff.mp hnew
    exact hmeans sp hsp

theorem Sound.retry {s : Ranged} {k : ℕ} {error : Bool} (h : Sound s)
    (hphase : s.core.phase k = .woken error) :
    Sound (s.ends s.calls ((FdLockf.retry s.core k error).map State.stored)) := by
  obtain ⟨ids, hinstalled⟩ := h.installed
  obtain ⟨s', ids', hretry, hinstalled', -⟩ := retry_installed hinstalled hphase
  have hroomy := retry_roomy h.roomy hretry
  rw [hretry, Option.map_some, State.stored_eq hroomy]
  exact ⟨h.back, ⟨ids', hinstalled'⟩, hroomy, h.means⟩

theorem Sound.other {s : Ranged} {core : State} {a : Act} (h : Sound s)
    (hrequest : ∀ r, a ≠ .request r) (hretry : ∀ k, a ≠ .retry k)
    (hs : step s.core a = some core) : Sound { s with core := core.stored } := by
  obtain ⟨ids, hinstalled⟩ := h.installed
  obtain ⟨ids', hinstalled', -⟩ := step_installed hinstalled hs
  have hroomy := h.roomy.of_span (step_span hinstalled hrequest hretry hs)
  rw [State.stored_eq hroomy]
  exact ⟨h.back, ⟨ids', hinstalled'⟩, hroomy, h.means⟩

theorem Sound.step {s s' : Ranged} {a : RangeAct} (h : Sound s) (hok : Measured s a)
    (hs : rangeStep s a = some s') : Sound s' := by
  unfold rangeStep at hs
  rw [if_neg (by simp [h.back])] at hs
  cases a with
  | call c =>
    obtain rfl := Option.some.inj hs
    exact h.call hok
  | retry k =>
    dsimp only at hs
    cases hphase : s.core.phase k with
    | woken error =>
      rw [hphase] at hs
      obtain rfl := Option.some.inj hs
      exact h.retry hphase
    | absent | asleep | finished o =>
      rw [hphase] at hs
      cases hs
  | other a =>
    cases a with
    | request r | retry k => cases hs
    | wake k | interrupt k | cleanup k | abort =>
      obtain ⟨core, hcore, rfl⟩ := Option.map_eq_some_iff.mp hs
      exact h.other (fun r => Act.noConfusion) (fun k => Act.noConfusion) hcore

end Runs

def unranged : Ranged := { core := fresh, calls := [], hung := false }

/-- In a run of measured calls, those that go to the list operate on the bytes that POSIX
defines, and no lock ends below its start. -/
theorem record_ranges_follow_posix (acts : List RangeAct)
    (hmeasured : Obeys rangeStep Measured unranged acts) :
    Visits rangeStep FollowsPosix unranged acts := by
  have hsound : Sound unranged := by
    have hzero : Span.Roomy ⟨0, .unlck, 0, 0⟩ := ⟨by decide, by decide, by decide, by decide⟩
    exact ⟨rfl, ⟨[], fresh_installed⟩, fun _ => hzero, fun e he => absurd he List.not_mem_nil⟩
  exact (visits_of_obeys (fun _ _ _ h hok hs => h.step hok hs) hsound hmeasured).mono
    fun _ h => h.follows

def writeLock (whence : Whence) (start len : Int64) : Call where
  get := false
  pid := 1
  type := .wrlck
  whence := whence
  start := start
  len := len
  oftSize := 100
  size_nonneg := by decide
  wait := false
  spareOk := true
  lockOk := true

/-- The last ten bytes of a file are locked, and then the rest of the file behind byte 5. -/
theorem record_ranges_of_two : Visits rangeStep FollowsPosix unranged
    [.call (writeLock .seekEnd (-10) 10), .call (writeLock .seekSet 5 0)] := by
  refine record_ranges_follow_posix _ fun s _ => ⟨Or.inr (Or.inr ⟨by decide, fun start hstart => ?_⟩),
    fun t _ => ⟨Or.inr (Or.inl (by decide)), trivial⟩⟩
  have hstart' : start = 90 := (Option.some.inj hstart).symm
  rw [hstart']
  decide

/-- The ten bytes in front of byte 10 are asked for, and the lock goes from there to the end of the
file. -/
theorem negative_length_to_end :
    ¬∀ acts, Visits rangeStep FollowsPosix unranged acts := by
  intro h
  have hcalls : ∃ s, run rangeStep unranged [.call (writeLock .seekSet 10 (-10))] = some s ∧
      s.calls = [(writeLock .seekSet 10 (-10), ⟨1, .wrlck, 10, -1⟩)] := ⟨_, rfl, rfl⟩
  obtain ⟨s, hrun, hcalls⟩ := hcalls
  obtain ⟨-, -, -, hmeans⟩ := (h _).last hrun
  obtain ⟨start, -, -, -, -, hend⟩ := hmeans _ (hcalls ▸ List.mem_singleton_self _)
  exact absurd (hend.mp rfl) (by decide)

end SylixOS.FdLockf
