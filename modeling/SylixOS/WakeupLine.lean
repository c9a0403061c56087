import SylixOS.DeltaList
import SylixOS.StepRuns
import Mathlib.Logic.Function.Basic

/-! The wakeup line of the kernel (_WakeupLine.c) and the pass over it that every tick
makes (k_scanlink.h, _ThreadTick), against a table of absolute deadlines. A pass holds the
kernel, so nothing is added while it goes on, but it opens interrupts after every node,
and a node may be deleted there. -/

namespace SylixOS.WakeupLine
open StepRuns Function

variable {ι : Type*} [DecidableEq ι]

structure Wakeup (ι : Type*) where
  line : List (ι × Nat)
  op : Option ι

def nextOf (x : ι) : List (ι × Nat) → Option ι
  | [] => none
  | (y, _) :: rest => if y = x then rest.head?.map Prod.fst else nextOf x rest

def counterOf (x : ι) : List (ι × Nat) → Nat
  | [] => 0
  | (y, c) :: rest => if y = x then c else counterOf x rest

def setCounter (x : ι) (n : Nat) : List (ι × Nat) → List (ι × Nat)
  | [] => []
  | (y, c) :: rest => if y = x then (y, n) :: rest else (y, c) :: setCounter x n rest

def wakeupAdd (w : Wakeup ι) (x : ι) (n : Nat) : Wakeup ι :=
  { w with line := DeltaList.insert x n w.line }

variable (ulong : Nat)

def wakeupDel (w : Wakeup ι) (x : ι) : Wakeup ι where
  line := DeltaList.remove ulong x w.line
  op := if w.op = some x then nextOf x w.line else w.op

def wakeupStatus (w : Wakeup ι) (x : ι) : Nat := DeltaList.sumTo ulong x 0 w.line

def passFirst (w : Wakeup ι) : Wakeup ι := { w with op := w.line.head?.map Prod.fst }

inductive Round (ι : Type*) where
  | expires (x : ι) (ulCounter : Nat)
  | stops

def passRound (w : Wakeup ι) (ulCounter : Nat) : Wakeup ι × Round ι :=
  match w.op with
  | none => (w, .stops)
  | some x =>
    let w := { w with op := nextOf x w.line }
    let c := counterOf x w.line
    if c > ulCounter then
      ({ w with line := setCounter x (c - ulCounter) w.line }, .stops)
    else
      (wakeupDel ulong { w with line := setCounter x 0 w.line } x, .expires x (ulCounter - c))

/-- The line, the `ulCounter` of a pass under way, and the number of passes begun (ghost). -/
structure State (ι : Type*) where
  wu : Wakeup ι
  pass : Option Nat
  passes : Nat

def start : State ι := ⟨⟨[], none⟩, none, 0⟩

inductive Action (ι : Type*) where
  | add (x : ι) (n : Nat)
  | del (x : ι)
  | status (x : ι)
  | begin
  | round

def inQ (w : Wakeup ι) (x : ι) : Prop := x ∈ w.line.map Prod.fst

instance (w : Wakeup ι) (x : ι) : Decidable (inQ w x) :=
  inferInstanceAs (Decidable (x ∈ w.line.map Prod.fst))

/-- A node is added when it is not in the line and deleted when it is, as the callers see to by
`WUN_bInQ`. -/
def step (s : State ι) : Action ι → Option (State ι)
  | .add x n =>
    if s.pass = none ∧ ¬ inQ s.wu x ∧ n < ulong then
      some { s with wu := wakeupAdd s.wu x n }
    else none
  | .del x => if inQ s.wu x then some { s with wu := wakeupDel ulong s.wu x } else none
  | .status _ => some s
  | .begin =>
    if s.pass = none then
      some { wu := passFirst s.wu, pass := some 1, passes := s.passes + 1 }
    else none
  | .round =>
    s.pass.map fun ulCounter =>
      match passRound ulong s.wu ulCounter with
      | (w, .expires _ left) => { s with wu := w, pass := some left }
      | (w, .stops) => { s with wu := w, pass := none }

inductive Event (ι : Type*) where
  | added (x : ι) (n : Nat)
  | deleted (x : ι)
  | left (x : ι) (ticks : Nat)
  | began
  | expired (x : ι)
  | ended

def event (s : State ι) : Action ι → Event ι
  | .add x n => .added x n
  | .del x => .deleted x
  | .status x => .left x (wakeupStatus ulong s.wu x)
  | .begin => .began
  | .round =>
    match (passRound ulong s.wu (s.pass.getD 0)).2 with
    | .expires x _ => .expired x
    | .stops => .ended

structure Timer where
  since : Nat
  wait : Nat
  order : Nat

def Timer.deadline (t : Timer) : Nat := t.since + t.wait

def Timer.Before (t u : Timer) : Prop :=
  t.deadline < u.deadline ∨ t.deadline = u.deadline ∧ t.order < u.order

structure Deadlines (ι : Type*) where
  due : ι → Option Timer
  clock : Nat
  passes : Nat
  walking : Bool
  next : Nat

def idle : Deadlines ι := ⟨fun _ => none, 0, 0, false, 0⟩

/-- Only the node that is named moves. A node expires in the pass that is its wait away from its
insertion, the first one when it waits for nothing, and before every node that follows it; a pass
that ends has left no deadline behind. -/
def Deadlines.Step (q : Deadlines ι) : Event ι → Deadlines ι → Prop
  | .added x n, q' =>
    q.walking = false ∧ q.due x = none ∧
      q' = { q with
        due := update q.due x (some ⟨q.passes, n, q.next⟩), next := q.next + 1 }
  | .deleted x, q' =>
    (q.due x).isSome ∧ q' = { q with due := update q.due x none }
  | .left x ticks, q' =>
    (∀ t, q.due x = some t → q.clock + ticks = t.deadline) ∧ (q.due x = none → ticks = 0) ∧ q' = q
  | .began, q' => q.walking = false ∧ q' = { q with passes := q.passes + 1, walking := true }
  | .expired x, q' =>
    q.walking = true ∧ ∃ t, q.due x = some t ∧ q.passes = t.since + max t.wait 1 ∧
      (∀ y u, q.due y = some u → y ≠ x → t.Before u) ∧
      q' = { q with due := update q.due x none, clock := max q.clock t.deadline }
  | .ended, q' =>
    q.walking = true ∧ (∀ y u, q.due y = some u → q.passes < u.deadline) ∧
      q' = { q with walking := false, clock := q.passes }

def Deadlines.past (q : Deadlines ι) : Nat := q.passes - q.walking.toNat

structure Represents (s : State ι) (q : Deadlines ι) (l : List (ι × Timer)) : Prop where
  line : s.wu.line = DeltaList.deltas Prod.fst (fun e => e.2.deadline) q.clock l
  ordered : DeltaList.Ordered (fun e : ι × Timer => e.2.deadline) q.clock l
  sorted : l.Pairwise fun e f => e.2.Before f.2
  keys : (l.map Prod.fst).Nodup
  due : ∀ x t, q.due x = some t ↔ (x, t) ∈ l
  passes : q.passes = s.passes
  walking : q.walking = s.pass.isSome
  clock : q.clock + s.pass.getD 0 = q.passes
  single : s.pass.getD 0 ≤ q.walking.toNat
  op : s.pass.isSome → s.wu.op = l.head?.map Prod.fst
  since : ∀ e ∈ l, e.2.since ≤ q.past
  fresh : ∀ e ∈ l, q.past < e.2.deadline ∨ e.2.wait = 0 ∧ e.2.since = q.past
  begun : q.walking.toNat ≤ q.passes
  fits : ∀ e ∈ l, e.2.wait < ulong
  order : ∀ e ∈ l, e.2.order < q.next

variable {ulong} {s : State ι} {q : Deadlines ι} {l : List (ι × Timer)} {x : ι} {n : Nat}

omit [DecidableEq ι] in
theorem represents_start : Represents ulong (start : State ι) idle [] := by
  constructor <;> simp [start, idle, DeltaList.Ordered]

omit [DecidableEq ι] in
theorem Represents.span (h : Represents ulong s q l) {e : ι × Timer} (he : e ∈ l) :
    e.2.deadline - q.clock < ulong := by
  have hsince := h.since e he
  have hfits := h.fits e he
  have hclock := h.clock
  have hsingle := h.single
  unfold Deadlines.past at hsince
  unfold Timer.deadline
  omega

omit [DecidableEq ι] in
theorem Represents.inQ_iff (h : Represents ulong s q l) : inQ s.wu x ↔ x ∈ l.map Prod.fst := by
  unfold inQ
  rw [h.line, DeltaList.deltas_keys]

omit [DecidableEq ι] in
theorem Represents.queued (h : Represents ulong s q l) : inQ s.wu x ↔ (q.due x).isSome := by
  rw [h.inQ_iff, Option.isSome_iff_exists]
  simp [h.due]

omit [DecidableEq ι] in
theorem Represents.free (h : Represents ulong s q l) (hx : ¬ inQ s.wu x) : q.due x = none := by
  rw [h.queued] at hx
  simpa using hx

theorem Represents.del (h : Represents ulong s q l) (x : ι) :
    Represents ulong { s with wu := wakeupDel ulong s.wu x }
      { q with due := update q.due x none } (l.filter fun e => e.1 ≠ x) := by
  have hsub : (l.filter fun e => e.1 ≠ x).Sublist l := List.filter_sublist
  constructor
  case line =>
    simp only [wakeupDel]
    rw [h.line, DeltaList.remove_deltas h.ordered h.keys fun e he => h.span he]
  case ordered =>
    rw [DeltaList.ordered_iff]
    constructor
    · intro e he
      exact h.ordered.le (hsub.subset he)
    · exact (DeltaList.ordered_iff.mp h.ordered).2.sublist hsub
  case sorted => exact h.sorted.sublist hsub
  case keys => exact h.keys.sublist (hsub.map _)
  case due =>
    intro y t
    by_cases hy : y = x
    · simp [hy]
    · simp [hy, h.due]
  case passes => exact h.passes
  case walking => exact h.walking
  case clock => exact h.clock
  case single => exact h.single
  case op =>
    intro hpass
    have hop := h.op hpass
    simp only [wakeupDel]
    rw [h.line, hop]
    cases l with
    | nil => simp
    | cons e l =>
      simp only [List.head?_cons, Option.map_some, Option.some.injEq]
      by_cases he : e.1 = x
      · have hkept : l.filter (fun e => e.1 ≠ x) = l := by
          apply List.filter_eq_self.mpr
          intro f hf
          have hnodup := (List.nodup_cons.mp h.keys).1
          have hne : f.1 ≠ e.1 := fun heq => hnodup (List.mem_map.mpr ⟨f, hf, heq⟩)
          simpa [← he] using hne
        rw [List.filter_cons_of_neg (by simp [he]), hkept]
        cases l <;> simp [he, nextOf]
      · rw [List.filter_cons_of_pos (by simpa using he)]
        simp [he]
  case since => exact fun e he => h.since e (hsub.subset he)
  case fresh => exact fun e he => h.fresh e (hsub.subset he)
  case begun => exact h.begun
  case fits => exact fun e he => h.fits e (hsub.subset he)
  case order => exact fun e he => h.order e (hsub.subset he)

omit [DecidableEq ι] in
theorem insertion_sorted {t : Timer} (h : l.Pairwise fun e f => e.2.Before f.2)
    (hlast : ∀ e ∈ l, e.2.order < t.order) :
    (l.orderedInsert (fun e f => e.2.deadline < f.2.deadline) (x, t)).Pairwise
      fun e f => e.2.Before f.2 := by
  induction l with
  | nil => simp
  | cons e l ih =>
    obtain ⟨hfirst, hrest⟩ := List.pairwise_cons.mp h
    have horder := hlast e (by simp)
    rw [List.orderedInsert]
    by_cases hlt : t.deadline < e.2.deadline
    · rw [if_pos hlt]
      apply List.pairwise_cons.mpr
      constructor
      · intro f hf
        rcases List.mem_cons.mp hf with rfl | hf
        · exact Or.inl hlt
        · have hbefore := hfirst f hf
          unfold Timer.Before at hbefore ⊢
          dsimp only
          omega
      · exact h
    · rw [if_neg hlt]
      apply List.pairwise_cons.mpr
      constructor
      · intro f hf
        rcases List.mem_cons.mp ((List.perm_orderedInsert _ _ _).mem_iff.mp hf) with rfl | hf
        · unfold Timer.Before
          dsimp only
          omega
        · exact hfirst f hf
      · exact ih hrest fun f hf => hlast f (by simp [hf])

theorem Represents.add (h : Represents ulong s q l) (hpass : s.pass = none)
    (hx : ¬ inQ s.wu x) (hn : n < ulong) :
    Represents ulong { s with wu := wakeupAdd s.wu x n }
      { q with due := update q.due x (some ⟨q.passes, n, q.next⟩), next := q.next + 1 }
      (l.orderedInsert (fun e f => e.2.deadline < f.2.deadline) (x, ⟨q.passes, n, q.next⟩)) := by
  have hwalking : q.walking = false := by
    rw [h.walking, hpass]
    rfl
  have hclock : q.clock = q.passes := by simpa [hpass] using h.clock
  have hpast : q.past = q.passes := by simp [Deadlines.past, hwalking]
  have hmem : ∀ e, e ∈ l.orderedInsert (fun e f => e.2.deadline < f.2.deadline)
      (x, (⟨q.passes, n, q.next⟩ : Timer)) ↔ e = (x, ⟨q.passes, n, q.next⟩) ∨ e ∈ l := by
    intro e
    rw [(List.perm_orderedInsert _ _ _).mem_iff, List.mem_cons]
  have hout : x ∉ l.map Prod.fst := by rwa [← h.inQ_iff]
  constructor
  case line =>
    have hlater : q.clock ≤ (⟨q.passes, n, q.next⟩ : Timer).deadline := by
      simp [Timer.deadline, hclock]
    have hinsert := @DeltaList.insert_deltas ι _ Prod.fst _ _ (x, ⟨q.passes, n, q.next⟩) l
      h.ordered hlater
    simpa [wakeupAdd, h.line, Timer.deadline, hclock] using hinsert
  case ordered =>
    rw [DeltaList.ordered_iff]
    constructor
    · intro e he
      rcases (hmem e).mp he with rfl | he
      · simp [Timer.deadline, hclock]
      · exact h.ordered.le he
    · apply (insertion_sorted h.sorted h.order).imp
      intro e f hbefore
      unfold Timer.Before at hbefore
      omega
  case sorted => exact insertion_sorted h.sorted h.order
  case keys =>
    rw [((List.perm_orderedInsert _ _ _).map _).nodup_iff]
    exact List.nodup_cons.mpr ⟨hout, h.keys⟩
  case due =>
    intro y t
    rw [hmem]
    by_cases hy : y = x
    · have habsent : (x, t) ∉ l := fun hin => hout (List.mem_map.mpr ⟨_, hin, rfl⟩)
      simp [hy, habsent, eq_comm]
    · simp [hy, h.due]
  case passes => exact h.passes
  case walking => exact h.walking
  case clock => exact h.clock
  case single => exact h.single
  case op => simp [hpass]
  case since =>
    intro e he
    change e.2.since ≤ q.past
    rcases (hmem e).mp he with rfl | he
    · simp [hpast]
    · exact h.since e he
  case fresh =>
    intro e he
    change q.past < e.2.deadline ∨ e.2.wait = 0 ∧ e.2.since = q.past
    rcases (hmem e).mp he with rfl | he
    · dsimp only [Timer.deadline]
      omega
    · exact h.fresh e he
  case begun => exact h.begun
  case fits =>
    intro e he
    rcases (hmem e).mp he with rfl | he
    · exact hn
    · exact h.fits e he
  case order =>
    intro e he
    rcases (hmem e).mp he with rfl | he
    · simp
    · exact Nat.lt_succ_of_lt (h.order e he)

theorem Represents.status (h : Represents ulong s q l) (x : ι) :
    (∀ t, q.due x = some t → q.clock + wakeupStatus ulong s.wu x = t.deadline) ∧
      (q.due x = none → wakeupStatus ulong s.wu x = 0) := by
  unfold wakeupStatus
  constructor
  · intro t ht
    have hmem := (h.due x t).mp ht
    have hspan : ∀ e ∈ l, 0 + (e.2.deadline - q.clock) < ulong := fun e he => by
      simpa using h.span he
    have hsum := DeltaList.sumTo_deltas h.ordered h.keys hspan hmem
    have hle := h.ordered.le hmem
    rw [h.line, hsum]
    simp only at hle ⊢
    omega
  · intro hnone
    apply DeltaList.sumTo_absent
    have hfree : ¬ inQ s.wu x := by simp [h.queued, hnone]
    exact hfree

omit [DecidableEq ι] in
theorem Represents.begin (h : Represents ulong s q l) (hpass : s.pass = none) :
    Represents ulong { wu := passFirst s.wu, pass := some 1, passes := s.passes + 1 }
      { q with passes := q.passes + 1, walking := true } l := by
  have hwalking : q.walking = false := by
    rw [h.walking, hpass]
    rfl
  have hclock : q.clock = q.passes := by simpa [hpass] using h.clock
  have hpast : q.past = q.passes := by simp [Deadlines.past, hwalking]
  constructor
  case line => exact h.line
  case ordered => exact h.ordered
  case sorted => exact h.sorted
  case keys => exact h.keys
  case due => exact h.due
  case passes => simp [h.passes]
  case walking => rfl
  case clock => simp [hclock]
  case single => simp
  case op => simp [passFirst, h.line, DeltaList.deltas_head]
  case since =>
    intro e he
    have := h.since e he
    simp only [Deadlines.past, Bool.toNat_true]
    omega
  case fresh =>
    intro e he
    have := h.fresh e he
    simp only [Deadlines.past, Bool.toNat_true]
    omega
  case begun => simp
  case fits => exact h.fits
  case order => exact h.order

omit [DecidableEq ι] in
theorem Represents.finish (h : Represents ulong s q l) {w : Wakeup ι}
    (hline : w.line = DeltaList.deltas Prod.fst (fun e : ι × Timer => e.2.deadline) q.passes l)
    (hlater : ∀ e ∈ l, q.passes < e.2.deadline) :
    Represents ulong { s with wu := w, pass := none }
      { q with walking := false, clock := q.passes } l := by
  have hpast : q.past ≤ q.passes := Nat.sub_le _ _
  constructor
  case line => exact hline
  case ordered =>
    rw [DeltaList.ordered_iff]
    constructor
    · exact fun e he => Nat.le_of_lt (hlater e he)
    · exact (DeltaList.ordered_iff.mp h.ordered).2
  case sorted => exact h.sorted
  case keys => exact h.keys
  case due => exact h.due
  case passes => exact h.passes
  case walking => rfl
  case clock => simp
  case single => simp
  case op => simp
  case since =>
    intro e he
    have := h.since e he
    simp only [Deadlines.past, Bool.toNat_false]
    omega
  case fresh =>
    intro e he
    have := hlater e he
    simp only [Deadlines.past, Bool.toNat_false]
    omega
  case begun => simp
  case fits => exact h.fits
  case order => exact h.order

theorem passRound_first {w : Wakeup ι} {c k : Nat} {rest : List (ι × Nat)}
    (hline : w.line = (x, c) :: rest) (hop : w.op = some x) :
    passRound ulong w k =
      if c > k then
        (⟨(x, c - k) :: rest, rest.head?.map Prod.fst⟩, .stops)
      else
        (wakeupDel ulong ⟨(x, 0) :: rest, rest.head?.map Prod.fst⟩ x, .expires x (k - c)) := by
  unfold passRound
  simp [hop, hline, counterOf, nextOf, setCounter]

theorem Represents.expire {t : Timer} (h : Represents ulong s q ((x, t) :: l)) {k : Nat}
    (hpass : s.pass = some k) (hdue : t.deadline - q.clock ≤ k) :
    Represents ulong
      { s with
        wu := ⟨DeltaList.deltas Prod.fst (fun e => e.2.deadline) t.deadline l,
          l.head?.map Prod.fst⟩
        pass := some (k - (t.deadline - q.clock)) }
      { q with due := update q.due x none, clock := max q.clock t.deadline } l := by
  have hle : q.clock ≤ t.deadline := h.ordered.1
  have hclock : q.clock + k = q.passes := by simpa [hpass] using h.clock
  have hsingle : k ≤ q.walking.toNat := by simpa [hpass] using h.single
  obtain ⟨hout, hkeys⟩ := List.nodup_cons.mp h.keys
  rw [Nat.max_eq_right hle]
  constructor
  case line => rfl
  case ordered => exact h.ordered.2
  case sorted => exact (List.pairwise_cons.mp h.sorted).2
  case keys => exact hkeys
  case due =>
    intro y u
    by_cases hy : y = x
    · have habsent : (x, u) ∉ l := fun hin => hout (List.mem_map.mpr ⟨_, hin, rfl⟩)
      simp [hy, habsent]
    · simp [hy, h.due]
  case passes => exact h.passes
  case walking => simpa [hpass] using h.walking
  case clock =>
    dsimp only [Option.getD_some]
    omega
  case single =>
    dsimp only [Option.getD_some]
    omega
  case op => exact fun _ => rfl
  case since => exact fun e he => h.since e (by simp [he])
  case fresh => exact fun e he => h.fresh e (by simp [he])
  case begun => exact h.begun
  case fits => exact fun e he => h.fits e (by simp [he])
  case order => exact fun e he => h.order e (by simp [he])

theorem Represents.taken {t : Timer} (h : Represents ulong s q ((x, t) :: l)) :
    wakeupDel ulong ⟨(x, 0) :: DeltaList.deltas Prod.fst (fun e => e.2.deadline) t.deadline l,
        (DeltaList.deltas Prod.fst (fun e => e.2.deadline) t.deadline l).head?.map Prod.fst⟩ x =
      ⟨DeltaList.deltas Prod.fst (fun e => e.2.deadline) t.deadline l,
        l.head?.map Prod.fst⟩ := by
  have hle : q.clock ≤ t.deadline := h.ordered.1
  have hout := (List.nodup_cons.mp h.keys).1
  have hspan : ∀ e ∈ l, e.2.deadline - t.deadline < ulong := by
    intro e he
    have := h.span (e := e) (by simp [he])
    omega
  have hrest := @DeltaList.deltas_base ι _ _ Prod.fst _ _ _ _ h.ordered.2 (le_refl _) hspan
  have hop : l.head?.map Prod.fst ≠ some x := by
    cases l with
    | nil => simp
    | cons e l =>
      simp only [List.map_cons, List.mem_cons, not_or] at hout
      simpa using Ne.symm hout.1
  rw [Nat.sub_self] at hrest
  simp only [wakeupDel, DeltaList.remove, if_true, DeltaList.deltas_head, if_neg hop, ← hrest]

theorem Represents.round (h : Represents ulong s q l) {k : Nat} (hpass : s.pass = some k) :
    ∃ s' q' l', step ulong s .round = some s' ∧ q.Step (event ulong s .round) q' ∧
      Represents ulong s' q' l' ∧ (s'.pass.isSome → l'.length < l.length) := by
  have hwalking : q.walking = true := by
    rw [h.walking, hpass]
    rfl
  have hclock : q.clock + k = q.passes := by simpa [hpass] using h.clock
  have hsingle : k ≤ 1 := by simpa [hpass, hwalking] using h.single
  have hbegun : 1 ≤ q.passes := by simpa [hwalking] using h.begun
  have hpast : q.past = q.passes - 1 := by simp [Deadlines.past, hwalking]
  have hop := h.op (by simp [hpass])
  cases l with
  | nil =>
    -- nobody waits: the pass is at its end
    have hround : passRound ulong s.wu k = (s.wu, .stops) := by simp [passRound, hop]
    have hnobody : ∀ y u, q.due y ≠ some u := by
      intro y u hdue
      simpa using (h.due y u).mp hdue
    refine ⟨_, _, [], by simp [step, hpass, hround], ?_, h.finish (w := s.wu) ?_ ?_, by simp⟩
    · simp only [event, hpass, Option.getD_some, hround]
      exact ⟨hwalking, fun y u hdue => absurd hdue (hnobody y u), rfl⟩
    · simpa using h.line
    · simp
  | cons e l =>
    obtain ⟨x, t⟩ := e
    have hle : q.clock ≤ t.deadline := h.ordered.1
    have hline : s.wu.line = (x, t.deadline - q.clock) ::
        DeltaList.deltas Prod.fst (fun e : ι × Timer => e.2.deadline) t.deadline l := h.line
    have hfirst := @passRound_first ι _ ulong x s.wu _ k _ hline (by simpa using hop)
    have hmine := (h.due x t).mpr (by simp)
    have hbefore := (List.pairwise_cons.mp h.sorted).1
    by_cases hgt : t.deadline - q.clock > k
    · -- the first node still has to wait, and the others wait longer
      rw [if_pos hgt] at hfirst
      have hlater : ∀ e ∈ (x, t) :: l, q.passes < e.2.deadline := by
        intro e he
        rcases List.mem_cons.mp he with rfl | he
        · dsimp only
          omega
        · have := hbefore e he
          unfold Timer.Before at this
          dsimp only at this
          omega
      have hrest : t.deadline - q.clock - k = t.deadline - q.passes := by omega
      have hstep : step ulong s .round = some { s with
          wu := ⟨(x, t.deadline - q.clock - k) :: DeltaList.deltas Prod.fst
            (fun e => e.2.deadline) t.deadline l, l.head?.map Prod.fst⟩
          pass := none } := by
        simp only [step, hpass, Option.map_some, hfirst, DeltaList.deltas_head]
      refine ⟨_, _, (x, t) :: l, hstep, ?_, h.finish ?_ hlater, by simp⟩
      · simp only [event, hpass, Option.getD_some, hfirst]
        refine ⟨hwalking, fun y u hdue => ?_, rfl⟩
        exact hlater (y, u) ((h.due y u).mp hdue)
      · simp [hrest]
    · -- the first node has come to its time
      rw [if_neg hgt, h.taken] at hfirst
      have hfresh := h.fresh (x, t) (by simp)
      have hsince := h.since (x, t) (by simp)
      have hturn : q.passes = t.since + max t.wait 1 := by
        dsimp only [Timer.deadline] at hfresh hsince hgt hle
        omega
      have hstep : step ulong s .round = some { s with
          wu := ⟨DeltaList.deltas Prod.fst (fun e => e.2.deadline) t.deadline l,
            l.head?.map Prod.fst⟩
          pass := some (k - (t.deadline - q.clock)) } := by
        simp only [step, hpass, Option.map_some, hfirst]
      refine ⟨_, _, l, hstep, ?_, h.expire hpass (by omega), by simp⟩
      simp only [event, hpass, Option.getD_some, hfirst]
      refine ⟨hwalking, t, hmine, hturn, fun y u hdue hy => ?_, rfl⟩
      have hmem := (h.due y u).mp hdue
      simp only [List.mem_cons, Prod.mk.injEq, hy, false_and, false_or] at hmem
      exact hbefore (y, u) hmem

theorem Represents.simulates (h : Represents ulong s q l) {a : Action ι} {s' : State ι}
    (hstep : step ulong s a = some s') :
    ∃ q', q.Step (event ulong s a) q' ∧ ∃ l', Represents ulong s' q' l' := by
  cases a with
  | add x n =>
    simp only [WakeupLine.step] at hstep
    split at hstep
    case isFalse => cases hstep
    case isTrue hadd =>
      obtain ⟨hpass, hx, hn⟩ := hadd
      obtain rfl := Option.some.inj hstep
      have hwalking : q.walking = false := by
        rw [h.walking, hpass]
        rfl
      exact ⟨_, ⟨hwalking, h.free hx, rfl⟩, _, h.add hpass hx hn⟩
  | del x =>
    simp only [WakeupLine.step] at hstep
    split at hstep
    case isFalse => cases hstep
    case isTrue hx =>
      obtain rfl := Option.some.inj hstep
      exact ⟨_, ⟨h.queued.mp hx, rfl⟩, _, h.del x⟩
  | status x =>
    obtain rfl := Option.some.inj hstep
    obtain ⟨hleft, habsent⟩ := h.status x
    exact ⟨q, ⟨hleft, habsent, rfl⟩, l, h⟩
  | begin =>
    simp only [WakeupLine.step] at hstep
    split at hstep
    case isFalse => cases hstep
    case isTrue hpass =>
      obtain rfl := Option.some.inj hstep
      have hwalking : q.walking = false := by
        rw [h.walking, hpass]
        rfl
      exact ⟨_, ⟨hwalking, rfl⟩, l, h.begin hpass⟩
  | round =>
    cases hpass : s.pass with
    | none => simp [WakeupLine.step, hpass] at hstep
    | some k =>
      obtain ⟨t, q', l', ht, hevent, hrep, -⟩ := h.round hpass
      obtain rfl : t = s' := Option.some.inj (ht.symm.trans hstep)
      exact ⟨q', hevent, l', hrep⟩

theorem Represents.ends (h : Represents ulong s q l) (hpass : s.pass.isSome) :
    ∃ rounds s', run (step ulong) s (List.replicate rounds .round) = some s' ∧ s'.pass = none := by
  induction hlen : l.length using Nat.strong_induction_on generalizing s q l with
  | _ n ih =>
    obtain ⟨k, hk⟩ := Option.isSome_iff_exists.mp hpass
    obtain ⟨s', q', l', hstep, -, hrep, hshorter⟩ := h.round hk
    cases hleft : s'.pass with
    | none => exact ⟨1, s', by simp [run, hstep], hleft⟩
    | some left =>
      have hsome : s'.pass.isSome := by simp [hleft]
      obtain ⟨rounds, t, hrun, ht⟩ := ih l'.length (hlen ▸ hshorter hsome) hrep hsome rfl
      exact ⟨rounds + 1, t, by simp [List.replicate_succ, run_cons, hstep, hrun], ht⟩

/-- The wakeup line refines the table of absolute deadlines: every run of additions, deletions,
status questions and passes is a run of the table with the same events, and a pass under way can
be walked to its end. -/
theorem wakeup_deadlines (actions : List (Action ι)) {s : State ι}
    (hrun : run (step ulong) start actions = some s) :
    (∃ q, Admits Deadlines.Step idle (trace (step ulong) (event ulong) start actions) q ∧
        ∀ x, inQ s.wu x ↔ (q.due x).isSome) ∧
      (s.pass.isSome → ∃ rounds s', run (step ulong) s (List.replicate rounds .round) = some s' ∧
        s'.pass = none) := by
  obtain ⟨q, hadmits, l, hrep⟩ := simulation
    (R := fun s q => ∃ l, Represents ulong s q l)
    (fun s a s' q hrep hstep => by
      obtain ⟨l, hrep⟩ := hrep
      exact hrep.simulates hstep)
    ⟨[], represents_start⟩ hrun
  constructor
  · exact ⟨q, hadmits, fun x => hrep.queued⟩
  · exact hrep.ends

def sleepers : List (Action Bool) :=
  [.add true 2, .add false 1, .begin, .round, .round, .status true]

theorem wakeup_deadlines_sleepers :
    (∃ q, Admits Deadlines.Step idle
        (trace (step (2 ^ 64)) (event (2 ^ 64)) start sleepers) q ∧
        ∀ x, inQ ⟨[(true, 1)], none⟩ x ↔ (q.due x).isSome) ∧
      ((none : Option Nat).isSome → ∃ rounds s',
        run (step (2 ^ 64)) (⟨⟨[(true, 1)], none⟩, none, 1⟩ : State Bool)
          (List.replicate rounds .round) = some s' ∧ s'.pass = none) :=
  wakeup_deadlines sleepers (s := ⟨⟨[(true, 1)], none⟩, none, 1⟩) rfl

end SylixOS.WakeupLine
