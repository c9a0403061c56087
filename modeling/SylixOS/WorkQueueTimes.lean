import SylixOS.WorkQueueJobs

/-! When the jobs of a delayed work queue run. A job is put into the line with its delay
counted from the time of the last pass, less what a pass that is under way has
still to hand out, and not from the time of the insertion. -/

namespace SylixOS.WorkQueue
open StepRuns LinkedChain ListLink DeltaList Function

variable {W : Type}

/-- A queue and the clock. Beside it stand the earliest time of each job, by its number, when each
job was started, and how many jobs had been accepted when the last pass began. -/
structure Timed (W : Type) where
  queue : State W
  u64Time : ℕ
  clock : ℕ
  owed : ℕ → ℕ
  runs : List (ℕ × ℕ)
  since : ℕ

inductive TimedAct (W : Type) where
  | insert (now ulDelay : ℕ) (work : W)
  | flush (now : ℕ)
  | exec (now : ℕ)
  | resume (now : ℕ)

def TimedAct.now : TimedAct W → ℕ
  | .insert now _ _ | .flush now | .exec now | .resume now => now

def Timed.started (s : Timed W) (q : State W) (now : ℕ) : List (ℕ × ℕ) :=
  s.runs ++ (q.ran.drop s.queue.ran.length).map fun j => (j.id, now)

def timedStep (bits : ℕ) (uiQSize : UInt32) (s : Timed W) (a : TimedAct W) : Option (Timed W) :=
  if a.now < s.clock then none
  else
    match a with
    | .insert now ulDelay work =>
      (step uiQSize s.queue (.insert ulDelay work)).map fun q =>
        { s with
          queue := q
          clock := now
          owed := update s.owed s.queue.accepted.length (now + ulDelay) }
    | .flush now => (step uiQSize s.queue .flush).map fun q => { s with queue := q, clock := now }
    | .exec now =>
      (step uiQSize s.queue (.exec ((now - s.u64Time) % 2 ^ bits))).map fun q =>
        { s with
          queue := q
          u64Time := now
          clock := now
          runs := s.started q now
          since := s.queue.accepted.length }
    | .resume now =>
      (step uiQSize s.queue .resume).map fun q =>
        { s with queue := q, clock := now, runs := s.started q now }

def timedCreate (now : ℕ) (uiQSize : UInt32) (lines : Links ℕ) (counter : ℕ → ℕ)
    (mono : ℕ → Option ℕ) (job : ℕ → Job W) : Timed W where
  queue := wqDCreate uiQSize lines counter mono job
  u64Time := now
  clock := now
  owed := fun _ => 0
  runs := []
  since := 0

/-- No job was started before its time, and behind a pass every job that was there when the pass
began, and whose time had come, has run, or has been flushed. -/
def Honoured (s : Timed W) : Prop :=
  (∀ r ∈ s.runs, s.owed r.1 ≤ r.2) ∧
    (s.queue.phase = .idle → ∀ j ∈ s.queue.accepted, j.id < s.since → s.owed j.id ≤ s.u64Time →
      j ∈ s.queue.ran ++ s.queue.discarded)

/-- A job is inserted at the time of the last pass, or without a delay, and during a pass only
when that has no time to hand out or no node to look at; passes are less than an `ULONG` apart;
and the queue is not flushed while a pass has a node to look at. -/
def Timely (bits : ℕ) (s : Timed W) : TimedAct W → Prop
  | .insert now ulDelay _ => s.queue.pool = none ∨ (now = s.u64Time ∨ ulDelay = 0) ∧
      ∀ u, s.queue.phase = .running u → u = 0 ∨ s.queue.op = none
  | .flush _ => ∀ u, s.queue.phase = .running u → s.queue.op = none
  | .exec now => now - s.u64Time < 2 ^ bits
  | .resume _ => True

instance {P : ℕ → Prop} [DecidablePred P] :
    ∀ phase : Phase, Decidable (∀ u, phase = .running u → P u)
  | .idle => isTrue fun _ h => by cases h
  | .running u => decidable_of_iff (P u) ⟨fun h v hv => by cases hv; exact h, fun h => h u rfl⟩

instance (bits : ℕ) (s : Timed W) : ∀ a : TimedAct W, Decidable (Timely bits s a)
  | .insert now ulDelay _ => inferInstanceAs (Decidable (s.queue.pool = none ∨
      (now = s.u64Time ∨ ulDelay = 0) ∧
        ∀ u, s.queue.phase = .running u → u = 0 ∨ s.queue.op = none))
  | .flush _ =>
    inferInstanceAs (Decidable (∀ u, s.queue.phase = .running u → s.queue.op = none))
  | .exec now => inferInstanceAs (Decidable (now - s.u64Time < 2 ^ bits))
  | .resume _ => inferInstanceAs (Decidable True)

structure Due (owed : ℕ → ℕ) (clock base : ℕ) (q : State W) (line : List ℕ) : Prop where
  late : ∀ n ∈ line, base + distance n (entries q.counter line) ≤ owed (q.job n).id
  early : ∀ n ∈ line, owed (q.job n).id ≤ base + distance n (entries q.counter line) ∨
    owed (q.job n).id ≤ clock

structure InPass (owed : ℕ → ℕ) (since time clock u : ℕ) (q : State W) (line : List ℕ) :
    Prop where
  due : Due owed clock (if q.op = none then time else time - u) q line
  le : u ≤ time
  split : ∃ front tail, line = front ++ tail ∧ q.op = tail.head? ∧
    (∀ n ∈ front, since ≤ (q.job n).id) ∧
    (front = [] ∨ tail = [] ∨ u = 0 ∧ ∀ m ∈ tail.head?, 0 < q.counter m)

structure Between (owed : ℕ → ℕ) (since time clock : ℕ) (q : State W) (line : List ℕ) :
    Prop where
  due : Due owed clock time q line
  left : ∀ n ∈ line, (q.job n).id < since → time < owed (q.job n).id

variable {owed : ℕ → ℕ} {since time clock base u : ℕ} {q : State W} {line : List ℕ}

theorem Due.nil : Due owed clock base q [] :=
  ⟨fun _ hn => absurd hn List.not_mem_nil, fun _ hn => absurd hn List.not_mem_nil⟩

theorem InPass.nil (hle : u ≤ time) (hop : q.op = none) :
    InPass owed since time clock u q [] :=
  ⟨.nil, hle, [], [], rfl, hop, fun _ hn => absurd hn List.not_mem_nil, Or.inl rfl⟩

theorem Between.nil : Between owed since time clock q [] :=
  ⟨.nil, fun _ hn => absurd hn List.not_mem_nil⟩

theorem distance_entries_cons {counter : ℕ → ℕ} {m n : ℕ} {rest : List ℕ} (h : m ≠ n) :
    distance n (entries counter (m :: rest)) = counter m + distance n (entries counter rest) :=
  distance_cons_of_ne h _ _

theorem head_le_distance {counter : ℕ → ℕ} {m n : ℕ} {rest : List ℕ} :
    n ∈ m :: rest → counter m ≤ distance n (entries counter (m :: rest)) := by
  intro _
  by_cases h : m = n
  · rw [entries_cons, h, distance_cons_self]
  · rw [distance_entries_cons h]
    exact Nat.le_add_right _ _

theorem keys_entries (counter : ℕ → ℕ) (line : List ℕ) :
    (entries counter line).map Prod.fst = line := by
  rw [entries, List.map_map]
  exact List.map_id line

inductive Turned (owed : ℕ → ℕ) (since time clock : ℕ) (q : State W) (line : List ℕ)
    (q' : State W) : Prop where
  | ended (phase : q'.phase = .idle) (ran : q'.ran = q.ran) (links : IsLine q'.lines line)
      (header : q'.header = line.head?) (between : Between owed since time clock q' line)
  | started (u : ℕ) (n : ℕ) (rest : List ℕ) (phase : q'.phase = .running u)
      (split : line = n :: rest) (links : IsLine q'.lines rest) (header : q'.header = rest.head?)
      (ran : q'.ran = q.ran ++ [q.job n])
      (due : owed (q.job n).id ≤ time ∨ owed (q.job n).id ≤ clock)
      (pass : InPass owed since time clock u q' rest)

theorem InPass.later {m : ℕ} {rest : List ℕ} (h : InPass owed since time clock u q (m :: rest))
    (hnodup : (m :: rest).Nodup) (hop : q.op = some m) (hu : u < q.counter m) (op : Option ℕ) :
    Between owed since time clock
      { q with op := op, counter := update q.counter m (q.counter m - u), phase := .idle }
      (m :: rest) := by
  obtain ⟨hlate, hearly⟩ := h.due
  have hle := h.le
  rw [if_neg (by simp [hop])] at hlate hearly
  have hrest : entries (update q.counter m (q.counter m - u)) rest = entries q.counter rest :=
    entries_congr fun x hx => update_of_ne (fun e : x = m => (List.nodup_cons.mp hnodup).1 (e ▸ hx)) _ _
  -- everything in the line comes nearer by what was left
  have hdistance : ∀ n ∈ m :: rest,
      time + distance n (entries (update q.counter m (q.counter m - u)) (m :: rest)) =
        time - u + distance n (entries q.counter (m :: rest)) := by
    intro n _
    by_cases hmn : m = n
    · rw [entries_cons, entries_cons, hmn, distance_cons_self, distance_cons_self, ← hmn,
        update_self]
      omega
    · rw [distance_entries_cons hmn, distance_entries_cons hmn, hrest, update_self]
      omega
  refine ⟨⟨fun n hn => ?_, fun n hn => ?_⟩, fun n hn _ => ?_⟩
  · exact (hdistance n hn).trans_le (hlate n hn)
  · exact (hearly n hn).imp_left fun hle => hle.trans (hdistance n hn).ge
  · have hfirst := @head_le_distance q.counter _ _ _ hn
    have hbound := hlate n hn
    change time < owed (q.job n).id
    omega

theorem InPass.pop {m : ℕ} {rest : List ℕ} (h : InPass owed since time clock u q (m :: rest))
    (hnodup : (m :: rest).Nodup) (hop : q.op = some m) (hu : q.counter m ≤ u) {q' : State W}
    (hjob : q'.job = q.job) (hop' : q'.op = rest.head?)
    (hcounter : entries q'.counter rest = entries q.counter rest) :
    (owed (q.job m).id ≤ time ∨ owed (q.job m).id ≤ clock) ∧
      InPass owed since time clock (u - q.counter m) q' rest := by
  obtain ⟨hlate, hearly⟩ := h.due
  have hle := h.le
  rw [if_neg (by simp [hop])] at hlate hearly
  refine ⟨?_, ⟨?_, by omega, [], rest, rfl, hop', (fun _ hn => absurd hn List.not_mem_nil), Or.inl rfl⟩⟩
  · refine (hearly m List.mem_cons_self).imp_left fun hearly => ?_
    rw [entries_cons, distance_cons_self] at hearly
    omega
  · have hdistance : ∀ n ∈ rest,
        (if q'.op = none then time else time - (u - q.counter m)) +
            distance n (entries q'.counter rest) =
          time - u + distance n (entries q.counter (m :: rest)) := by
      intro n hn
      have hmn : m ≠ n := fun e => (List.nodup_cons.mp hnodup).1 (e ▸ hn)
      have hsome : rest.head? ≠ none := by
        intro hnone
        rw [List.head?_eq_none_iff.mp hnone] at hn
        cases hn
      rw [hop', if_neg hsome, distance_entries_cons hmn, hcounter]
      omega
    refine ⟨fun n hn => ?_, fun n hn => ?_⟩
    · rw [hdistance n hn, hjob]
      exact hlate n (List.mem_cons_of_mem m hn)
    · rw [hdistance n hn, hjob]
      exact hearly n (List.mem_cons_of_mem m hn)

theorem InPass.waits {front tail : List ℕ} {m : ℕ}
    (h : InPass owed since time clock 0 q (front ++ m :: tail))
    (hfront : ∀ n ∈ front, since ≤ (q.job n).id) (hop : q.op = some m) (hm : 0 < q.counter m) (op : Option ℕ) :
    Between owed since time clock
      { q with op := op, counter := update q.counter m (q.counter m - 0), phase := .idle }
      (front ++ m :: tail) := by
  obtain ⟨hlate, hearly⟩ := h.due
  rw [if_neg (by simp [hop]), Nat.sub_zero] at hlate hearly
  rw [Nat.sub_zero, update_eq_self]
  refine ⟨⟨hlate, hearly⟩, fun n hn hold => ?_⟩
  have hnot : n ∉ front := fun hmem => Nat.not_lt.mpr (hfront n hmem) hold
  have htail : n ∈ m :: tail := (List.mem_append.mp hn).resolve_left hnot
  have hdistance : q.counter m ≤ distance n (entries q.counter (front ++ m :: tail)) := by
    rw [entries_append, distance_append_right (by rwa [keys_entries])]
    exact (head_le_distance htail).trans (Nat.le_add_left _ _)
  have hbound := hlate n hn
  change time < owed (q.job n).id
  omega

theorem InPass.turn (h : InPass owed since time clock u q line) (hline : IsLine q.lines line)
    (hheader : q.header = line.head?) :
    Turned owed since time clock q line (passTurn q u) := by
  obtain ⟨front, tail, hsplit, hop, hfront, hcases⟩ := h.split
  cases tail with
  | nil =>
    have hnone : q.op = none := hop
    have hdue := h.due
    rw [if_pos hnone] at hdue
    rw [passTurn, hnone]
    refine .ended rfl rfl hline hheader ⟨⟨hdue.late, hdue.early⟩, fun n hn hold => ?_⟩
    rw [hsplit, List.append_nil] at hn
    exact absurd hold (Nat.not_lt.mpr (hfront n hn))
  | cons m tail =>
    have hsome : q.op = some m := hop
    subst hsplit
    by_cases hlater : u < q.counter m
    · have hturn : passTurn q u = { q with
          op := q.lines.next m, counter := update q.counter m (q.counter m - u), phase := .idle } := by
        simp only [passTurn, hsome, if_pos hlater]
      rw [hturn]
      refine .ended rfl rfl hline hheader ?_
      rcases List.eq_nil_or_concat front with rfl | ⟨p, l, rfl⟩
      · exact h.later hline.nodup hsome hlater _
      · rcases hcases with hnil | hnil | ⟨rfl, hpos⟩
        · simp at hnil
        · cases hnil
        · exact h.waits hfront hsome (hpos m rfl) _
    · -- a node that is due is the first of the line
      have hnil : front = [] := by
        rcases hcases with hnil | hnil | ⟨rfl, hpos⟩
        · exact hnil
        · cases hnil
        · exact absurd (hpos m rfl) hlater
      subst hnil
      rw [List.nil_append] at *
      have hnodup := hline.nodup
      obtain ⟨hprev, hnext⟩ := line_split_nil hline
      have hout : ∀ x ∈ tail, x ≠ m := fun x hx e => (List.nodup_cons.mp hnodup).1 (e ▸ hx)
      have hturn : passTurn q u = { wakeupDel
            { q with op := q.lines.next m, counter := update q.counter m 0 } m with
          mono := (listMonoFree q.mono q.pool m).1
          pool := (listMonoFree q.mono q.pool m).2
          count := q.count - 1
          phase := .running (u - q.counter m)
          ran := q.ran ++ [q.job m] } := by
        simp only [passTurn, hsome, if_neg hlater, wakeupDel]
      have hcounter : entries (passTurn q u).counter tail = entries q.counter tail := by
        rw [hturn]
        apply entries_congr
        intro x hx
        simp only [wakeupDel, hnext]
        cases tail with
        | nil => cases hx
        | cons k tail =>
          simp only [List.head?_cons, update_self, Nat.add_zero, update_eq_self]
          exact update_of_ne (hout x hx) _ _
      have hop' : (passTurn q u).op = tail.head? := by
        rw [hturn]
        simp only [wakeupDel, hnext, ite_self]
      have hheader' : (passTurn q u).header = tail.head? := by
        rw [hturn]
        simp only [wakeupDel, listLineDel, hprev, hheader, List.head?_cons, if_true, hnext]
      have hjob : (passTurn q u).job = q.job := by
        rw [hturn]
        rfl
      obtain ⟨hdue, hpass⟩ := h.pop hnodup hsome (Nat.le_of_not_lt hlater) hjob hop' hcounter
      refine .started (u - q.counter m) m tail ?_ rfl ?_ hheader' ?_ hdue hpass
      · rw [hturn]
      · rw [hturn]
        exact (listLineDel_spec (s := []) hline q.header).1
      · rw [hturn]

theorem Due.insert {q' : State W} {front back : List ℕ} {n now ulDelay id : ℕ} {job : Job W}
    (h : Due owed clock base q (front ++ back)) (hid : job.id = id)
    (hold : ∀ m ∈ front ++ back, (q.job m).id < id) (fresh : n ∉ front ++ back)
    (hjob : q'.job = update q.job n job)
    (hcounter : entries q'.counter (front ++ n :: back) =
      DeltaList.insert n ulDelay (entries q.counter (front ++ back)))
    (hnow : now = base ∨ ulDelay = 0) (hbase : base ≤ now) (hclock : clock ≤ now) :
    Due (update owed id (now + ulDelay)) now base q' (front ++ n :: back) := by
  have hkeys := keys_entries q.counter (front ++ back)
  have hself : distance n (entries q'.counter (front ++ n :: back)) = ulDelay := by
    rw [hcounter, distance_insert_self (by rwa [hkeys])]
  have hjobn : (q'.job n).id = id := by rw [hjob, update_self, hid]
  have hother : ∀ m ∈ front ++ n :: back, m ≠ n → m ∈ front ++ back ∧
      distance m (entries q'.counter (front ++ n :: back)) =
        distance m (entries q.counter (front ++ back)) ∧
      update owed id (now + ulDelay) (q'.job m).id = owed (q.job m).id := by
    intro m hm hmn
    have hmem : m ∈ front ++ back := by
      rcases List.mem_append.mp hm with hfront | hback
      · exact List.mem_append_left _ hfront
      · exact List.mem_append_right _ ((List.mem_cons.mp hback).resolve_left hmn)
    refine ⟨hmem, ?_, ?_⟩
    · rw [hcounter, distance_insert_of_ne (by rwa [hkeys]) hmn]
    · rw [hjob, update_of_ne hmn, update_of_ne (Nat.ne_of_lt (hold m hmem))]
  constructor
  · intro m hm
    by_cases hmn : m = n
    · rw [hmn, hself, hjobn, update_self]
      omega
    · obtain ⟨hmem, hdistance, howed⟩ := hother m hm hmn
      rw [hdistance, howed]
      exact h.late m hmem
  · intro m hm
    by_cases hmn : m = n
    · rw [hmn, hself, hjobn, update_self]
      omega
    · obtain ⟨hmem, hdistance, howed⟩ := hother m hm hmn
      rw [hdistance, howed]
      exact (h.early m hmem).imp_right fun hle => hle.trans hclock

theorem InPass.insert {q' : State W} {front back : List ℕ} {n now ulDelay id : ℕ} {job : Job W}
    (h : InPass owed since time clock u q (front ++ back)) (hu : u = 0 ∨ q.op = none)
    (hid : job.id = id) (hsince : since ≤ id)
    (hold : ∀ m ∈ front ++ back, (q.job m).id < id) (fresh : n ∉ front ++ back)
    (hjob : q'.job = update q.job n job) (hop : q'.op = q.op)
    (hcounter : entries q'.counter (front ++ n :: back) =
      DeltaList.insert n ulDelay (entries q.counter (front ++ back)))
    (hkept : ∀ m ∈ front ++ back, q'.counter m = q.counter m ∨ 0 < q'.counter m)
    (hhead : ∀ m ∈ back.head?, 0 < q'.counter m)
    (hnow : now = time ∨ ulDelay = 0) (htime : time ≤ clock) (hclock : clock ≤ now) :
    InPass (update owed id (now + ulDelay)) since time now u q' (front ++ n :: back) := by
  have hbase : (if q.op = none then time else time - u) = time := by
    rcases hu with rfl | hnone
    · simp
    · rw [if_pos hnone]
  have hdue := h.due
  rw [hbase] at hdue
  refine ⟨?_, h.le, ?_⟩
  · rw [hop, hbase]
    exact hdue.insert hid hold fresh hjob hcounter hnow (htime.trans hclock) hclock
  · obtain ⟨F, T, hsplit, hopT, hF, hcases⟩ := h.split
    have hn : since ≤ (q'.job n).id := by
      rw [hjob, update_self, hid]
      exact hsince
    have hF' : ∀ m ∈ F, since ≤ (q'.job m).id := by
      intro m hm
      have hmn : m ≠ n := fun e => fresh (by rw [hsplit]; exact List.mem_append_left T (e ▸ hm))
      rw [hjob, update_of_ne hmn]
      exact hF m hm
    rcases List.append_eq_append_iff.mp hsplit with ⟨G, rfl, rfl⟩ | ⟨G, rfl, rfl⟩
    · -- in front of the node of the pass
      refine ⟨front ++ n :: G, T, by simp, by rw [hop, hopT], ?_, ?_⟩
      · intro m hm
        rcases List.mem_append.mp hm with hm | hm
        · exact hF' m (List.mem_append_left G hm)
        · rcases List.mem_cons.mp hm with rfl | hm
          · exact hn
          · exact hF' m (List.mem_append_right front hm)
      · cases T with
        | nil => exact Or.inr (Or.inl rfl)
        | cons t T =>
          refine Or.inr (Or.inr ⟨hu.resolve_right (by simp [hopT]), ?_⟩)
          rintro m ⟨⟩
          cases G with
          | nil => exact hhead t rfl
          | cons g G =>
            rcases hcases with hnil | hnil | ⟨-, hpos⟩
            · simp at hnil
            · cases hnil
            · rcases hkept t (by simp) with hsame | hpos'
              · rw [hsame]
                exact hpos t rfl
              · exact hpos'
    · -- behind it, or just in front of it
      cases G with
      | nil =>
        rw [List.append_nil, List.nil_append] at *
        refine ⟨F ++ [n], back, by simp, by rw [hop, hopT], ?_, ?_⟩
        · intro m hm
          rcases List.mem_append.mp hm with hm | hm
          · exact hF' m hm
          · rw [List.mem_singleton.mp hm]
            exact hn
        · cases back with
          | nil => exact Or.inr (Or.inl rfl)
          | cons t back => exact Or.inr (Or.inr ⟨hu.resolve_right (by simp [hopT]), hhead⟩)
      | cons g G =>
        refine ⟨F, g :: (G ++ n :: back), by simp, by rw [hop, hopT]; rfl, hF', ?_⟩
        rcases hcases with hnil | hnil | ⟨hzero, hpos⟩
        · exact Or.inl hnil
        · cases hnil
        · refine Or.inr (Or.inr ⟨hzero, ?_⟩)
          rintro m ⟨⟩
          rcases hkept g (by simp) with hsame | hpos'
          · rw [hsame]
            exact hpos g rfl
          · exact hpos'

theorem Due.mono {owed' : ℕ → ℕ} {clock' : ℕ} (h : Due owed clock base q line)
    (howed : ∀ n ∈ line, owed' (q.job n).id = owed (q.job n).id) (hclock : clock ≤ clock') :
    Due owed' clock' base q line := by
  refine ⟨fun n hn => ?_, fun n hn => ?_⟩
  · rw [howed n hn]
    exact h.late n hn
  · rw [howed n hn]
    exact (h.early n hn).imp_right fun hle => hle.trans hclock

theorem InPass.mono {owed' : ℕ → ℕ} {clock' : ℕ} (h : InPass owed since time clock u q line)
    (howed : ∀ n ∈ line, owed' (q.job n).id = owed (q.job n).id) (hclock : clock ≤ clock') :
    InPass owed' since time clock' u q line :=
  ⟨h.due.mono howed hclock, h.le, h.split⟩

theorem Between.mono {owed' : ℕ → ℕ} {clock' : ℕ} (h : Between owed since time clock q line)
    (howed : ∀ n ∈ line, owed' (q.job n).id = owed (q.job n).id) (hclock : clock ≤ clock') :
    Between owed' since time clock' q line := by
  refine ⟨h.due.mono howed hclock, fun n hn hold => ?_⟩
  rw [howed n hn]
  exact h.left n hn hold

def Standing (s : Timed W) (line : List ℕ) : Prop :=
  match s.queue.phase with
  | .idle => Between s.owed s.since s.u64Time s.clock s.queue line
  | .running u => InPass s.owed s.since s.u64Time s.clock u s.queue line

structure Keeps (uiQSize : UInt32) (s : Timed W) (line pool : List ℕ) : Prop where
  inv : Inv uiQSize s.queue line pool
  time_le : s.u64Time ≤ s.clock
  since_le : s.since ≤ s.queue.accepted.length
  runs : ∀ r ∈ s.runs, r.1 < s.queue.accepted.length ∧ s.owed r.1 ≤ r.2
  standing : Standing s line

section Runs

variable {uiQSize : UInt32} {s s' : Timed W} {pool : List ℕ} {bits : ℕ}

theorem Inv.id_lt (h : Inv uiQSize q line pool) {n : ℕ} (hn : n ∈ line) :
    (q.job n).id < q.accepted.length :=
  h.ids _ ((h.ledger.all _).mpr (List.mem_append_right _ (List.mem_map_of_mem hn)))

theorem Inv.line_eq {line' : List ℕ} (h : Inv uiQSize q line pool) (hlinks : IsLine q.lines line')
    (hheader : q.header = line'.head?) : line = line' :=
  h.shape.linked.linked.eq_of_head hlinks.linked (h.shape.header.symm.trans hheader)

theorem Keeps.honoured (h : Keeps uiQSize s line pool) : Honoured s := by
  refine ⟨fun r hr => (h.runs r hr).2, fun hidle j hj hold hdue => ?_⟩
  rcases List.mem_append.mp ((h.inv.ledger.all j).mp hj) with hdone | hline
  · exact hdone
  · obtain ⟨n, hn, rfl⟩ := List.mem_map.mp hline
    have hstanding := h.standing
    rw [Standing, hidle] at hstanding
    exact absurd hdue (Nat.not_le.mpr (hstanding.left n hn hold))

theorem passTurn_accepted : (passTurn q u).accepted = q.accepted := by
  unfold passTurn
  split
  · rfl
  · dsimp only
    split <;> rfl

theorem Turned.keeps {runs : List (ℕ × ℕ)} (h : Turned owed since time clock q line (passTurn q u))
    (hinv : Inv uiQSize q line pool)
    (hinv' : ∃ line' pool', Inv uiQSize (passTurn q u) line' pool')
    (htime : time ≤ clock) (hsince : since ≤ q.accepted.length)
    (hruns : ∀ r ∈ runs, r.1 < q.accepted.length ∧ owed r.1 ≤ r.2) :
    ∃ line' pool', Keeps uiQSize
      { queue := passTurn q u
        u64Time := time
        clock := clock
        owed := owed
        runs := runs ++ ((passTurn q u).ran.drop q.ran.length).map fun j => (j.id, clock)
        since := since } line' pool' := by
  obtain ⟨line', pool', hinv'⟩ := hinv'
  refine ⟨line', pool', hinv', htime, ?_, ?_, ?_⟩
  · rw [passTurn_accepted]
    exact hsince
  · intro r hr
    simp only [passTurn_accepted]
    rcases List.mem_append.mp hr with hold | hnew
    · exact hruns r hold
    · cases h with
      | ended _ hran _ _ _ =>
        rw [hran, List.drop_length] at hnew
        cases hnew
      | started v n rest _ hsplit _ _ hran hdue _ =>
        rw [hran, List.drop_left, List.map_singleton, List.mem_singleton] at hnew
        subst hnew
        refine ⟨hinv.id_lt (by simp [hsplit]), ?_⟩
        exact hdue.elim (fun hle => hle.trans htime) id
  · cases h with
    | ended hphase _ hlinks hheader hbetween =>
      rw [hinv'.line_eq hlinks hheader, Standing]
      simp only [hphase]
      exact hbetween
    | started v n rest hphase _ hlinks hheader _ _ hpass =>
      rw [hinv'.line_eq hlinks hheader, Standing]
      simp only [hphase]
      exact hpass

theorem Keeps.exec (h : Keeps uiQSize s line pool) {now : ℕ} (hnow : s.clock ≤ now)
    (hpass : now - s.u64Time < 2 ^ bits) (hs : timedStep bits uiQSize s (.exec now) = some s') :
    ∃ line' pool', Keeps uiQSize s' line' pool' := by
  have htime := h.time_le
  rw [timedStep, TimedAct.now, if_neg (Nat.not_lt.mpr hnow), Nat.mod_eq_of_lt hpass] at hs
  obtain ⟨q, hq, rfl⟩ := Option.map_eq_some_iff.mp hs
  have hinv' := inv_step ⟨line, pool, h.inv⟩ (a := .exec (now - s.u64Time)) trivial hq
  rw [step] at hq
  split at hq
  case h_2 => cases hq
  case h_1 hidle =>
  obtain rfl := Option.some.inj hq
  have hstanding := h.standing
  rw [Standing, hidle] at hstanding
  have hstart : Inv uiQSize { s.queue with op := s.queue.header } line pool :=
    ⟨⟨h.inv.shape.1, h.inv.shape.2, h.inv.shape.3, h.inv.shape.4, h.inv.shape.5⟩,
      ⟨h.inv.ledger.1, h.inv.ledger.2⟩, h.inv.ids, fun u hu => by
        rw [show s.queue.phase = .running u from hu] at hidle
        cases hidle⟩
  have hin : InPass s.owed s.queue.accepted.length now now (now - s.u64Time)
      { s.queue with op := s.queue.header } line := by
    refine ⟨?_, Nat.sub_le _ _, [], line, rfl, h.inv.shape.header, (fun _ hn => absurd hn List.not_mem_nil),
      Or.inl rfl⟩
    have hdue := hstanding.due.mono (fun _ _ => rfl) hnow
    cases line with
    | nil => exact .nil
    | cons n rest =>
      have hsome : s.queue.header ≠ none := by
        rw [h.inv.shape.header]
        simp
      rw [if_neg hsome, Nat.sub_sub_self (htime.trans hnow)]
      exact ⟨hdue.late, hdue.early⟩
  exact (hin.turn h.inv.shape.linked h.inv.shape.header).keeps hstart hinv' (Nat.le_refl _)
    (Nat.le_refl _) h.runs

theorem Keeps.resume (h : Keeps uiQSize s line pool) {now : ℕ} (hnow : s.clock ≤ now)
    (hs : timedStep bits uiQSize s (.resume now) = some s') :
    ∃ line' pool', Keeps uiQSize s' line' pool' := by
  have htime := h.time_le
  rw [timedStep, TimedAct.now, if_neg (Nat.not_lt.mpr hnow)] at hs
  obtain ⟨q, hq, rfl⟩ := Option.map_eq_some_iff.mp hs
  have hstanding := h.standing
  cases hphase : s.queue.phase with
  | idle =>
    rw [step, hphase] at hq
    cases hq
  | running u =>
    rw [Standing, hphase] at hstanding
    have hok : ResumeOk s.queue .resume := by
      intro v n _ hn
      obtain ⟨front, tail, rfl, hop, -, -⟩ := hstanding.split
      rw [hop] at hn
      exact Or.inl ⟨_, h.inv.shape.linked, h.inv.shape.header,
        List.mem_append_right front (List.mem_of_mem_head? hn)⟩
    have hinv' := inv_step ⟨line, pool, h.inv⟩ hok hq
    simp only [step, hphase] at hq
    obtain rfl := Option.some.inj hq
    have hin := hstanding.mono (fun _ _ => rfl) hnow
    exact (hin.turn h.inv.shape.linked h.inv.shape.header).keeps h.inv hinv' (htime.trans hnow)
      h.since_le h.runs

theorem Keeps.flush (h : Keeps uiQSize s line pool) {now : ℕ} (hnow : s.clock ≤ now)
    (hpass : ∀ u, s.queue.phase = .running u → s.queue.op = none)
    (hs : timedStep bits uiQSize s (.flush now) = some s') :
    ∃ line' pool', Keeps uiQSize s' line' pool' := by
  have htime := h.time_le
  rw [timedStep, TimedAct.now, if_neg (Nat.not_lt.mpr hnow)] at hs
  obtain ⟨q, hq, rfl⟩ := Option.map_eq_some_iff.mp hs
  obtain ⟨line', pool', hinv'⟩ := inv_step ⟨line, pool, h.inv⟩ (a := .flush) trivial hq
  have hlength := h.inv.shape.length_le
  obtain ⟨lines', mono', free', hloop, -⟩ := flushLoop_spec line uiQSize.toNat s.queue pool
    h.inv.shape.linked h.inv.shape.header h.inv.shape.free h.inv.shape.nodup (by omega)
  rw [step, wqDFlush, hloop, Option.map_some] at hq
  obtain rfl := Option.some.inj hq
  have hempty : line' = [] := List.head?_eq_none_iff.mp hinv'.shape.header.symm
  subst hempty
  refine ⟨[], pool', hinv', htime.trans hnow, h.since_le, h.runs, ?_⟩
  have hstanding := h.standing
  rw [Standing] at hstanding ⊢
  cases hphase : s.queue.phase with
  | idle => exact .nil
  | running u =>
    rw [hphase] at hstanding
    exact .nil hstanding.le (hpass u hphase)

theorem Keeps.insert (h : Keeps uiQSize s line pool) {now ulDelay : ℕ} {work : W}
    (hnow : s.clock ≤ now) (htimely : Timely bits s (.insert now ulDelay work))
    (hs : timedStep bits uiQSize s (.insert now ulDelay work) = some s') :
    ∃ line' pool', Keeps uiQSize s' line' pool' := by
  have htime := h.time_le
  rw [timedStep, TimedAct.now, if_neg (Nat.not_lt.mpr hnow)] at hs
  obtain ⟨q, hq, rfl⟩ := Option.map_eq_some_iff.mp hs
  obtain ⟨line', pool', hinv'⟩ := inv_step ⟨line, pool, h.inv⟩ (a := .insert ulDelay work) trivial hq
  have hold : ∀ m ∈ line, update s.owed s.queue.accepted.length (now + ulDelay) (s.queue.job m).id =
      s.owed (s.queue.job m).id :=
    fun m hm => update_of_ne (Nat.ne_of_lt (h.inv.id_lt hm)) _ _
  have hruns : ∀ r ∈ s.runs, update s.owed s.queue.accepted.length (now + ulDelay) r.1 ≤ r.2 := by
    intro r hr
    rw [update_of_ne (Nat.ne_of_lt (h.runs r hr).1)]
    exact (h.runs r hr).2
  have hstanding := h.standing
  cases pool with
  | nil =>
    have hnone : s.queue.pool = none := h.inv.shape.free
    rw [step, wqDInsert, hnone, listMonoAllocate] at hq
    obtain rfl := Option.some.inj hq
    refine ⟨line, [], h.inv, htime.trans hnow, h.since_le,
      fun r hr => ⟨(h.runs r hr).1, hruns r hr⟩, ?_⟩
    rw [Standing] at hstanding ⊢
    simp only
    cases hphase : s.queue.phase with
    | idle =>
      rw [hphase] at hstanding
      exact hstanding.mono hold hnow
    | running u =>
      rw [hphase] at hstanding
      exact hstanding.mono hold hnow
  | cons n pool =>
    have hsome : s.queue.pool = some n := h.inv.shape.free.1
    obtain ⟨hzero, hpass⟩ := htimely.resolve_left (by simp [hsome])
    have fresh : n ∉ line := fun hmem =>
      (List.nodup_append.mp h.inv.shape.nodup).2.2 n hmem n List.mem_cons_self rfl
    have hlength := h.inv.shape.length_le
    rw [List.length_cons] at hlength
    obtain ⟨front, back, lines', counter', rfl, hadd, hlinks, hcounter, hkept, hhead⟩ :=
      wakeupAdd_spec (s := { s.queue with
          pool := s.queue.mono n
          job := update s.queue.job n ⟨s.queue.accepted.length, work⟩
          counter := update s.queue.counter n ulDelay })
        uiQSize.toNat h.inv.shape.linked h.inv.shape.header fresh (by omega)
    have hentries : entries (update s.queue.counter n ulDelay) (front ++ back) =
        entries s.queue.counter (front ++ back) :=
      entries_congr fun x hx => update_of_ne (fun e : x = n => fresh (e ▸ hx)) _ _
    simp only [update_self] at hcounter
    rw [hentries] at hcounter
    simp only [step, wqDInsert, hsome, listMonoAllocate, Option.map_some] at hq
    rw [hadd, Option.map_some] at hq
    obtain rfl := Option.some.inj hq
    obtain rfl := hinv'.line_eq hlinks rfl
    have hkept' : ∀ m ∈ front ++ back, counter' m = s.queue.counter m ∨ 0 < counter' m := by
      intro m hm
      have hmn : m ≠ n := fun e => fresh (e ▸ hm)
      exact (hkept m hm).imp_left fun hsame => hsame.trans (update_of_ne hmn _ _)
    refine ⟨_, pool', hinv', htime.trans hnow, ?_, ?_, ?_⟩
    · simp only [List.length_append]
      exact h.since_le.trans (Nat.le_add_right _ _)
    · intro r hr
      simp only [List.length_append]
      exact ⟨(h.runs r hr).1.trans_le (Nat.le_add_right _ _), hruns r hr⟩
    · rw [Standing] at hstanding ⊢
      simp only
      cases hphase : s.queue.phase with
      | idle =>
        rw [hphase] at hstanding
        refine ⟨hstanding.due.insert rfl (fun m hm => h.inv.id_lt hm) fresh rfl hcounter hzero
          (htime.trans hnow) hnow, fun m hm hlt => ?_⟩
        by_cases hmn : m = n
        · simp only [hmn, update_self] at hlt
          exact absurd hlt (Nat.not_lt.mpr h.since_le)
        · have hmem : m ∈ front ++ back := by
            rcases List.mem_append.mp hm with hm | hm
            · exact List.mem_append_left _ hm
            · exact List.mem_append_right _ ((List.mem_cons.mp hm).resolve_left hmn)
          simp only [update_of_ne hmn] at hlt ⊢
          rw [hold m hmem]
          exact hstanding.left m hmem hlt
      | running u =>
        rw [hphase] at hstanding
        exact hstanding.insert (hpass u hphase) rfl h.since_le (fun m hm => h.inv.id_lt hm) fresh rfl
          rfl hcounter hkept' hhead hzero htime hnow

theorem Keeps.step {a : TimedAct W} (h : Keeps uiQSize s line pool) (hok : Timely bits s a)
    (hs : timedStep bits uiQSize s a = some s') : ∃ line' pool', Keeps uiQSize s' line' pool' := by
  have hnow : s.clock ≤ a.now := by
    by_contra hnot
    unfold timedStep at hs
    rw [if_pos (Nat.lt_of_not_le hnot)] at hs
    cases hs
  cases a with
  | insert now ulDelay work => exact h.insert hnow hok hs
  | flush now => exact h.flush hnow hok hs
  | exec now => exact h.exec hnow hok hs
  | resume now => exact h.resume hnow hs

theorem wqDCreate_idle (uiQSize : UInt32) (lines : Links ℕ) (counter : ℕ → ℕ)
    (mono : ℕ → Option ℕ) (job : ℕ → Job W) :
    (wqDCreate uiQSize lines counter mono job).phase = .idle ∧
      (wqDCreate uiQSize lines counter mono job).header = none := by
  unfold wqDCreate
  obtain ⟨mono', pool', l, hfree, -⟩ := freeNodes_spec uiQSize.toNat 0
    ({ lines := lines, header := none, op := none, counter := counter, mono := mono, pool := none,
       job := job, count := 0, phase := .idle, accepted := [], ran := [], discarded := [] } :
      State W) [] rfl (List.Perm.refl _)
  rw [hfree]
  exact ⟨rfl, rfl⟩

theorem keeps_created (start : ℕ) (uiQSize : UInt32) (lines : Links ℕ) (counter : ℕ → ℕ)
    (mono : ℕ → Option ℕ) (job : ℕ → Job W) :
    ∃ line pool, Keeps uiQSize (timedCreate start uiQSize lines counter mono job) line pool := by
  obtain ⟨line, pool, hinv⟩ := inv_created uiQSize lines counter mono job
  obtain ⟨hidle, hheader⟩ := wqDCreate_idle uiQSize lines counter mono job
  have hnil : line = [] := List.head?_eq_none_iff.mp (hinv.shape.header.symm.trans hheader)
  subst hnil
  refine ⟨[], pool, hinv, Nat.le_refl _, Nat.zero_le _, fun r hr => absurd hr List.not_mem_nil, ?_⟩
  rw [Standing]
  change match (wqDCreate uiQSize lines counter mono job).phase with
    | .idle => _
    | .running u => _
  rw [hidle]
  exact .nil

/-- In a run whose steps are timely no job is started before its time, and every pass runs the
jobs whose time had come when it began. -/
theorem work_queue_honours_delays (bits start : ℕ) (uiQSize : UInt32) (lines : Links ℕ)
    (counter : ℕ → ℕ) (mono : ℕ → Option ℕ) (job : ℕ → Job W) (acts : List (TimedAct W))
    (htimely : Obeys (timedStep bits uiQSize) (Timely bits)
      (timedCreate start uiQSize lines counter mono job) acts) :
    Visits (timedStep bits uiQSize) Honoured
      (timedCreate start uiQSize lines counter mono job) acts := by
  have hvisits := visits_of_obeys (I := fun s => ∃ line pool, Keeps uiQSize s line pool)
    (fun _ _ _ ⟨_, _, h⟩ hok hs => h.step hok hs)
    (keeps_created start uiQSize lines counter mono job) htimely
  exact hvisits.mono fun s ⟨line, pool, h⟩ => h.honoured

end Runs

def twoTimed : Timed Unit :=
  timedCreate 0 2 ⟨fun _ => none, fun _ => none⟩ (fun _ => 0) (fun _ => none) fun _ => ⟨0, ()⟩

/-- Two jobs are inserted at the times of passes, and later passes run them. -/
theorem work_queue_honours_two : Visits (timedStep 32 2) Honoured twoTimed
    [.insert 0 10 (), .exec 5, .insert 5 10 (), .exec 10, .resume 12, .exec 15, .resume 16] :=
  work_queue_honours_delays 32 0 2 _ _ _ _ _ (by decide)

def lateInsert : List (TimedAct Unit) := [.insert 5 10 (), .exec 10]

/-- The job is run 5 after it was inserted, with a delay of 10. -/
theorem work_queue_runs_early :
    ¬∀ acts, Visits (timedStep 32 2) Honoured twoTimed acts := by
  intro h
  have hsome : (run (timedStep 32 2) twoTimed lateInsert).isSome = true := by decide
  have hearly := ((h lateInsert).last (Option.some_get hsome).symm).1
  have hruns : ((run (timedStep 32 2) twoTimed lateInsert).get hsome).runs = [(0, 10)] := rfl
  have howed : ((run (timedStep 32 2) twoTimed lateInsert).get hsome).owed 0 = 15 := rfl
  have hle := hearly (0, 10) (hruns ▸ List.mem_singleton_self _)
  rw [howed] at hle
  exact absurd hle (by decide)

end SylixOS.WorkQueue
