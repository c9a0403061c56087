import SylixOS.WakeupLine

/-! One pass of `_ITimerThread` over the line of its timers. An expired timer with
`LW_OPTION_AUTO_RESTART` goes back into the line at once, its period counted from the head
of the line, while the timers still to be visited are charged from `WU_plineOp` on: a
timer parked in front of them takes its period from their counters, but not from the time
left to charge. -/

namespace SylixOS.ITimer
open WakeupLine DeltaList Function

variable {ι : Type*} [DecidableEq ι]

structure Timer where
  autoRestart : Bool
  ulCounterSave : Nat
  running : Bool
  deriving DecidableEq, Repr

structure Service (ι : Type*) where
  wu : Wakeup ι
  timer : ι → Timer
  called : List ι

variable (ulong : Nat)

def expire (s : Service ι) (w : Wakeup ι) (x : ι) : Service ι :=
  let s := { s with wu := w, called := s.called ++ [x] }
  if (s.timer x).autoRestart then { s with wu := wakeupAdd w x (s.timer x).ulCounterSave }
  else { s with timer := update s.timer x { s.timer x with running := false } }

def passLoop : Nat → Service ι → Nat → Option (Service ι)
  | 0, _, _ => none
  | fuel + 1, s, ulCounter =>
    match passRound ulong s.wu ulCounter with
    | (w, .stops) => some { s with wu := w }
    | (w, .expires x left) => passLoop fuel (expire s w x) left

def Passes (s : Service ι) (ulCounter : Nat) (s' : Service ι) : Prop :=
  ∃ fuel, passLoop ulong fuel { s with wu := passFirst s.wu } ulCounter = some s'

structure Service.Sound (s : Service ι) : Prop where
  keys : (s.wu.line.map Prod.fst).Nodup
  small : ∀ p ∈ s.wu.line, p.2 < ulong
  period : ∀ x, (s.timer x).autoRestart = true →
    0 < (s.timer x).ulCounterSave ∧ (s.timer x).ulCounterSave < ulong

def Service.left (s : Service ι) (x : ι) : Nat := distance x s.wu.line

structure Served (s s' : Service ι) (e : Nat) : Prop where
  called : ∃ fired, s'.called = s.called ++ fired ∧ fired.Nodup ∧
    ∀ x, x ∈ fired ↔ inQ s.wu x ∧ s.left x ≤ e
  restarted : ∀ x, inQ s.wu x → s.left x ≤ e → (s.timer x).autoRestart = true →
    inQ s'.wu x ∧ s'.left x = (s.timer x).ulCounterSave
  stopped : ∀ x, inQ s.wu x → s.left x ≤ e → (s.timer x).autoRestart = false →
    ¬ inQ s'.wu x ∧ (s'.timer x).running = false
  waiting : ∀ x, inQ s.wu x → e < s.left x → inQ s'.wu x ∧ s'.left x = s.left x - e

/-- The gaps between the timers leave room for what the pass parks: `parked` is the longest
period of the timers restarted so far, `e` what is left of the elapsed count. A timer that
restarts comes before the next one, unless it is the first and has used up the elapsed count; the
first that is not due is later by more than `parked`. -/
def Roomy (timer : ι → Timer) : Nat → Nat → List (ι × Nat) → Prop
  | _, _, [] => True
  | parked, e, (x, c) :: rest =>
    if e < c then e + parked < c
    else if c = e ∧ parked = 0 then True
    else if (timer x).autoRestart then
      (∀ p ∈ rest.head?, (timer x).ulCounterSave < p.2 + parked) ∧
        Roomy timer (max parked (timer x).ulCounterSave) (e - c) rest
    else Roomy timer parked (e - c) rest

instance Roomy.decidable (timer : ι → Timer) :
    (parked e : Nat) → (d : List (ι × Nat)) → Decidable (Roomy timer parked e d)
  | _, _, [] => isTrue trivial
  | parked, e, (x, c) :: rest =>
    have : Decidable (Roomy timer (max parked (timer x).ulCounterSave) (e - c) rest) :=
      Roomy.decidable timer _ _ rest
    have : Decidable (Roomy timer parked (e - c) rest) := Roomy.decidable timer _ _ rest
    inferInstanceAs (Decidable (if e < c then e + parked < c
      else if c = e ∧ parked = 0 then True
      else if (timer x).autoRestart then
        (∀ p ∈ rest.head?, (timer x).ulCounterSave < p.2 + parked) ∧
          Roomy timer (max parked (timer x).ulCounterSave) (e - c) rest
      else Roomy timer parked (e - c) rest))

variable {ulong} {s s' : Service ι} {P Q R : List (ι × Nat)} {x y : ι} {c e u n : Nat}

structure Walk (ulong : Nat) (s : Service ι) (P Q : List (ι × Nat)) : Prop where
  line : s.wu.line = P ++ Q
  op : s.wu.op = Q.head?.map Prod.fst
  keys : ((P ++ Q).map Prod.fst).Nodup
  small : ∀ p ∈ P ++ Q, p.2 < ulong
  period : ∀ x, (s.timer x).autoRestart = true →
    0 < (s.timer x).ulCounterSave ∧ (s.timer x).ulCounterSave < ulong

omit [DecidableEq ι] in
theorem Service.Sound.walk (h : s.Sound ulong) :
    Walk ulong { s with wu := passFirst s.wu } [] s.wu.line :=
  ⟨rfl, rfl, by simpa using h.keys, by simpa using h.small, h.period⟩

theorem nextOf_append (h : x ∉ P.map Prod.fst) :
    nextOf x (P ++ (x, c) :: R) = R.head?.map Prod.fst := by
  induction P with
  | nil => simp [nextOf]
  | cons p P ih =>
    simp only [List.map_cons, List.mem_cons, not_or] at h
    simp [nextOf, Ne.symm h.1, ih h.2]

theorem counterOf_append (h : x ∉ P.map Prod.fst) : counterOf x (P ++ (x, c) :: R) = c := by
  induction P with
  | nil => simp [counterOf]
  | cons p P ih =>
    simp only [List.map_cons, List.mem_cons, not_or] at h
    simp [counterOf, Ne.symm h.1, ih h.2]

theorem setCounter_append (h : x ∉ P.map Prod.fst) :
    setCounter x n (P ++ (x, c) :: R) = P ++ (x, n) :: R := by
  induction P with
  | nil => simp [setCounter]
  | cons p P ih =>
    simp only [List.map_cons, List.mem_cons, not_or] at h
    simp [setCounter, Ne.symm h.1, ih h.2]

omit [DecidableEq ι] in
theorem postpone_zero (h : ∀ p ∈ R, p.2 < ulong) : postpone ulong 0 R = R := by
  cases R with
  | nil => rfl
  | cons p R =>
    have hp := h p (by simp)
    simp [postpone, Nat.mod_eq_of_lt hp]

theorem remove_append (h : x ∉ P.map Prod.fst) (hsmall : ∀ p ∈ R, p.2 < ulong) :
    remove ulong x (P ++ (x, 0) :: R) = P ++ R := by
  induction P with
  | nil => simp [remove, postpone_zero hsmall]
  | cons p P ih =>
    simp only [List.map_cons, List.mem_cons, not_or] at h
    simp [remove, Ne.symm h.1, ih h.2]

omit [DecidableEq ι] in
theorem Walk.notMem (h : Walk ulong s P ((x, c) :: R)) :
    x ∉ P.map Prod.fst ∧ x ∉ R.map Prod.fst ∧ ((P ++ R).map Prod.fst).Nodup := by
  have hkeys := h.keys
  simp only [List.map_append, List.map_cons] at hkeys
  obtain ⟨hout, hrest⟩ := List.nodup_cons.mp (List.nodup_middle.mp hkeys)
  rw [← List.map_append] at hout hrest
  simp only [List.map_append, List.mem_append, not_or] at hout
  exact ⟨hout.1, hout.2, hrest⟩

theorem Walk.round_nil (h : Walk ulong s P []) (u : Nat) :
    passRound ulong s.wu u = (s.wu, .stops) := by
  have hop : s.wu.op = none := h.op
  unfold passRound
  rw [hop]

theorem Walk.round_stops (h : Walk ulong s P ((x, c) :: R)) (hlt : u < c) :
    passRound ulong s.wu u =
      ({ line := P ++ (x, c - u) :: R, op := R.head?.map Prod.fst }, .stops) := by
  have hop : s.wu.op = some x := h.op
  unfold passRound
  rw [hop]
  simp only [h.line, counterOf_append h.notMem.1, nextOf_append h.notMem.1,
    setCounter_append h.notMem.1]
  rw [if_pos hlt]

theorem Walk.round_expires (h : Walk ulong s P ((x, c) :: R)) (hle : c ≤ u) :
    passRound ulong s.wu u =
      ({ line := P ++ R, op := R.head?.map Prod.fst }, .expires x (u - c)) := by
  have hop : s.wu.op = some x := h.op
  obtain ⟨hP, hR, -⟩ := h.notMem
  have hsmall : ∀ p ∈ R, p.2 < ulong := fun p hp => h.small p (by simp [hp])
  have hnext : R.head?.map Prod.fst ≠ some x := by
    cases R with
    | nil => simp
    | cons p R =>
      simp only [List.map_cons, List.mem_cons, not_or] at hR
      simpa using Ne.symm hR.1
  unfold passRound
  rw [hop]
  simp only [h.line, counterOf_append hP, nextOf_append hP, setCounter_append hP]
  rw [if_neg (by omega)]
  simp [wakeupDel, remove_append hP hsmall, hnext]

def place (x : ι) (n : Nat) (P R : List (ι × Nat)) : List (ι × Nat) × List (ι × Nat) :=
  let S := (P.map Prod.snd).sum
  if n < S then (DeltaList.insert x n P, R)
  else
    match R with
    | [] => (P ++ [(x, n - S)], [])
    | (z, d) :: R =>
      if n - S < d then (P ++ [(x, n - S)], (z, d - (n - S)) :: R)
      else (P, DeltaList.insert x (n - S) ((z, d) :: R))

def lower (delta : Nat) : List (ι × Nat) → List (ι × Nat)
  | [] => []
  | (y, d) :: rest => (y, d - delta) :: rest

omit [DecidableEq ι] in
theorem lower_zero (R : List (ι × Nat)) : lower 0 R = R := by
  cases R <;> rfl

omit [DecidableEq ι] in
theorem place_append (x : ι) (n : Nat) (P R : List (ι × Nat)) :
    (place x n P R).1 ++ (place x n P R).2 = DeltaList.insert x n (P ++ R) := by
  rw [insert_append]
  unfold place
  simp only
  split
  next => rfl
  next hge =>
    cases R with
    | nil => simp [DeltaList.insert]
    | cons p R =>
      obtain ⟨z, d⟩ := p
      simp only
      split
      next hlt =>
        rw [DeltaList.insert, if_neg (by omega)]
        simp
      next => rfl

omit [DecidableEq ι] in
theorem place_head (x : ι) (n : Nat) (P R : List (ι × Nat)) :
    (place x n P R).2.head?.map Prod.fst = R.head?.map Prod.fst := by
  unfold place
  simp only
  split
  next => rfl
  next =>
    cases R with
    | nil => rfl
    | cons p R =>
      obtain ⟨z, d⟩ := p
      simp only
      split
      next => rfl
      next hge =>
        rw [DeltaList.insert, if_pos (by omega)]
        rfl

omit [DecidableEq ι] in
theorem place_parked {S : Nat} (hS : (P.map Prod.snd).sum = S)
    (hroom : ∀ p ∈ R.head?, n < p.2 + S) :
    x ∈ (place x n P R).1.map Prod.fst ∧ ((place x n P R).1.map Prod.snd).sum = max S n ∧
      (place x n P R).2 = lower (max S n - S) R := by
  unfold place
  simp only [hS]
  split
  next hlt =>
    have hmax : max S n = S := by omega
    refine ⟨mem_insert_keys.mpr (Or.inl rfl), ?_, ?_⟩
    · rw [insert_sum, hS]
      omega
    · rw [hmax, Nat.sub_self, lower_zero]
  next hge =>
    have hmax : max S n = n := by omega
    cases R with
    | nil =>
      refine ⟨by simp, ?_, rfl⟩
      simp only [List.map_append, List.sum_append, hS, List.map_cons, List.map_nil, List.sum_cons,
        List.sum_nil]
      omega
    | cons p R =>
      obtain ⟨z, d⟩ := p
      have hd : n < d + S := hroom (z, d) (by simp)
      simp only
      rw [if_pos (by omega), hmax]
      refine ⟨by simp, ?_, rfl⟩
      simp only [List.map_append, List.sum_append, hS, List.map_cons, List.map_nil, List.sum_cons,
        List.sum_nil]
      omega

omit [DecidableEq ι] in
theorem place_behind {p : ι × Nat} (hp : p ∈ R.head?) (hgap : p.2 + (P.map Prod.snd).sum ≤ n) :
    place x n P R = (P, DeltaList.insert x (n - (P.map Prod.snd).sum) R) := by
  cases R with
  | nil => simp at hp
  | cons q R =>
    obtain ⟨z, d⟩ := q
    obtain rfl : (z, d) = p := by simpa using hp
    unfold place
    simp only at hgap ⊢
    rw [if_neg (by omega), if_neg (by omega)]

omit [DecidableEq ι] in
theorem place_subset (x : ι) (n : Nat) (P R : List (ι × Nat)) :
    (∀ y ∈ P.map Prod.fst, y ∈ (place x n P R).1.map Prod.fst) ∧
      ∀ y ∈ R.map Prod.fst, y ∈ (place x n P R).2.map Prod.fst := by
  unfold place
  simp only
  split
  next => exact ⟨fun y hy => mem_insert_keys.mpr (Or.inr hy), fun y hy => hy⟩
  next =>
    cases R with
    | nil => exact ⟨fun y hy => by simp [hy], fun y hy => hy⟩
    | cons p R =>
      obtain ⟨z, d⟩ := p
      simp only
      split
      next => exact ⟨fun y hy => by simp [hy], fun y hy => by simpa using hy⟩
      next => exact ⟨fun y hy => hy, fun y hy => mem_insert_keys.mpr (Or.inr hy)⟩

structure Expired (ulong : Nat) (s s' : Service ι) (x : ι) (P R P' Q' : List (ι × Nat)) : Prop where
  walk : Walk ulong s' P' Q'
  called : s'.called = s.called ++ [x]
  parked : ∀ y ∈ P.map Prod.fst, y ∈ P'.map Prod.fst
  ahead : ∀ y ∈ R.map Prod.fst, y ∈ Q'.map Prod.fst
  kept : ∀ y ∈ (P ++ R).map Prod.fst, distance y (P' ++ Q') = distance y (P ++ R)
  others : ∀ y ∈ (P' ++ Q').map Prod.fst, y = x ∨ y ∈ (P ++ R).map Prod.fst
  timer : ∀ y, y ≠ x ∨ (s.timer x).autoRestart = true → s'.timer y = s.timer y
  option : ∀ y, (s'.timer y).autoRestart = (s.timer y).autoRestart ∧
    (s'.timer y).ulCounterSave = (s.timer y).ulCounterSave
  restarted : (s.timer x).autoRestart = true → x ∈ (P' ++ Q').map Prod.fst ∧
    distance x (P' ++ Q') = (s.timer x).ulCounterSave
  stopped : (s.timer x).autoRestart = false → x ∉ (P' ++ Q').map Prod.fst ∧
    (s'.timer x).running = false

omit [DecidableEq ι] in
theorem insert_small {d : List (ι × Nat)} (hn : n < ulong) (hd : ∀ p ∈ d, p.2 < ulong) :
    ∀ p ∈ DeltaList.insert x n d, p.2 < ulong := by
  induction d generalizing n with
  | nil =>
    intro p hp
    obtain rfl : p = (x, n) := by simpa [DeltaList.insert] using hp
    exact hn
  | cons q d ih =>
    have hq := hd q (by simp)
    intro p hp
    rw [DeltaList.insert] at hp
    split at hp
    · rcases List.mem_cons.mp hp with rfl | hp
      · exact hq
      · exact ih (by omega) (fun p hp => hd p (by simp [hp])) p hp
    · rcases List.mem_cons.mp hp with rfl | hp
      · exact hn
      · rcases List.mem_cons.mp hp with rfl | hp
        · change q.2 - n < ulong
          omega
        · exact hd p (by simp [hp])

theorem Walk.expire_stops (h : Walk ulong s P ((x, c) :: R))
    (hauto : (s.timer x).autoRestart = false) :
    Expired ulong s (expire s { line := P ++ R, op := R.head?.map Prod.fst } x) x P R P R := by
  obtain ⟨hP, hR, hkeys⟩ := h.notMem
  have hvalue : expire s { line := P ++ R, op := R.head?.map Prod.fst } x =
      { wu := { line := P ++ R, op := R.head?.map Prod.fst }, called := s.called ++ [x],
        timer := update s.timer x { s.timer x with running := false } } := by
    simp [expire, hauto]
  have hoption : ∀ y,
      (update s.timer x { s.timer x with running := false } y).autoRestart =
      (s.timer y).autoRestart ∧
      (update s.timer x { s.timer x with running := false } y).ulCounterSave =
      (s.timer y).ulCounterSave := by
    intro y
    by_cases hy : y = x
    · subst hy
      simp
    · simp [hy]
  rw [hvalue]
  constructor
  case walk =>
    refine ⟨rfl, rfl, hkeys, fun p hp => ?_, fun y hy => ?_⟩
    · rcases List.mem_append.mp hp with hp | hp
      · exact h.small p (by simp [hp])
      · exact h.small p (by simp [hp])
    · simp only [hoption] at hy ⊢
      exact h.period y hy
  case called => rfl
  case parked => exact fun y hy => hy
  case ahead => exact fun y hy => hy
  case kept => exact fun y _ => rfl
  case others => exact fun y hy => Or.inr hy
  case timer =>
    intro y hy
    have hne : y ≠ x := hy.resolve_right (by simp [hauto])
    exact update_of_ne hne _ _
  case option => exact hoption
  case restarted =>
    intro hyes
    rw [hauto] at hyes
    cases hyes
  case stopped =>
    intro _
    simp only [update_self, and_true, List.map_append, List.mem_append, not_or]
    exact ⟨hP, hR⟩

theorem Walk.expire_restarts (h : Walk ulong s P ((x, c) :: R))
    (hauto : (s.timer x).autoRestart = true) :
    Expired ulong s (expire s { line := P ++ R, op := R.head?.map Prod.fst } x) x P R
      (place x (s.timer x).ulCounterSave P R).1 (place x (s.timer x).ulCounterSave P R).2 := by
  obtain ⟨hP, hR, hkeys⟩ := h.notMem
  have hout : x ∉ (P ++ R).map Prod.fst := by
    simp only [List.map_append, List.mem_append, not_or]
    exact ⟨hP, hR⟩
  have hvalue : expire s { line := P ++ R, op := R.head?.map Prod.fst } x =
      { s with
        wu := { line := DeltaList.insert x (s.timer x).ulCounterSave (P ++ R)
                op := R.head?.map Prod.fst }
        called := s.called ++ [x] } := by
    simp [expire, hauto, wakeupAdd]
  obtain ⟨hparked, hahead⟩ := place_subset x (s.timer x).ulCounterSave P R
  rw [hvalue]
  constructor
  case walk =>
    refine ⟨(place_append x _ P R).symm, (place_head x _ P R).symm, ?_, ?_, h.period⟩
    · rw [place_append, insert_keys.nodup_iff]
      exact List.nodup_cons.mpr ⟨hout, hkeys⟩
    · rw [place_append]
      refine insert_small (h.period x hauto).2 fun p hp => ?_
      rcases List.mem_append.mp hp with hp | hp
      · exact h.small p (by simp [hp])
      · exact h.small p (by simp [hp])
  case called => rfl
  case parked => exact hparked
  case ahead => exact hahead
  case kept =>
    intro y hy
    rw [place_append, distance_insert_of_ne hy (fun heq : y = x => hout (heq ▸ hy))]
  case others =>
    intro y hy
    rw [place_append] at hy
    exact mem_insert_keys.mp hy
  case timer => exact fun y _ => rfl
  case option => exact fun y => ⟨rfl, rfl⟩
  case restarted =>
    intro _
    rw [place_append]
    exact ⟨mem_insert_keys.mpr (Or.inl rfl), distance_insert_self hout⟩
  case stopped =>
    intro hno
    rw [hauto] at hno
    cases hno

theorem Walk.expire (h : Walk ulong s P ((x, c) :: R)) :
    ∃ P' Q', Expired ulong s (ITimer.expire s { line := P ++ R, op := R.head?.map Prod.fst } x)
      x P R P' Q' := by
  cases hauto : (s.timer x).autoRestart with
  | false => exact ⟨P, R, h.expire_stops hauto⟩
  | true => exact ⟨_, _, h.expire_restarts hauto⟩

structure Outcome (s s' : Service ι) (P Q : List (ι × Nat)) (u : Nat) (fired : List ι) : Prop where
  called : s'.called = s.called ++ fired
  parked : ∀ y ∈ P.map Prod.fst, inQ s'.wu y ∧ s'.left y = distance y (P ++ Q)
  visited : ∀ y ∈ Q.map Prod.fst, y ∉ fired → inQ s'.wu y ∧ s'.left y + u = distance y (P ++ Q)
  absent : ∀ y, y ∉ (P ++ Q).map Prod.fst → ¬ inQ s'.wu y ∧ s'.timer y = s.timer y
  stopped : ∀ y ∈ fired, (s.timer y).autoRestart = false →
    ¬ inQ s'.wu y ∧ (s'.timer y).running = false
  option : ∀ y, (s'.timer y).autoRestart = (s.timer y).autoRestart ∧
    (s'.timer y).ulCounterSave = (s.timer y).ulCounterSave

theorem Walk.outcome_stops (h : Walk ulong s P ((x, c) :: R)) (hlt : u < c) :
    Outcome s { s with wu := { line := P ++ (x, c - u) :: R, op := R.head?.map Prod.fst } }
      P ((x, c) :: R) u [] := by
  obtain ⟨hP, hR, -⟩ := h.notMem
  have hmem : ∀ y,
      y ∈ (P ++ (x, c - u) :: R).map Prod.fst ↔ y ∈ (P ++ (x, c) :: R).map Prod.fst := by
    intro y
    simp
  constructor
  case called => simp
  case parked =>
    intro y hy
    refine ⟨(hmem y).mpr (by simp [hy]), ?_⟩
    unfold Service.left
    rw [distance_append_left hy, distance_append_left hy]
  case visited =>
    intro y hy _
    refine ⟨(hmem y).mpr (by rw [List.map_append, List.mem_append]; exact Or.inr hy), ?_⟩
    have hout : y ∉ P.map Prod.fst := by
      have hkeys := h.keys
      rw [List.map_append] at hkeys
      exact fun hin => (List.disjoint_of_nodup_append hkeys) hin hy
    unfold Service.left
    simp only
    rw [distance_append_right hout, distance_append_right hout]
    by_cases hx : x = y
    · simp only [hx, distance_cons_self]
      omega
    · rw [distance_cons_of_ne hx, distance_cons_of_ne hx]
      omega
  case absent =>
    intro y hy
    exact ⟨fun hin => hy ((hmem y).mp hin), rfl⟩
  case stopped => simp
  case option => exact fun y => ⟨rfl, rfl⟩

theorem Walk.outcome_nil (h : Walk ulong s P []) : Outcome s { s with wu := s.wu } P [] u [] := by
  have hline : s.wu.line = P ++ [] := h.line
  constructor
  case called => simp
  case parked =>
    intro y hy
    unfold inQ Service.left
    simp only [hline]
    exact ⟨by simpa using hy, trivial⟩
  case visited => simp
  case absent =>
    intro y hy
    unfold inQ
    simp only [hline]
    exact ⟨hy, trivial⟩
  case stopped => simp
  case option => exact fun y => ⟨rfl, rfl⟩

theorem Expired.outcome {s₁ : Service ι} {P' Q' : List (ι × Nat)} {fired : List ι}
    (h : Walk ulong s P ((x, c) :: R)) (hle : c ≤ u) (hx : Expired ulong s s₁ x P R P' Q')
    (ho : Outcome s₁ s' P' Q' (u - c) fired) : Outcome s s' P ((x, c) :: R) u (x :: fired) := by
  obtain ⟨hP, hR, hkeys⟩ := h.notMem
  have hsum : ∀ y ∈ R.map Prod.fst, distance y (P ++ (x, c) :: R) = distance y (P ++ R) + c := by
    intro y hy
    have hout : y ∉ P.map Prod.fst := by
      rw [List.map_append] at hkeys
      exact fun hin => (List.disjoint_of_nodup_append hkeys) hin hy
    rw [distance_append_right hout, distance_append_right hout,
      distance_cons_of_ne (fun heq : x = y => hR (heq ▸ hy))]
    omega
  constructor
  case called => rw [ho.called, hx.called, List.append_assoc, List.singleton_append]
  case parked =>
    intro y hy
    obtain ⟨hin, hleft⟩ := ho.parked y (hx.parked y hy)
    refine ⟨hin, ?_⟩
    rw [hleft, hx.kept y (by simp [hy]), distance_append_left hy, distance_append_left hy]
  case visited =>
    intro y hy hnot
    simp only [List.mem_cons, not_or] at hnot
    have hy' : y ∈ R.map Prod.fst := by
      simpa [hnot.1] using hy
    obtain ⟨hin, hleft⟩ := ho.visited y (hx.ahead y hy') hnot.2
    refine ⟨hin, ?_⟩
    rw [hsum y hy', ← hx.kept y (by rw [List.map_append, List.mem_append]; exact Or.inr hy'),
      ← hleft]
    omega
  case absent =>
    intro y hy
    simp only [List.map_append, List.map_cons, List.mem_append, List.mem_cons, not_or] at hy
    obtain ⟨hyP, hyx, hyR⟩ := hy
    have hy' : y ∉ (P' ++ Q').map Prod.fst := by
      intro hin
      rcases hx.others y hin with heq | hin
      · exact hyx heq
      · rw [List.map_append, List.mem_append] at hin
        exact hin.elim hyP hyR
    obtain ⟨hout, htimer⟩ := ho.absent y hy'
    exact ⟨hout, htimer.trans (hx.timer y (Or.inl hyx))⟩
  case stopped =>
    intro y hy hno
    by_cases hin : y ∈ fired
    · exact ho.stopped y hin ((hx.option y).1.trans hno)
    · obtain rfl : y = x := by simpa [hin] using hy
      obtain ⟨hout, hstop⟩ := hx.stopped hno
      obtain ⟨hout', htimer⟩ := ho.absent y hout
      exact ⟨hout', by rw [htimer, hstop]⟩
  case option =>
    intro y
    exact ⟨(ho.option y).1.trans (hx.option y).1, (ho.option y).2.trans (hx.option y).2⟩

theorem Walk.outcome {fuel : Nat} (h : Walk ulong s P Q)
    (done : passLoop ulong fuel s u = some s') : ∃ fired, Outcome s s' P Q u fired := by
  induction fuel generalizing s P Q u with
  | zero => cases done
  | succ fuel ih =>
    rw [passLoop] at done
    cases Q with
    | nil =>
      rw [h.round_nil] at done
      obtain rfl := Option.some.inj done
      exact ⟨[], h.outcome_nil⟩
    | cons q R =>
      obtain ⟨x, c⟩ := q
      by_cases hlt : u < c
      · rw [h.round_stops hlt] at done
        obtain rfl := Option.some.inj done
        exact ⟨[], h.outcome_stops hlt⟩
      · have hle : c ≤ u := Nat.le_of_not_lt hlt
        rw [h.round_expires hle] at done
        obtain ⟨P', Q', hx⟩ := h.expire
        obtain ⟨fired, ho⟩ := ih hx.walk done
        exact ⟨x :: fired, hx.outcome h hle ho⟩

def due : Nat → List (ι × Nat) → List ι
  | _, [] => []
  | e, (x, c) :: rest => if c ≤ e then x :: due (e - c) rest else []

omit [DecidableEq ι] in
theorem due_sublist (e : Nat) (Q : List (ι × Nat)) : (due e Q).Sublist (Q.map Prod.fst) := by
  induction Q generalizing e with
  | nil => exact List.Sublist.refl _
  | cons q Q ih =>
    simp only [due]
    split
    · exact (ih _).cons_cons _
    · exact List.nil_sublist _

theorem mem_due_iff (hkeys : (Q.map Prod.fst).Nodup) :
    x ∈ due e Q ↔ x ∈ Q.map Prod.fst ∧ distance x Q ≤ e := by
  induction Q generalizing e with
  | nil => simp [due]
  | cons q Q ih =>
    obtain ⟨z, d⟩ := q
    simp only [List.map_cons, List.nodup_cons] at hkeys
    simp only [due, List.map_cons, List.mem_cons]
    by_cases hx : x = z
    · subst hx
      rw [distance_cons_self]
      split <;> simp_all
    · rw [distance_cons_of_ne (Ne.symm hx)]
      split
      next hle =>
        rw [List.mem_cons, ih hkeys.2]
        simp only [hx, false_or]
        refine and_congr_right fun _ => ?_
        omega
      next hlt =>
        simp only [hx, false_or, List.not_mem_nil, false_iff, not_and]
        intro _
        omega

omit [DecidableEq ι] in
theorem due_insert (hn : 0 < n) : due 0 (DeltaList.insert x n Q) = due 0 Q := by
  induction Q generalizing n with
  | nil =>
    have hnot : ¬ n ≤ 0 := by omega
    simp [DeltaList.insert, due, hnot]
  | cons q Q ih =>
    obtain ⟨z, d⟩ := q
    simp only [DeltaList.insert]
    split
    · simp only [due]
      by_cases hd : d ≤ 0
      · rw [if_pos hd, if_pos hd, Nat.zero_sub, ih (by omega)]
      · rw [if_neg hd, if_neg hd]
    · rw [due, if_neg (by omega), due, if_neg (by omega)]

structure Serves (s s' : Service ι) (P Q : List (ι × Nat)) (u : Nat) (l : List ι) : Prop where
  outcome : Outcome s s' P Q u l
  restarted : ∀ x ∈ l, (s.timer x).autoRestart = true →
    inQ s'.wu x ∧ s'.left x = (s.timer x).ulCounterSave

theorem Expired.serves {s₁ : Service ι} {P' Q' : List (ι × Nat)} {l : List ι}
    (h : Walk ulong s P ((x, c) :: R)) (hle : c ≤ u) (hx : Expired ulong s s₁ x P R P' Q')
    (hself : (s.timer x).autoRestart = true → x ∈ P'.map Prod.fst ∨ x ∉ l ∧ u = c)
    (ho : Serves s₁ s' P' Q' (u - c) l) : Serves s s' P ((x, c) :: R) u (x :: l) := by
  refine ⟨hx.outcome h hle ho.outcome, fun y hy hauto => ?_⟩
  have hoption := hx.option y
  by_cases hin : y ∈ l
  · rw [← hoption.2]
    exact ho.restarted y hin (hoption.1.trans hauto)
  · obtain rfl : y = x := by simpa [hin] using hy
    obtain ⟨hmem, hdist⟩ := hx.restarted hauto
    rw [List.map_append, List.mem_append] at hmem
    by_cases hparked : y ∈ P'.map Prod.fst
    · obtain ⟨hq, hleft⟩ := ho.outcome.parked y hparked
      exact ⟨hq, hleft.trans hdist⟩
    · obtain ⟨hq, hleft⟩ := ho.outcome.visited y (hmem.resolve_left hparked) hin
      have hused := ((hself hauto).resolve_left hparked).2
      refine ⟨hq, ?_⟩
      rw [hdist] at hleft
      omega

omit [DecidableEq ι] in
theorem lower_head_pos {delta : Nat} (h : ∀ p ∈ R.head?, delta < p.2) :
    due 0 (lower delta R) = [] := by
  cases R with
  | nil => rfl
  | cons p R =>
    have hp := h p (by simp)
    rw [lower, due, if_neg]
    omega

theorem Walk.expire_last (h : Walk ulong s P ((x, c) :: R)) (hS : (P.map Prod.snd).sum = 0) :
    ∃ P' Q', Expired ulong s (ITimer.expire s { line := P ++ R, op := R.head?.map Prod.fst } x)
        x P R P' Q' ∧
      ((P'.map Prod.snd).sum = 0 ∨ due 0 Q' = []) ∧ due 0 Q' = due 0 R := by
  cases hauto : (s.timer x).autoRestart with
  | false => exact ⟨P, R, h.expire_stops hauto, Or.inl hS, rfl⟩
  | true =>
    have hperiod := (h.period x hauto).1
    refine ⟨_, _, h.expire_restarts hauto, ?_⟩
    by_cases hroom : ∀ p ∈ R.head?, (s.timer x).ulCounterSave < p.2 + 0
    · obtain ⟨-, -, hrest⟩ := place_parked (x := x) hS hroom
      have hlower : due 0 (place x (s.timer x).ulCounterSave P R).2 = [] := by
        rw [hrest]
        apply lower_head_pos
        intro p hp
        have := hroom p hp
        omega
      have hnone : due 0 R = [] := by
        rw [← lower_zero R]
        apply lower_head_pos
        intro p hp
        have := hroom p hp
        omega
      exact ⟨Or.inr hlower, hlower.trans hnone.symm⟩
    · push Not at hroom
      obtain ⟨p, hp, hgap⟩ := hroom
      rw [place_behind hp (by omega), hS]
      exact ⟨Or.inl rfl, due_insert (by omega)⟩

theorem Walk.serves_last (h : Walk ulong s P Q)
    (hS : (P.map Prod.snd).sum = 0 ∨ due 0 Q = []) :
    ∃ fuel s', passLoop ulong fuel s 0 = some s' ∧ Serves s s' P Q 0 (due 0 Q) := by
  induction hk : (due 0 Q).length generalizing s P Q with
  | zero =>
    have hnone : due 0 Q = [] := List.length_eq_zero_iff.mp hk
    rw [hnone]
    cases Q with
    | nil =>
      refine ⟨1, _, ?_, h.outcome_nil, by simp⟩
      rw [passLoop, h.round_nil]
    | cons q R =>
      obtain ⟨x, c⟩ := q
      have hlt : 0 < c := by
        by_contra hc
        rw [due, if_pos (by omega)] at hnone
        cases hnone
      refine ⟨1, _, ?_, h.outcome_stops hlt, by simp⟩
      rw [passLoop, h.round_stops hlt]
  | succ k ih =>
    cases Q with
    | nil => simp [due] at hk
    | cons q R =>
      obtain ⟨x, c⟩ := q
      have hc : c = 0 := by
        by_contra hc
        rw [due, if_neg (by omega)] at hk
        simp at hk
      subst hc
      have hdue : due 0 ((x, 0) :: R) = x :: due 0 R := by simp [due]
      have hzero : (P.map Prod.snd).sum = 0 := by
        refine hS.resolve_right ?_
        rw [hdue]
        simp
      obtain ⟨P', Q', hx, hS', hsame⟩ := h.expire_last hzero
      rw [hdue, List.length_cons, Nat.add_right_cancel_iff] at hk
      obtain ⟨fuel, s', hloop, hserves⟩ := ih hx.walk hS' (by rw [hsame, hk])
      rw [hsame] at hserves
      refine ⟨fuel + 1, s', ?_, ?_⟩
      · rw [passLoop, h.round_expires (Nat.le_refl 0)]
        exact hloop
      · rw [hdue]
        refine hx.serves h (Nat.le_refl 0) (fun _ => Or.inr ⟨fun hin => ?_, rfl⟩) hserves
        exact h.notMem.2.1 ((due_sublist 0 R).subset hin)

omit [DecidableEq ι] in
theorem roomy_congr {t t' : ι → Timer} (same : ∀ x, (t' x).autoRestart = (t x).autoRestart ∧
    (t' x).ulCounterSave = (t x).ulCounterSave) (S e : Nat) (Q : List (ι × Nat)) :
    Roomy t' S e Q ↔ Roomy t S e Q := by
  induction Q generalizing S e with
  | nil => exact Iff.rfl
  | cons q Q ih =>
    simp only [Roomy, (same _).1, (same _).2, ih]

theorem Walk.serves {S delta : Nat} (h : Walk ulong s P (lower delta Q))
    (hS : (P.map Prod.snd).sum = S) (hu : u + delta = e + S) (hdelta : delta ≤ S)
    (hhead : ∀ p ∈ Q.head?, delta ≤ p.2) (hroomy : Roomy s.timer S e Q) :
    ∃ fuel s', passLoop ulong fuel s u = some s' ∧ Serves s s' P (lower delta Q) u (due e Q) := by
  induction Q generalizing s P u e S delta with
  | nil =>
    refine ⟨1, _, ?_, h.outcome_nil, by simp [due]⟩
    rw [passLoop, h.round_nil]
  | cons q R ih =>
    obtain ⟨x, d⟩ := q
    have hd : delta ≤ d := hhead (x, d) (by simp)
    simp only [lower] at h ⊢
    simp only [Roomy] at hroomy
    by_cases hlt : e < d
    · rw [if_pos hlt] at hroomy
      rw [due, if_neg (by omega)]
      refine ⟨1, _, ?_, h.outcome_stops (by omega), by simp⟩
      rw [passLoop, h.round_stops (by omega)]
    rw [if_neg hlt] at hroomy
    have hle : d - delta ≤ u := by omega
    have hdue : due e ((x, d) :: R) = x :: due (e - d) R := by
      rw [due, if_pos (by omega)]
    have hfirst : x ∉ due (e - d) R := fun hin => h.notMem.2.1 ((due_sublist _ R).subset hin)
    rw [hdue]
    by_cases hused : d = e ∧ S = 0
    · obtain ⟨rfl, rfl⟩ := hused
      have hu0 : u = d - delta := by omega
      obtain ⟨P', Q', hx, hS', hsame⟩ := h.expire_last hS
      obtain ⟨fuel, s', hloop, hserves⟩ := hx.walk.serves_last hS'
      rw [hsame] at hserves
      refine ⟨fuel + 1, s', ?_, ?_⟩
      · rw [passLoop, h.round_expires hle, hu0, Nat.sub_self]
        exact hloop
      · refine hx.serves h hle (fun _ => Or.inr ⟨hfirst, hu0⟩) ?_
        rw [hu0, Nat.sub_self, Nat.sub_self]
        exact hserves
    rw [if_neg hused] at hroomy
    cases hauto : (s.timer x).autoRestart with
    | true =>
      rw [hauto, if_pos rfl] at hroomy
      obtain ⟨hroom, hrest⟩ := hroomy
      have hx := h.expire_restarts hauto
      obtain ⟨hin, hsum, hlower⟩ := place_parked (x := x) hS hroom
      rw [hlower] at hx
      rw [← roomy_congr hx.option] at hrest
      obtain ⟨fuel, s', hloop, hserves⟩ := ih (u := u - (d - delta)) (e := e - d)
        (S := max S (s.timer x).ulCounterSave) hx.walk hsum (by omega) (by omega)
        (fun p hp => by have := hroom p hp; omega) hrest
      refine ⟨fuel + 1, s', ?_, ?_⟩
      · rw [passLoop, h.round_expires hle]
        exact hloop
      · exact hx.serves h hle (fun _ => Or.inl hin) hserves
    | false =>
      rw [hauto, if_neg Bool.false_ne_true] at hroomy
      have hx := h.expire_stops hauto
      rw [← roomy_congr hx.option] at hroomy
      have hwalk : Walk ulong (ITimer.expire s { line := P ++ R, op := R.head?.map Prod.fst } x) P
          (lower 0 R) := by
        rw [lower_zero]
        exact hx.walk
      obtain ⟨fuel, s', hloop, hserves⟩ := ih (u := u - (d - delta)) (e := e - d) hwalk hS
        (by omega) (by omega) (fun p _ => by omega) hroomy
      rw [lower_zero] at hserves
      refine ⟨fuel + 1, s', ?_, ?_⟩
      · rw [passLoop, h.round_expires hle]
        exact hloop
      · refine hx.serves h hle (fun hyes => ?_) hserves
        rw [hauto] at hyes
        cases hyes

theorem Walk.roomy {S delta fuel : Nat} (h : Walk ulong s P (lower delta Q))
    (hS : (P.map Prod.snd).sum = S) (hu : u + delta = e + S) (hdelta : delta ≤ S)
    (hhead : ∀ p ∈ Q.head?, delta ≤ p.2) (done : passLoop ulong fuel s u = some s')
    (hfired : ∀ fired, s'.called = s.called ++ fired →
      fired.Nodup ∧ ∀ y ∈ Q.map Prod.fst, y ∈ fired → distance y Q ≤ e)
    (hrestart : ∀ y ∈ Q.map Prod.fst, distance y Q ≤ e → (s.timer y).autoRestart = true →
      s'.left y = (s.timer y).ulCounterSave) : Roomy s.timer S e Q := by
  induction Q generalizing s P u e S delta fuel with
  | nil => trivial
  | cons q R ih =>
    obtain ⟨x, d⟩ := q
    have hd : delta ≤ d := hhead (x, d) (by simp)
    simp only [lower] at h
    cases fuel with
    | zero => cases done
    | succ fuel =>
      rw [passLoop] at done
      -- once a timer has expired, the rest of the pass is judged by the same measure
      have hrest : ∀ (s₁ : Service ι) P' Q', d ≤ e → Expired ulong s s₁ x P R P' Q' →
          passLoop ulong fuel s₁ (u - (d - delta)) = some s' →
          (∀ fired, s'.called = s₁.called ++ fired → (x :: fired).Nodup ∧
            ∀ y ∈ R.map Prod.fst, y ∈ fired → distance y R ≤ e - d) ∧
          ∀ y ∈ R.map Prod.fst, distance y R ≤ e - d → (s₁.timer y).autoRestart = true →
            s'.left y = (s₁.timer y).ulCounterSave := by
        intro s₁ P' Q' hde hx hloop
        have hsum : ∀ y ∈ R.map Prod.fst, distance y ((x, d) :: R) = d + distance y R := by
          intro y hy
          exact distance_cons_of_ne (fun heq : x = y => h.notMem.2.1 (heq ▸ hy)) d R
        constructor
        · intro fired hcalled
          rw [hx.called, List.append_assoc, List.singleton_append] at hcalled
          obtain ⟨hnodup, honly⟩ := hfired (x :: fired) hcalled
          refine ⟨hnodup, fun y hy hin => ?_⟩
          have hle := honly y (by simp only [List.map_cons, List.mem_cons]; exact Or.inr hy)
            (List.mem_cons_of_mem x hin)
          rw [hsum y hy] at hle
          omega
        · intro y hy hle hauto
          rw [(hx.option y).2]
          refine hrestart y (by simp only [List.map_cons, List.mem_cons]; exact Or.inr hy) ?_
            ((hx.option y).1.symm.trans hauto)
          rw [hsum y hy]
          omega
      have hself := hrestart x (by simp)
      rw [distance_cons_self] at hself
      simp only [Roomy]
      by_cases hlt : e < d
      · rw [if_pos hlt]
        by_contra hearly
        rw [h.round_expires (by omega)] at done
        obtain ⟨P', Q', hx⟩ := h.expire
        obtain ⟨fired, ho⟩ := hx.walk.outcome done
        have hcalled := ho.called
        rw [hx.called, List.append_assoc, List.singleton_append] at hcalled
        have hle := (hfired _ hcalled).2 x (by simp) (by simp)
        rw [distance_cons_self] at hle
        omega
      rw [if_neg hlt]
      split
      next => trivial
      next hused =>
        have hle : d - delta ≤ u := by omega
        rw [h.round_expires hle] at done
        cases hauto : (s.timer x).autoRestart with
        | false =>
          rw [if_neg Bool.false_ne_true]
          have hx := h.expire_stops hauto
          obtain ⟨hfired', hrestart'⟩ := hrest _ P R (by omega) hx done
          have hwalk : Walk ulong
              (ITimer.expire s { line := P ++ R, op := R.head?.map Prod.fst } x) P (lower 0 R) := by
            rw [lower_zero]
            exact hx.walk
          rw [← roomy_congr hx.option]
          exact ih hwalk hS (by omega) (by omega) (fun p _ => by omega) done
            (fun fired hcalled => ⟨(List.nodup_cons.mp (hfired' fired hcalled).1).2,
              (hfired' fired hcalled).2⟩) hrestart'
        | true =>
          rw [if_pos rfl]
          have hx := h.expire_restarts hauto
          obtain ⟨hfired', hrestart'⟩ := hrest _ _ _ (by omega) hx done
          have hroom : ∀ p ∈ R.head?, (s.timer x).ulCounterSave < p.2 + S := by
            -- otherwise the pass visits the timer a second time, or charges it with the rest
            intro p hp
            by_contra hgap
            have hbehind := place_behind (x := x) hp (n := (s.timer x).ulCounterSave)
              (P := P) (by omega)
            obtain ⟨fired, ho⟩ := hx.walk.outcome done
            have hnot := (List.nodup_cons.mp (hfired' fired ho.called).1).1
            have hmem : x ∈ (place x (s.timer x).ulCounterSave P R).2.map Prod.fst := by
              rw [hbehind]
              exact mem_insert_keys.mpr (Or.inl rfl)
            have hleft := (ho.visited x hmem hnot).2
            rw [(hx.restarted hauto).2, hself (by omega) hauto] at hleft
            omega
          obtain ⟨-, hsum, hlower⟩ := place_parked (x := x) hS hroom
          rw [hlower] at hx
          refine ⟨hroom, ?_⟩
          rw [← roomy_congr hx.option]
          exact ih hx.walk hsum (by omega) (by omega)
            (fun p hp => by have := hroom p hp; omega) done
            (fun fired hcalled => ⟨(List.nodup_cons.mp (hfired' fired hcalled).1).2,
              (hfired' fired hcalled).2⟩) hrestart'

theorem Served.roomy (hserved : Served s s' e) (sound : s.Sound ulong)
    (done : Passes ulong s e s') : Roomy s.timer 0 e s.wu.line := by
  have hwalk : Walk ulong { s with wu := passFirst s.wu } [] (lower 0 s.wu.line) := by
    rw [lower_zero]
    exact sound.walk
  obtain ⟨fuel, hloop⟩ := done
  obtain ⟨fired, hcalled, hnodup, hmem⟩ := hserved.called
  refine hwalk.roomy rfl rfl (Nat.le_refl 0) (fun p _ => Nat.zero_le _) hloop ?_ ?_
  · intro fired' hcalled'
    have hsame : fired' = fired := List.append_cancel_left (hcalled'.symm.trans hcalled)
    rw [hsame]
    exact ⟨hnodup, fun y _ hin => ((hmem y).mp hin).2⟩
  · intro y hy hle hauto
    exact (hserved.restarted y hy hle hauto).2

/-- A pass comes to its end and serves the timers exactly when what it parks has room. -/
theorem pass_serves_iff (ulong : Nat) (s : Service ι) (e : Nat) (sound : s.Sound ulong) :
    (∃ s', Passes ulong s e s' ∧ Served s s' e) ↔ Roomy s.timer 0 e s.wu.line := by
  constructor
  · rintro ⟨s', hdone, hserved⟩
    exact hserved.roomy sound hdone
  · intro hroomy
    have hwalk : Walk ulong { s with wu := passFirst s.wu } [] (lower 0 s.wu.line) := by
      rw [lower_zero]
      exact sound.walk
    obtain ⟨fuel, s', hloop, hserves⟩ := hwalk.serves (u := e) rfl rfl (Nat.le_refl 0)
      (fun p _ => Nat.zero_le _) hroomy
    have hdue : ∀ x, x ∈ due e s.wu.line ↔ inQ s.wu x ∧ s.left x ≤ e :=
      fun x => mem_due_iff sound.keys
    have hline : ([] : List (ι × Nat)) ++ lower 0 s.wu.line = s.wu.line := by
      rw [lower_zero]
      rfl
    refine ⟨s', ⟨fuel, hloop⟩, ?_, ?_, ?_, ?_⟩
    · exact ⟨_, hserves.outcome.called, (due_sublist e _).nodup sound.keys, hdue⟩
    · intro x hx hle hauto
      exact hserves.restarted x ((hdue x).mpr ⟨hx, hle⟩) hauto
    · intro x hx hle hno
      exact hserves.outcome.stopped x ((hdue x).mpr ⟨hx, hle⟩) hno
    · intro x hx hlt
      have hnot : x ∉ due e s.wu.line := fun hin => absurd ((hdue x).mp hin).2 (by omega)
      have hin : x ∈ (lower 0 s.wu.line).map Prod.fst := by
        rw [lower_zero]
        exact hx
      obtain ⟨hq, hleft⟩ := hserves.outcome.visited x hin hnot
      rw [hline] at hleft
      refine ⟨hq, ?_⟩
      unfold Service.left at hlt ⊢
      unfold Service.left at hleft
      omega

def twoTimers : Service Nat where
  wu := { line := [(0, 5), (1, 5)], op := none }
  timer := fun x => { autoRestart := x == 0, ulCounterSave := 4, running := true }
  called := []

theorem twoTimers_sound : twoTimers.Sound (2 ^ 32) :=
  ⟨by decide, by decide, fun x _ => by simp [twoTimers]⟩

theorem pass_serves_two :
    (∃ s', Passes (2 ^ 32) twoTimers 5 s' ∧ Served twoTimers s' 5) ↔
      Roomy twoTimers.timer 0 5 twoTimers.wu.line :=
  pass_serves_iff (2 ^ 32) twoTimers 5 twoTimers_sound

/-- After 7 the second timer has 3 left and is called all the same. -/
theorem timer_called_early :
    ¬ (∃ s', Passes (2 ^ 32) twoTimers 7 s' ∧ Served twoTimers s' 7) ∧ twoTimers.left 1 = 10 ∧
      (passLoop (2 ^ 32) 3 { twoTimers with wu := passFirst twoTimers.wu } 7).map
        (fun s' => s'.called) = some [0, 1] := by
  refine ⟨?_, by decide, by decide⟩
  rintro ⟨s', hdone, hserved⟩
  have hroomy := hserved.roomy twoTimers_sound hdone
  revert hroomy
  decide

end SylixOS.ITimer
