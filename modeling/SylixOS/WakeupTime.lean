import SylixOS.WakeupLine

/-! `_WakeupAdd` and `_WakeupDel` with `bProcTime`, for a line that is not charged by a
periodic tick: the time that has passed since `WU_i64LastTime` is charged to the first
node. What the first node cannot take is lost to the nodes behind it. -/

namespace SylixOS.WakeupLine
open DeltaList

variable {ι : Type*} [DecidableEq ι]

structure TimedWakeup (ι : Type*) extends Wakeup ι where
  pfuncWakeup : Bool
  i64LastTime : Int

variable (ulong : Nat)

def ulongOf (i64 : Int) : Nat := (i64 % ulong).toNat

def charge (ulCounter : Nat) : List (ι × Nat) → List (ι × Nat)
  | [] => []
  | (y, c) :: rest => (y, if c > ulCounter then c - ulCounter else 0) :: rest

/-- `_WakeupAdd`; `WU_pfuncWakeup`, which it calls at the end, does not touch the line. -/
def wakeupAddTime (w : TimedWakeup ι) (x : ι) (n : Nat) (bProcTime : Bool) (i64CurTime : Int) :
    TimedWakeup ι :=
  let w' :=
    if bProcTime && !w.line.isEmpty && w.pfuncWakeup then
      { w with
        line := charge (ulongOf ulong (i64CurTime - w.i64LastTime)) w.line
        i64LastTime := i64CurTime }
    else w
  let bSaveTime := w.line.isEmpty
  { w' with
    toWakeup := wakeupAdd w'.toWakeup x n
    i64LastTime := if bProcTime && w.pfuncWakeup && bSaveTime then i64CurTime else w'.i64LastTime }

def wakeupDelTime (w : TimedWakeup ι) (x : ι) (bProcTime : Bool) (i64CurTime : Int) :
    TimedWakeup ι :=
  let w' := { w with toWakeup := wakeupDel ulong w.toWakeup x }
  if bProcTime && w.line.head?.map Prod.fst == some x && w.pfuncWakeup then
    { w' with
      line := charge (ulongOf ulong (i64CurTime - w.i64LastTime)) w'.line
      i64LastTime := i64CurTime }
  else w'

def timeLeft (w : TimedWakeup ι) (i64CurTime : Int) (x : ι) : Nat :=
  distance x w.line - (i64CurTime - w.i64LastTime).toNat

structure TimedWakeup.Sound (w : TimedWakeup ι) : Prop where
  keys : (w.line.map Prod.fst).Nodup
  span : (w.line.map Prod.snd).sum < ulong

def OthersCharged (w w' : TimedWakeup ι) (x : ι) (e : Nat) : Prop :=
  ∀ y, inQ w.toWakeup y → y ≠ x →
    inQ w'.toWakeup y ∧ timeLeft w' (w.i64LastTime + e) y = timeLeft w w.i64LastTime y - e

/-- The first node can take what has passed, or all nodes have run out at once (and the cast
does not hide it). -/
def Absorbs (e : Nat) : List (ι × Nat) → Prop
  | [] => True
  | (_, c) :: rest => e ≤ c ∨ c ≤ e % ulong ∧ ∀ p ∈ rest, p.2 = 0

instance Absorbs.decidable (e : Nat) : (d : List (ι × Nat)) → Decidable (Absorbs ulong e d)
  | [] => isTrue trivial
  | (_, c) :: rest => inferInstanceAs (Decidable (e ≤ c ∨ c ≤ e % ulong ∧ ∀ p ∈ rest, p.2 = 0))

def AbsorbsWithout (x : ι) (e : Nat) : List (ι × Nat) → Prop
  | (y, c) :: (z, d) :: rest => y = x → Absorbs ulong e ((z, d + c) :: rest)
  | _ => True

variable {ulong} {w : TimedWakeup ι} {x y : ι} {n e u : Nat} {d : List (ι × Nat)}

theorem ulongOf_natCast (e : Nat) : ulongOf ulong e = e % ulong := rfl

theorem elapsed_eq (last : Int) (e : Nat) : last + e - last = e := by omega

omit [DecidableEq ι] in
@[simp] theorem charge_keys : (charge u d).map Prod.fst = d.map Prod.fst := by
  cases d <;> rfl

theorem timeLeft_now (w : TimedWakeup ι) (x : ι) :
    timeLeft w w.i64LastTime x = distance x w.line := by
  simp [timeLeft]

theorem distance_charge {c : Nat} {z : ι} (y : ι) (u : Nat) (rest : List (ι × Nat)) :
    distance y (charge u ((z, c) :: rest)) = distance y ((z, c) :: rest) - min u c := by
  by_cases hz : z = y
  · subst hz
    simp only [charge, distance_cons_self]
    split <;> omega
  · simp only [charge, distance_cons_of_ne hz]
    split <;> omega

theorem charged_iff (hkeys : (d.map Prod.fst).Nodup) (hspan : (d.map Prod.snd).sum < ulong) :
    (∀ y ∈ d.map Prod.fst, distance y (charge (e % ulong) d) = distance y d - e) ↔
      Absorbs ulong e d := by
  cases d with
  | nil => simp [Absorbs]
  | cons p rest =>
    obtain ⟨z, c⟩ := p
    simp only [distance_charge, Absorbs]
    simp only [List.map_cons, List.nodup_cons, List.sum_cons] at hkeys hspan
    have hother : ∀ y ∈ rest.map Prod.fst, distance y ((z, c) :: rest) = c + distance y rest := by
      intro y hy
      exact distance_cons_of_ne (fun heq : z = y => hkeys.1 (heq ▸ hy)) c rest
    have hmod : e % ulong ≤ e := Nat.mod_le e ulong
    constructor
    · intro h
      have hfirst := h z (by simp)
      rw [distance_cons_self] at hfirst
      by_cases hle : e ≤ c
      · exact Or.inl hle
      · have hcap : c ≤ e % ulong := by omega
        refine Or.inr ⟨hcap, (distance_eq_zero_iff hkeys.2).mp fun y hy => ?_⟩
        have hy' := h y (by simp only [List.map_cons, List.mem_cons]; exact Or.inr hy)
        rw [hother y hy] at hy'
        omega
    · intro h y hy
      rcases h with hle | ⟨hcap, hzero⟩
      · have hfit : e % ulong = e := Nat.mod_eq_of_lt (by omega)
        rw [hfit]
        omega
      · have hdist : distance y ((z, c) :: rest) ≤ c := by
          rcases List.mem_cons.mp hy with rfl | hy
          · exact (distance_cons_self _ c rest).le
          · rw [hother y hy, (distance_eq_zero_iff hkeys.2).mpr hzero y hy]
            omega
        omega

variable (ulong x n e) in
omit [DecidableEq ι] in
theorem wakeupAddTime_charged (hw : w.line ≠ []) (hfunc : w.pfuncWakeup = true) :
    (wakeupAddTime ulong w x n true (w.i64LastTime + e)).line =
      DeltaList.insert x n (charge (e % ulong) w.line) ∧
    (wakeupAddTime ulong w x n true (w.i64LastTime + e)).i64LastTime = w.i64LastTime + e := by
  have hempty : w.line.isEmpty = false := by simpa using hw
  simp [wakeupAddTime, wakeupAdd, hempty, hfunc, elapsed_eq, ulongOf_natCast]

variable (ulong x n) in
omit [DecidableEq ι] in
theorem wakeupAddTime_empty (hw : w.line = []) (hfunc : w.pfuncWakeup = true) (i64CurTime : Int) :
    (wakeupAddTime ulong w x n true i64CurTime).line = [(x, n)] ∧
    (wakeupAddTime ulong w x n true i64CurTime).i64LastTime = i64CurTime := by
  simp [wakeupAddTime, wakeupAdd, hw, hfunc, DeltaList.insert]

variable (ulong x n) in
omit [DecidableEq ι] in
theorem wakeupAddTime_unserved (hfunc : w.pfuncWakeup = false) (i64CurTime : Int) :
    (wakeupAddTime ulong w x n true i64CurTime).line = DeltaList.insert x n w.line ∧
    (wakeupAddTime ulong w x n true i64CurTime).i64LastTime = w.i64LastTime := by
  simp [wakeupAddTime, wakeupAdd, hfunc]

def AddedInTime (w w' : TimedWakeup ι) (x : ι) (n e : Nat) : Prop :=
  OthersCharged w w' x e ∧ inQ w'.toWakeup x ∧ timeLeft w' (w.i64LastTime + e) x = n

theorem addedInTime_unserved (hfunc : w.pfuncWakeup = false) (hx : ¬ inQ w.toWakeup x) :
    AddedInTime w (wakeupAddTime ulong w x n true (w.i64LastTime + e)) x n e ↔ e = 0 ∨ n = 0 := by
  obtain ⟨hline, hlast⟩ := wakeupAddTime_unserved ulong x n hfunc
    (w.i64LastTime + e)
  have hself : timeLeft (wakeupAddTime ulong w x n true (w.i64LastTime + e)) (w.i64LastTime + e) x =
      n - e := by
    unfold timeLeft
    rw [hline, hlast, distance_insert_self hx]
    omega
  constructor
  · rintro ⟨-, -, hleft⟩
    rw [hself] at hleft
    omega
  · intro h
    refine ⟨fun y hy hne => ⟨?_, ?_⟩, ?_, ?_⟩
    · unfold inQ
      rw [hline, mem_insert_keys]
      exact Or.inr hy
    · unfold timeLeft
      rw [hline, hlast, distance_insert_of_ne hy hne]
      omega
    · unfold inQ
      rw [hline, mem_insert_keys]
      exact Or.inl rfl
    · rw [hself]
      omega

theorem addedInTime_served (hsound : w.Sound ulong) (hfunc : w.pfuncWakeup = true)
    (hx : ¬ inQ w.toWakeup x) :
    AddedInTime w (wakeupAddTime ulong w x n true (w.i64LastTime + e)) x n e ↔
      Absorbs ulong e w.line := by
  by_cases hw : w.line = []
  · obtain ⟨hline, hlast⟩ := wakeupAddTime_empty ulong x n hw hfunc
      (w.i64LastTime + e)
    rw [hw]
    refine iff_of_true ⟨fun y hy => ?_, ?_, ?_⟩ trivial
    · unfold inQ at hy
      rw [hw] at hy
      simp at hy
    · simp [inQ, hline]
    · simp [timeLeft, hline, hlast, distance]
  · obtain ⟨hline, hlast⟩ :=
      wakeupAddTime_charged ulong x n e hw hfunc
    have hne : ∀ y, inQ w.toWakeup y → y ≠ x := fun y hy heq => hx (heq ▸ hy)
    have hmem : ∀ y, inQ w.toWakeup y ↔ y ∈ (charge (e % ulong) w.line).map Prod.fst := by
      intro y
      rw [charge_keys]
      rfl
    have hleft : ∀ y, inQ w.toWakeup y →
        timeLeft (wakeupAddTime ulong w x n true (w.i64LastTime + e)) (w.i64LastTime + e) y =
          distance y (charge (e % ulong) w.line) := by
      intro y hy
      unfold timeLeft
      rw [hline, hlast, distance_insert_of_ne ((hmem y).mp hy) (hne y hy)]
      omega
    rw [← charged_iff hsound.keys hsound.span]
    constructor
    · rintro ⟨hothers, -, -⟩ y hy
      rw [← hleft y hy, (hothers y hy (hne y hy)).2, timeLeft_now]
    · intro h
      refine ⟨fun y hy _ => ⟨?_, ?_⟩, ?_, ?_⟩
      · unfold inQ
        rw [hline, mem_insert_keys, ← hmem]
        exact Or.inr hy
      · rw [hleft y hy, timeLeft_now]
        exact h y hy
      · unfold inQ
        rw [hline, mem_insert_keys]
        exact Or.inl rfl
      · have hx' : x ∉ (charge (e % ulong) w.line).map Prod.fst := by rwa [← hmem]
        unfold timeLeft
        rw [hline, hlast, distance_insert_self hx']
        omega

variable (ulong e) in
theorem wakeupDelTime_first (hfirst : w.line.head?.map Prod.fst = some x)
    (hfunc : w.pfuncWakeup = true) :
    (wakeupDelTime ulong w x true (w.i64LastTime + e)).line =
      charge (e % ulong) (remove ulong x w.line) ∧
    (wakeupDelTime ulong w x true (w.i64LastTime + e)).i64LastTime = w.i64LastTime + e := by
  simp [wakeupDelTime, wakeupDel, hfirst, hfunc, elapsed_eq, ulongOf_natCast]

variable (ulong) in
theorem wakeupDelTime_other (h : w.line.head?.map Prod.fst ≠ some x ∨ w.pfuncWakeup = false)
    (i64CurTime : Int) :
    (wakeupDelTime ulong w x true i64CurTime).line = remove ulong x w.line ∧
    (wakeupDelTime ulong w x true i64CurTime).i64LastTime = w.i64LastTime := by
  have hcond : (w.line.head?.map Prod.fst == some x && w.pfuncWakeup) = false := by
    rcases h with hother | hfunc
    · rw [beq_false_of_ne hother]
      rfl
    · rw [hfunc, Bool.and_false]
  unfold wakeupDelTime
  simp only [Bool.true_and, hcond, Bool.false_eq_true, if_false]
  exact ⟨rfl, trivial⟩

def DeletedInTime (w w' : TimedWakeup ι) (x : ι) (e : Nat) : Prop :=
  OthersCharged w w' x e ∧ ¬ inQ w'.toWakeup x

theorem deletedInTime_other (hsound : w.Sound ulong)
    (h : w.line.head?.map Prod.fst ≠ some x ∨ w.pfuncWakeup = false) :
    DeletedInTime w (wakeupDelTime ulong w x true (w.i64LastTime + e)) x e := by
  obtain ⟨hline, hlast⟩ := wakeupDelTime_other ulong h (w.i64LastTime + e)
  have hmem : ∀ y, inQ (wakeupDelTime ulong w x true (w.i64LastTime + e)).toWakeup y ↔
      y ≠ x ∧ inQ w.toWakeup y := by
    intro y
    unfold inQ
    rw [hline, mem_remove_keys hsound.keys]
  refine ⟨fun y hy hne => ⟨(hmem y).mpr ⟨hne, hy⟩, ?_⟩, fun hx => ((hmem x).mp hx).1 rfl⟩
  unfold timeLeft
  rw [hline, hlast, distance_remove_of_ne hsound.span hy hne]
  omega

theorem deletedInTime_first (hsound : w.Sound ulong) (hfunc : w.pfuncWakeup = true)
    (hfirst : w.line.head?.map Prod.fst = some x) :
    DeletedInTime w (wakeupDelTime ulong w x true (w.i64LastTime + e)) x e ↔
      Absorbs ulong e (remove ulong x w.line) := by
  obtain ⟨hline, hlast⟩ := wakeupDelTime_first ulong e hfirst hfunc
  have hkeys : ((remove ulong x w.line).map Prod.fst).Nodup := by
    rw [remove_keys]
    exact hsound.keys.erase x
  have hspan : ((remove ulong x w.line).map Prod.snd).sum < ulong :=
    remove_sum_le.trans_lt hsound.span
  have hmem : ∀ y, y ∈ (remove ulong x w.line).map Prod.fst ↔ y ≠ x ∧ inQ w.toWakeup y :=
    fun y => mem_remove_keys hsound.keys
  have hinQ : ∀ y, inQ (wakeupDelTime ulong w x true (w.i64LastTime + e)).toWakeup y ↔
      y ≠ x ∧ inQ w.toWakeup y := by
    intro y
    unfold inQ
    rw [hline, charge_keys]
    exact hmem y
  have hleft : ∀ y, timeLeft (wakeupDelTime ulong w x true (w.i64LastTime + e))
      (w.i64LastTime + e) y = distance y (charge (e % ulong) (remove ulong x w.line)) := by
    intro y
    unfold timeLeft
    rw [hline, hlast]
    omega
  rw [← charged_iff hkeys hspan]
  constructor
  · rintro ⟨hothers, -⟩ y hy
    obtain ⟨hne, hq⟩ := (hmem y).mp hy
    rw [← hleft, (hothers y hq hne).2, timeLeft_now, distance_remove_of_ne hsound.span hq hne]
  · intro h
    refine ⟨fun y hy hne => ⟨(hinQ y).mpr ⟨hne, hy⟩, ?_⟩, fun hx => ((hinQ x).mp hx).1 rfl⟩
    rw [hleft, timeLeft_now, h y ((hmem y).mpr ⟨hne, hy⟩),
      distance_remove_of_ne hsound.span hy hne]

theorem absorbsWithout_iff (hspan : (d.map Prod.snd).sum < ulong)
    (hfirst : d.head?.map Prod.fst = some x) :
    AbsorbsWithout ulong x e d ↔ Absorbs ulong e (remove ulong x d) := by
  cases d with
  | nil => simp at hfirst
  | cons p d =>
    obtain ⟨y, c⟩ := p
    obtain rfl : y = x := by simpa using hfirst
    cases d with
    | nil => simp [AbsorbsWithout, remove, postpone, Absorbs]
    | cons q d =>
      obtain ⟨z, f⟩ := q
      simp only [List.map_cons, List.sum_cons] at hspan
      have hfit : (f + c) % ulong = f + c := Nat.mod_eq_of_lt (by omega)
      simp [AbsorbsWithout, remove, postpone, hfit]

omit [DecidableEq ι] in
theorem absorbsWithout_other (hother : d.head?.map Prod.fst ≠ some x) :
    AbsorbsWithout ulong x e d := by
  cases d with
  | nil => trivial
  | cons p d =>
    obtain ⟨y, c⟩ := p
    have hne : y ≠ x := by simpa using hother
    cases d with
    | nil => trivial
    | cons q d => exact fun heq => absurd heq hne

/-- The elapsed time is charged to every node exactly when the first of them can take it. -/
theorem elapsed_time_charged (ulong : Nat) (w : TimedWakeup ι) (e : Nat) (hsound : w.Sound ulong) :
    (∀ x n, ¬ inQ w.toWakeup x →
      (AddedInTime w (wakeupAddTime ulong w x n true (w.i64LastTime + e)) x n e ↔
        if w.pfuncWakeup then Absorbs ulong e w.line else e = 0 ∨ n = 0)) ∧
    (∀ x, inQ w.toWakeup x →
      (DeletedInTime w (wakeupDelTime ulong w x true (w.i64LastTime + e)) x e ↔
        (w.pfuncWakeup = true → AbsorbsWithout ulong x e w.line))) := by
  constructor
  · intro x n hx
    cases hfunc : w.pfuncWakeup with
    | false => simpa using addedInTime_unserved hfunc hx
    | true => simpa using addedInTime_served hsound hfunc hx
  · intro x _
    by_cases hfirst : w.line.head?.map Prod.fst = some x
    · rw [absorbsWithout_iff hsound.span hfirst]
      cases hfunc : w.pfuncWakeup with
      | false => simpa using deletedInTime_other hsound (Or.inr hfunc)
      | true => simpa using deletedInTime_first hsound hfunc hfirst
    · exact iff_of_true (deletedInTime_other hsound (Or.inl hfirst))
        (fun _ => absorbsWithout_other hfirst)

def twoTimers : TimedWakeup Nat := ⟨⟨[(1, 5), (2, 15)], none⟩, true, 100⟩

theorem elapsed_time_charged_two :
    (∀ x n, ¬ inQ twoTimers.toWakeup x →
      (AddedInTime twoTimers (wakeupAddTime (2 ^ 32) twoTimers x n true (100 + (4 : Nat))) x n 4 ↔
        if twoTimers.pfuncWakeup then Absorbs (2 ^ 32) 4 twoTimers.line else 4 = 0 ∨ n = 0)) ∧
    (∀ x, inQ twoTimers.toWakeup x →
      (DeletedInTime twoTimers (wakeupDelTime (2 ^ 32) twoTimers x true (100 + (4 : Nat))) x 4 ↔
        (twoTimers.pfuncWakeup = true → AbsorbsWithout (2 ^ 32) x 4 twoTimers.line))) :=
  elapsed_time_charged (2 ^ 32) twoTimers 4 ⟨by decide, by decide⟩

/-- After 10 the second timer has still to wait for 15, not for 10, when a third one is added. -/
theorem elapsed_time_lost :
    ¬ AddedInTime twoTimers
        (wakeupAddTime (2 ^ 32) twoTimers 3 30 true (100 + (10 : Nat))) 3 30 10 ∧
      timeLeft (wakeupAddTime (2 ^ 32) twoTimers 3 30 true (100 + (10 : Nat)))
        (100 + (10 : Nat)) 2 = 15 := by
  have hleft : timeLeft (wakeupAddTime (2 ^ 32) twoTimers 3 30 true (100 + (10 : Nat)))
      (100 + (10 : Nat)) 2 = 15 := by decide
  refine ⟨fun h => ?_, hleft⟩
  have hsecond := (h.1 2 (by decide) (by decide)).2
  rw [show twoTimers.i64LastTime = 100 from rfl, hleft] at hsecond
  revert hsecond
  decide

end SylixOS.WakeupLine
