import SylixOS.SemaphoreMRuns
import Mathlib.Data.Fintype.Basic
import Mathlib.Data.Fin.VecNotation

/-! Priorities of the owners of mutexes. `_EventPrioTryResume` knows of one mutex only,
and a post without waiters does not call it. -/

namespace SylixOS.SemaphoreM
open EventList StepRuns Function

variable {T M : Type*} {w : ℕ}

section Values

variable [DecidableEq T] {a : Attr} {ucPriority : T → Fin 256} {o t u : T}

theorem eventPrioTryBoost_inherit (hinherit : a.ulOption.inheritPriority = true) :
    eventPrioTryBoost a ucPriority (some o) t =
      update ucPriority o (min (ucPriority t) (ucPriority o)) := by
  simp only [eventPrioTryBoost, hinherit, if_true]
  split
  next hlow => rw [min_eq_left (le_of_lt hlow)]
  next hhigh => rw [min_eq_right (not_lt.mp hhigh), update_eq_self]

theorem eventPrioTryResume_eq (p : Fin 256) :
    eventPrioTryResume p ucPriority t = update ucPriority t p := by
  unfold eventPrioTryResume
  split
  next => rfl
  next hsame =>
    rw [← not_not.mp hsame, update_eq_self]

theorem eventPrioTryBoost_other (h : u ≠ o) :
    eventPrioTryBoost a ucPriority (some o) t u = ucPriority u := by
  simp only [eventPrioTryBoost]
  split
  next =>
    split
    next => exact update_of_ne h _ _
    next =>
      split
      next => exact update_of_ne h _ _
      next => rfl
  next => rfl

end Values

section Owners

variable [DecidableEq T] [DecidableEq M] {attr : M → Attr} {s : State T M w} {t u : T} {m n : M}

omit [DecidableEq T] in
theorem own_update {e : Event T w} :
    (update s.event m e n).pvTcbOwn =
      if n = m then e.pvTcbOwn else (s.event n).pvTcbOwn := by
  by_cases hn : n = m
  · rw [hn, update_self, if_pos rfl]
  · rw [update_of_ne hn, if_neg hn]

omit [DecidableEq T] in
theorem own_same {e : Event T w} (he : e.pvTcbOwn = (s.event m).pvTcbOwn) (n : M) :
    (update s.event m e n).pvTcbOwn = (s.event n).pvTcbOwn := by
  rw [own_update]
  split
  next hn => rw [hn, he]
  next => rfl

theorem take_own : ((s.take t m).event n).pvTcbOwn =
    if n = m then some t else (s.event n).pvTcbOwn := own_update

theorem free_own : ((s.free t m).event n).pvTcbOwn =
    if n = m then none else (s.event n).pvTcbOwn := own_update

theorem handOver_own : ((s.handOver t m u).event n).pvTcbOwn =
    if n = m then some u else (s.event n).pvTcbOwn := own_update

@[simp] theorem nest_own : ((s.nest t m).event n).pvTcbOwn = (s.event n).pvTcbOwn :=
  own_same (by rfl) n

@[simp] theorem unnest_own : ((s.unnest t m).event n).pvTcbOwn = (s.event n).pvTcbOwn :=
  own_same (by rfl) n

@[simp] theorem block_own : ((s.block attr t m).event n).pvTcbOwn = (s.event n).pvTcbOwn :=
  own_same (by rfl) n

@[simp] theorem dequeue_own : ((s.dequeue t m u).event n).pvTcbOwn = (s.event n).pvTcbOwn :=
  own_same (by rfl) n

@[simp] theorem unQueue_own : ((s.unQueue t m).event n).pvTcbOwn = (s.event n).pvTcbOwn :=
  own_same (by rfl) n

theorem unQueue_blocked (h : (s.unQueue t m).peventPtr u = some n) : s.peventPtr u = some n := by
  simp only [State.unQueue, update_apply] at h
  split at h
  next => cases h
  next => exact h

end Owners

section Inheritance

variable [DecidableEq T] [DecidableEq M] {attr : M → Attr} {s s' : State T M w}

def State.Inherits (s : State T M w) : Prop :=
  ∀ m o t, (s.event m).pvTcbOwn = some o → s.peventPtr t = some m → s.ucPriority o ≤ s.ucPriority t

def State.Repays (s : State T M w) (t : T) (m : M) (u : T) : Prop :=
  (∀ n v, n ≠ m → (s.event n).pvTcbOwn = some t → s.peventPtr v = some n →
    (s.event m).ulMaxCounter ≤ s.ucPriority v) ∧
  ∀ v, v ≠ u → s.peventPtr v = some m → s.ucPriority u ≤ s.ucPriority v

instance [Fintype T] [Fintype M] (s : State T M w) (t : T) (m : M) (u : T) :
    Decidable (s.Repays t m u) :=
  inferInstanceAs (Decidable ((∀ n v, n ≠ m → (s.event n).pvTcbOwn = some t →
    s.peventPtr v = some n → (s.event m).ulMaxCounter ≤ s.ucPriority v) ∧
    ∀ v, v ≠ u → s.peventPtr v = some m → s.ucPriority u ≤ s.ucPriority v))

/-- An owner that is raised is not itself blocked behind a lower one, and a hand-over leaves both
threads high enough. -/
def LendsEnough (s : State T M w) : Action T M → Prop
  | .pend t m notWait => notWait = false → ∀ o, (s.event m).pvTcbOwn = some o →
      s.ucPriority t < s.ucPriority o → ∀ n p, s.peventPtr o = some n →
      (s.event n).pvTcbOwn = some p → p ≠ o → s.ucPriority p ≤ s.ucPriority t
  | .handOver => ∀ t m u, s.handing = some (t, m, u) → s.Repays t m u
  | _ => True

instance [Fintype T] [Fintype M] (s : State T M w) (a : Action T M) : Decidable (LendsEnough s a) :=
  match a with
  | .pend t m notWait => inferInstanceAs (Decidable (notWait = false →
      ∀ o, (s.event m).pvTcbOwn = some o → s.ucPriority t < s.ucPriority o → ∀ n p,
      s.peventPtr o = some n → (s.event n).pvTcbOwn = some p → p ≠ o →
      s.ucPriority p ≤ s.ucPriority t))
  | .handOver => inferInstanceAs (Decidable (∀ t m u, s.handing = some (t, m, u) → s.Repays t m u))
  | .post _ _ => isTrue trivial
  | .timeOut _ => isTrue trivial

omit [DecidableEq T] [DecidableEq M] in
theorem State.Inherits.less (h : s.Inherits) (hprio : s'.ucPriority = s.ucPriority)
    (hless : ∀ n o t, (s'.event n).pvTcbOwn = some o → s'.peventPtr t = some n →
      (s.event n).pvTcbOwn = some o ∧ s.peventPtr t = some n) : s'.Inherits := by
  intro n o t ho ht
  obtain ⟨ho', ht'⟩ := hless n o t ho ht
  rw [hprio]
  exact h n o t ho' ht'

theorem State.Inherits.block (h : s.Inherits) {t o : T} {m : M} (hruns : s.Runs t)
    (hown : (s.event m).pvTcbOwn = some o) (hinherit : (attr m).ulOption.inheritPriority = true)
    (hlends : LendsEnough s (.pend t m false)) : (s.block attr t m).Inherits := by
  intro n p v hp hv
  have hp' : (s.event n).pvTcbOwn = some p := by simpa using hp
  simp only [State.block, hown, eventPrioTryBoost_inherit hinherit] at hv ⊢
  -- who is blocked on `n`: the caller, or somebody from before
  have hle : s.ucPriority p ≤ s.ucPriority v ∨ v = t ∧ n = m ∧ p = o := by
    by_cases hvt : v = t
    · rw [hvt, update_self] at hv
      obtain rfl := Option.some.inj hv
      exact Or.inr ⟨hvt, rfl, Option.some.inj (hp'.symm.trans hown)⟩
    · rw [update_of_ne hvt] at hv
      exact Or.inl (h n p v hp' hv)
  cases hle with
  | inr hnew =>
    obtain ⟨rfl, rfl, rfl⟩ := hnew
    rw [update_self]
    by_cases hvo : v = p
    · rw [hvo, update_self]
    · rw [update_of_ne hvo]
      exact min_le_left _ _
  | inl hle =>
    by_cases hvo : v = o
    · rw [hvo, update_self]
      by_cases hpo : p = o
      · rw [hpo, update_self]
      · rw [update_of_ne hpo]
        rw [hvo] at hle hv
        refine le_min ?_ hle
        by_cases hlow : s.ucPriority t < s.ucPriority o
        · by_cases hot : o = t
          · rw [hot] at hlow
            exact absurd hlow (lt_irrefl _)
          · rw [update_of_ne hot] at hv
            exact hlends rfl o hown hlow n p hv hp' hpo
        · exact le_trans hle (not_lt.mp hlow)
    · rw [update_of_ne hvo]
      by_cases hpo : p = o
      · rw [hpo, update_self]
        exact le_trans (min_le_right _ _) (hpo ▸ hle)
      · rw [update_of_ne hpo]
        exact hle

omit [DecidableEq M] in
theorem Ok.handing_ne (h : Ok attr s) {t u : T} {m : M} (hhanding : s.handing = some (t, m, u)) :
    u ≠ t := by
  obtain ⟨-, -, hblocked, hruns⟩ := h.handing t m u hhanding
  intro e
  rw [e, hruns] at hblocked
  cases hblocked

theorem State.Inherits.handOver (h : s.Inherits) (hok : Ok attr s) {t u : T} {m : M}
    (hhanding : s.handing = some (t, m, u)) (hlends : LendsEnough s .handOver) :
    (s.handOver t m u).Inherits := by
  obtain ⟨hown, -, -, hruns⟩ := hok.handing t m u hhanding
  obtain ⟨hothers, hrest⟩ := hlends t m u hhanding
  have hut := hok.handing_ne hhanding
  intro n o v ho hv
  rw [handOver_own] at ho
  simp only [State.handOver, eventPrioTryResume_eq] at hv ⊢
  have hvu : v ≠ u := by
    intro e
    rw [e, update_self] at hv
    cases hv
  rw [update_of_ne hvu] at hv
  have hvt : v ≠ t := by
    intro e
    rw [e, hruns] at hv
    cases hv
  rw [update_of_ne hvt]
  split at ho
  next hn =>
    obtain rfl := Option.some.inj ho
    rw [update_of_ne hut]
    exact hrest v hvu (hn ▸ hv)
  next hn =>
    by_cases hot : o = t
    · rw [hot, update_self]
      exact hothers n v hn (hot ▸ ho) hv
    · rw [update_of_ne hot]
      exact h n o v ho hv

theorem State.Inherits.next (h : s.Inherits) (hok : Ok attr s)
    (hinherit : ∀ m, (attr m).ulOption.inheritPriority = true) {a : Action T M}
    (hlends : LendsEnough s a) (hstep : step attr s a = some s') : s'.Inherits := by
  cases step_does hstep with
  | refuse => exact h
  | take hruns hfree =>
    refine h.less rfl fun n o t ho ht => ⟨?_, ht⟩
    rw [take_own] at ho
    split at ho
    next hn =>
      have hnone := (hok.fits _).free.mp hfree
      exact absurd (hn ▸ ht) (((hok.fits _).idle hnone).2 t)
    next => exact ho
  | nest hruns _ hown =>
    exact h.less rfl fun n o t ho ht => ⟨by simpa using ho, ht⟩
  | block hruns htaken =>
    obtain ⟨o, ho⟩ := Option.ne_none_iff_exists'.mp (hok.owned htaken)
    exact h.block hruns ho (hinherit _) hlends
  | unnest hruns hown hdeep =>
    exact h.less rfl fun n o t ho ht => ⟨by simpa using ho, ht⟩
  | dequeue hruns hown hlast hnext =>
    exact h.less rfl fun n o t ho ht => ⟨by simpa using ho, ht⟩
  | free hruns hown hlast hempty =>
    refine h.less rfl fun n o t ho ht => ⟨?_, ht⟩
    rw [free_own] at ho
    split at ho
    next => cases ho
    next => exact ho
  | handOver hhanding => exact h.handOver hok hhanding hlends
  | timeOut hblocked hwaits =>
    exact h.less rfl fun n o t ho ht => ⟨by simpa using ho, unQueue_blocked ht⟩

theorem pend_blocks {t o : T} {m : M} (htaken : (s.event m).ulCounter = false)
    (hown : (s.event m).pvTcbOwn = some o) (hot : o ≠ t)
    (hstep : step attr s (.pend t m false) = some s') : s.Runs t ∧ s' = s.block attr t m := by
  simp only [step] at hstep
  split at hstep
  next hruns =>
    obtain rfl := Option.some.inj hstep
    refine ⟨hruns, ?_⟩
    simp [semaphoreMPend, htaken, hown, hot]
  next => cases hstep

theorem lendsEnough_of_inherits (hok : Ok attr s)
    (hinherit : ∀ m, (attr m).ulOption.inheritPriority = true) {a : Action T M}
    (hstep : step attr s a = some s') (h' : s'.Inherits) : LendsEnough s a := by
  cases a with
  | pend t m notWait =>
    rintro rfl o hown hlow n p hblocked hp hpo
    have hot : o ≠ t := by
      rintro rfl
      exact lt_irrefl _ hlow
    obtain ⟨-, rfl⟩ := pend_blocks (hok.taken hown) hown hot hstep
    have hle := h' n p o (by simpa using hp) (by
      simp only [State.block]
      rwa [update_of_ne hot])
    simp only [State.block, hown, eventPrioTryBoost_inherit (hinherit m)] at hle
    rw [update_self, update_of_ne hpo, min_eq_left (le_of_lt hlow)] at hle
    exact hle
  | handOver =>
    intro t m u hhanding
    obtain ⟨-, -, -, hruns⟩ := hok.handing t m u hhanding
    have hut := hok.handing_ne hhanding
    obtain rfl : s.handOver t m u = s' := by simpa [step, hhanding] using hstep
    have hsame : ∀ v, v ≠ t → (s.handOver t m u).ucPriority v = s.ucPriority v := by
      intro v hv
      simp only [State.handOver, eventPrioTryResume_eq]
      exact update_of_ne hv _ _
    have hblocked : ∀ v n, v ≠ u → s.peventPtr v = some n →
        (s.handOver t m u).peventPtr v = some n := by
      intro v n hv hn
      simp only [State.handOver]
      rwa [update_of_ne hv]
    have hcaller : ∀ v n, s.peventPtr v = some n → v ≠ t := by
      rintro v n hn rfl
      rw [hruns] at hn
      cases hn
    constructor
    · intro n v hn hown hv
      by_cases hvu : v = u
      · rw [hvu] at hv
        have hm := (hok.handing t m u hhanding).2.2.1
        exact absurd (Option.some.inj (hv.symm.trans hm)) hn
      · have hle := h' n t v (by rw [handOver_own, if_neg hn]; exact hown) (hblocked v n hvu hv)
        rw [hsame v (hcaller v n hv)] at hle
        simp only [State.handOver, eventPrioTryResume_eq, update_self] at hle
        exact hle
    · intro v hvu hv
      have hle := h' m u v (by rw [handOver_own, if_pos rfl]) (hblocked v m hvu hv)
      rw [hsame v (hcaller v m hv), hsame u hut] at hle
      exact hle
  | post t m => trivial
  | timeOut t => trivial

/-- With inheriting mutexes only, the owners are as high as their waiters in every state of a run
exactly when every step of it lends enough. -/
theorem owners_inherit (hinherit : ∀ m, (attr m).ulOption.inheritPriority = true)
    (ucPriority : T → Fin 256) (actions : List (Action T M)) :
    Visits (step attr) State.Inherits (State.create ucPriority : State T M w) actions ↔
      Obeys (step attr) LendsEnough (State.create ucPriority : State T M w) actions := by
  have hstep : ∀ (s : State T M w) a s', Ok attr s ∧ s.Inherits → LendsEnough s a →
      step attr s a = some s' → Ok attr s' ∧ s'.Inherits := fun s a s' h hlends hstep =>
    ⟨h.1.next hstep, h.2.next h.1 hinherit hlends hstep⟩
  have hexact : ∀ (s : State T M w) a s', Ok attr s ∧ s.Inherits → step attr s a = some s' → s'.Inherits →
      LendsEnough s a := fun s a s' h hstep h' =>
    lendsEnough_of_inherits h.1 hinherit hstep h'
  exact visits_iff_obeys hstep (fun _ h => h.2) hexact
    ⟨ok_create ucPriority, fun m o t ho _ => (by cases ho)⟩

/-- Two mutexes, given back in the order in which they were taken by one thread and waited for by
two others; the second owner is raised in its turn. -/
theorem owners_inherit_nested :
    Visits (step fun _ : Fin 2 => ⟨0, ⟨true, true, false, false⟩⟩) State.Inherits
      (State.create ![30, 20, 10] : State (Fin 3) (Fin 2) 32)
      [.pend 0 0 false, .pend 0 1 false, .pend 1 1 false, .post 0 1, .handOver, .pend 2 1 false,
        .timeOut 2, .post 1 1, .pend 2 0 false, .post 0 0, .handOver] :=
  (owners_inherit (by decide) _ _).mpr (by decide)

/-- The first mutex is given back while the higher thread waits for the second one. -/
theorem owner_resumed_early :
    ¬Visits (step fun _ : Fin 2 => ⟨0, ⟨true, true, false, false⟩⟩) State.Inherits
      (State.create ![30, 20, 10] : State (Fin 3) (Fin 2) 32)
      [.pend 0 0 false, .pend 0 1 false, .pend 1 0 false, .pend 2 1 false, .post 0 0,
        .handOver] := by
  intro h
  have hrun : ((run (step fun _ : Fin 2 => ⟨0, ⟨true, true, false, false⟩⟩)
      (State.create ![30, 20, 10] : State (Fin 3) (Fin 2) 32)
      [.pend 0 0 false, .pend 0 1 false, .pend 1 0 false, .pend 2 1 false, .post 0 0,
        .handOver]).map fun s =>
          ((s.event 1).pvTcbOwn, s.peventPtr 2, s.ucPriority 0, s.ucPriority 2)) =
      some (some 0, some 1, 30, 10) := by decide
  obtain ⟨s', hlast, hvalues⟩ := Option.map_eq_some_iff.mp hrun
  simp only [Prod.mk.injEq] at hvalues
  obtain ⟨hown, hblocked, h0, h2⟩ := hvalues
  have hle := h.last hlast 1 0 2 hown hblocked
  rw [h0, h2] at hle
  exact absurd hle (by decide)

end Inheritance

section Restoration

variable [DecidableEq T] [DecidableEq M] {attr : M → Attr} {s s' : State T M w} {base : T → Fin 256}

def State.Restored (base : T → Fin 256) (s : State T M w) : Prop :=
  ∀ t, (∀ m, (s.event m).pvTcbOwn ≠ some t) → s.ucPriority t = base t

def State.OnlyOwns (s : State T M w) (t : T) (m : M) : Prop :=
  (s.event m).pvTcbOwn = some t ∧ ∀ n, n ≠ m → (s.event n).pvTcbOwn ≠ some t

instance [Fintype M] (s : State T M w) (t : T) (m : M) : Decidable (s.OnlyOwns t m) :=
  inferInstanceAs (Decidable ((s.event m).pvTcbOwn = some t ∧
    ∀ n, n ≠ m → (s.event n).pvTcbOwn ≠ some t))

/-- When a thread gives up its last mutex, the priority that it gets back is its own; a post without
waiters gives nothing back, so that the thread has it already. -/
def GivesBack (base : T → Fin 256) (s : State T M w) : Action T M → Prop
  | .post t m => s.OnlyOwns t m → (s.event m).pvPtr = 0 → (s.event m).waitQ.eventWaitNum = 0 →
      s.ucPriority t = base t
  | .handOver => ∀ t m u, s.handing = some (t, m, u) → s.OnlyOwns t m →
      (s.event m).ulMaxCounter = base t
  | _ => True

instance [Fintype T] [Fintype M] (base : T → Fin 256) (s : State T M w) (a : Action T M) :
    Decidable (GivesBack base s a) :=
  match a with
  | .post t m => inferInstanceAs (Decidable (s.OnlyOwns t m → (s.event m).pvPtr = 0 →
      (s.event m).waitQ.eventWaitNum = 0 → s.ucPriority t = base t))
  | .handOver => inferInstanceAs (Decidable (∀ t m u, s.handing = some (t, m, u) →
      s.OnlyOwns t m → (s.event m).ulMaxCounter = base t))
  | .pend _ _ _ => isTrue trivial
  | .timeOut _ => isTrue trivial

omit [DecidableEq T] [DecidableEq M] in
theorem State.Restored.keep (h : s.Restored base)
    (hkeep : ∀ t, (∀ n, (s'.event n).pvTcbOwn ≠ some t) →
      (∀ n, (s.event n).pvTcbOwn ≠ some t) ∧ s'.ucPriority t = s.ucPriority t) :
    s'.Restored base := by
  intro t ht
  obtain ⟨hnone, hprio⟩ := hkeep t ht
  rw [hprio]
  exact h t hnone

theorem State.Restored.free (h : s.Restored base) {t : T} {m : M}
    (hown : (s.event m).pvTcbOwn = some t)
    (hback : s.OnlyOwns t m → s.ucPriority t = base t) : (s.free t m).Restored base := by
  intro u hu
  have hothers : ∀ n, n ≠ m → (s.event n).pvTcbOwn ≠ some u := by
    intro n hn
    have hnot := hu n
    rwa [free_own, if_neg hn] at hnot
  by_cases hut : u = t
  · rw [hut] at hothers ⊢
    exact hback ⟨hown, hothers⟩
  · refine h u fun n hn => ?_
    by_cases hnm : n = m
    · rw [hnm, hown] at hn
      exact hut (Option.some.inj hn).symm
    · exact hothers n hnm hn

theorem State.Restored.handOver (h : s.Restored base) {t u : T} {m : M}
    (hown : (s.event m).pvTcbOwn = some t)
    (hback : s.OnlyOwns t m → (s.event m).ulMaxCounter = base t) :
    (s.handOver t m u).Restored base := by
  intro v hv
  have hothers : ∀ n, n ≠ m → (s.event n).pvTcbOwn ≠ some v := by
    intro n hn
    have hnot := hv n
    rwa [handOver_own, if_neg hn] at hnot
  simp only [State.handOver, eventPrioTryResume_eq]
  by_cases hvt : v = t
  · rw [hvt] at hothers ⊢
    rw [update_self]
    exact hback ⟨hown, hothers⟩
  · rw [update_of_ne hvt]
    refine h v fun n hn => ?_
    by_cases hnm : n = m
    · rw [hnm, hown] at hn
      exact hvt (Option.some.inj hn).symm
    · exact hothers n hnm hn

theorem State.Restored.next (h : s.Restored base) (hok : Ok attr s) {a : Action T M}
    (hback : GivesBack base s a) (hstep : step attr s a = some s') : s'.Restored base := by
  cases step_does hstep with
  | refuse => exact h
  | @take t m nw hruns hfree =>
    refine h.keep fun u hu => ⟨fun n hn => ?_, rfl⟩
    have hnot := hu n
    rw [take_own] at hnot
    split at hnot
    next hnm =>
      rw [hnm, (hok.fits m).free.mp hfree] at hn
      cases hn
    next => exact hnot hn
  | nest => exact h.keep fun u hu => ⟨fun n => by simpa using hu n, rfl⟩
  | @block t m hruns htaken =>
    obtain ⟨o, ho⟩ := Option.ne_none_iff_exists'.mp (hok.owned htaken)
    refine h.keep fun u hu => ⟨fun n => by simpa using hu n, ?_⟩
    -- only the owner is raised
    have huo : u ≠ o := by
      rintro rfl
      exact hu m (by simpa using ho)
    simp only [State.block, ho]
    exact eventPrioTryBoost_other huo
  | unnest => exact h.keep fun u hu => ⟨fun n => by simpa using hu n, rfl⟩
  | dequeue => exact h.keep fun u hu => ⟨fun n => by simpa using hu n, rfl⟩
  | free hruns hown hlast hempty => exact h.free hown fun honly => hback honly hlast hempty
  | handOver hhanding =>
    exact h.handOver (hok.handing _ _ _ hhanding).1 fun honly => hback _ _ _ hhanding honly
  | timeOut => exact h.keep fun u hu => ⟨fun n => by simpa using hu n, rfl⟩

theorem post_frees {t : T} {m : M} (htaken : (s.event m).ulCounter = false)
    (hown : (s.event m).pvTcbOwn = some t) (hlast : (s.event m).pvPtr = 0)
    (hempty : (s.event m).waitQ.eventWaitNum = 0) (hstep : step attr s (.post t m) = some s') :
    s' = s.free t m := by
  simp only [step] at hstep
  split at hstep
  next =>
    simp only [semaphoreMPost, hown, hlast, hempty, htaken, ne_eq, not_true_eq_false, if_false,
      if_true, Option.map_some, Option.some.injEq] at hstep
    exact hstep.symm
  next => cases hstep

theorem givesBack_of_restored (hok : Ok attr s) {a : Action T M}
    (hstep : step attr s a = some s') (h' : s'.Restored base) : GivesBack base s a := by
  cases a with
  | post t m =>
    rintro ⟨hown, hothers⟩ hlast hempty
    obtain rfl := post_frees (hok.taken hown) hown hlast hempty hstep
    refine h' t fun n => ?_
    rw [free_own]
    split
    next => simp
    next hn => exact hothers n hn
  | handOver =>
    rintro t m u hhanding ⟨hown, hothers⟩
    have hut := hok.handing_ne hhanding
    obtain rfl : s.handOver t m u = s' := by simpa [step, hhanding] using hstep
    have hback := h' t fun n => by
      rw [handOver_own]
      split
      next => exact fun e => hut (Option.some.inj e)
      next hn => exact hothers n hn
    simp only [State.handOver, eventPrioTryResume_eq, update_self] at hback
    exact hback
  | pend t m notWait => trivial
  | timeOut t => trivial

/-- A thread without a mutex has the priority it was created with in every state of a run, exactly
when every step that gives up a last mutex gives it back. -/
theorem priorities_restored (base : T → Fin 256) (actions : List (Action T M)) :
    Visits (step attr) (State.Restored base) (State.create base : State T M w) actions ↔
      Obeys (step attr) (GivesBack base) (State.create base : State T M w) actions := by
  have hstep : ∀ (s : State T M w) a s', Ok attr s ∧ s.Restored base → GivesBack base s a →
      step attr s a = some s' → Ok attr s' ∧ s'.Restored base := fun s a s' h hback hstep =>
    ⟨h.1.next hstep, h.2.next h.1 hback hstep⟩
  have hexact : ∀ (s : State T M w) a s', Ok attr s ∧ s.Restored base → step attr s a = some s' →
      s'.Restored base → GivesBack base s a := fun s a s' h hstep h' =>
    givesBack_of_restored h.1 hstep h'
  exact visits_iff_obeys hstep (fun _ h => h.2) hexact ⟨ok_create base, fun _ _ => rfl⟩

/-- The waiter that has raised the owner times out, and the owner gives the mutex up. -/
theorem priority_kept :
    ¬Visits (step fun _ : Fin 1 => ⟨0, ⟨true, true, false, false⟩⟩) (State.Restored ![20, 10])
      (State.create ![20, 10] : State (Fin 2) (Fin 1) 32)
      [.pend 0 0 false, .pend 1 0 false, .timeOut 1, .post 0 0] := by
  intro h
  have hrun : ((run (step fun _ : Fin 1 => ⟨0, ⟨true, true, false, false⟩⟩)
      (State.create ![20, 10] : State (Fin 2) (Fin 1) 32)
      [.pend 0 0 false, .pend 1 0 false, .timeOut 1, .post 0 0]).map fun s =>
        ((s.event 0).pvTcbOwn, s.ucPriority 0)) = some (none, 10) := by decide
  obtain ⟨s', hlast, hvalues⟩ := Option.map_eq_some_iff.mp hrun
  simp only [Prod.mk.injEq] at hvalues
  obtain ⟨hown, hprio⟩ := hvalues
  have hback := h.last hlast 0 fun m => by
    rw [Subsingleton.elim m 0, hown]
    simp
  rw [hprio] at hback
  exact absurd hback (by decide)

example : Obeys (step fun _ : Fin 2 => ⟨0, ⟨true, true, false, false⟩⟩) (GivesBack ![20, 10])
    (State.create ![20, 10] : State (Fin 2) (Fin 2) 32)
    [.pend 0 0 false, .pend 0 1 false, .pend 1 0 false, .post 0 0, .handOver, .post 0 1,
      .pend 0 1 false, .post 1 0] := by decide

end Restoration

end SylixOS.SemaphoreM
