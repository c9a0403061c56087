import SylixOS.SemaphoreRW
import Mathlib.Data.Fintype.Basic
import Mathlib.Data.Fin.VecNotation

/-! Runs of read-write semaphores: readers are not left behind by the last
writer, and readers and writers exclude each other. -/

namespace SylixOS.SemaphoreRW
open EventList StepRuns Function

variable {T : Type*} {w : ℕ}

def State.Out (s : State T w) (t : T) : Prop := s.posting = some (.writer t)

def Queued (attr : Attr T) (s : State T w) : Prop :=
  Blocked (fun _ => attr.waitPriority) s.waitQ s.iPendQ s.Out

section Queues

variable [DecidableEq T] {attr : Attr T} {s s' : State T w} {t u : T} {q : Mode}

omit [DecidableEq T] in
theorem hasWaiter_iff : s.HasWaiter q ↔ ∃ t, (s.waitQ q).Waits t := by
  unfold State.HasWaiter
  rw [Ne, eventWaitNum_eq_zero, not_forall]
  simp only [not_not]

omit [DecidableEq T] in
theorem Queued.same (h : Queued attr s) (hqueue : s'.waitQ = s.waitQ)
    (hpend : s'.iPendQ = s.iPendQ) (hout : ∀ t, s'.Out t ↔ s.Out t) : Queued attr s' := by
  unfold Queued
  rw [hqueue, hpend]
  exact Blocked.congr h (fun _ => rfl) hout

omit [DecidableEq T] in
theorem State.Runs.not_out (hruns : s.Runs t) : ¬s.Out u := by
  intro h
  rw [State.Out, hruns.1] at h
  cases h

theorem Queued.wakeR (h : Queued attr s) (hout : ∀ t, ¬s.Out t) (hwoken : s.wakeR attr = some s') :
    Queued attr s' := by
  obtain ⟨u, hu, rfl⟩ := Option.map_eq_some_iff.mp hwoken
  refine (Blocked.ready (Blocked.dequeue h (waits_of_eventQGetTcb hu)) (Or.inl rfl)).congr
    (fun _ => rfl) fun v => ?_
  constructor
  · intro hv
    cases hv
  · rintro ⟨hvu, hv⟩
    exact absurd (hv.resolve_left hvu) (hout v)

theorem Queued.next {a : Action T} (h : Queued attr s) (hstep : step attr s a = some s') :
    Queued attr s' := by
  cases step_does hstep with
  | refuse => exact h
  | enterR => exact h
  | takeW => exact h
  | nest => exact h
  | leaveR => exact h
  | unnest => exact h
  | sleepR hruns _ => exact Blocked.sleep h hruns.2 hruns.not_out
  | sleepW hruns _ => exact Blocked.sleep h hruns.2 hruns.not_out
  | lastR hruns _ _ _ =>
    exact h.same rfl rfl fun v => ⟨fun hv => (by cases hv), fun hv => absurd hv hruns.not_out⟩
  | lastW hruns _ _ _ _ =>
    exact h.same rfl rfl fun v => ⟨fun hv => (by cases hv), fun hv => absurd hv hruns.not_out⟩
  | @toWriter t b u hposting _ _ hnext =>
    refine (Blocked.dequeue h (waits_of_eventQGetTcb hnext)).congr (fun _ => rfl) fun v => ?_
    simp [State.Out, hposting, eq_comm]
  | @toReaders t b _ hposting _ _ hwoken =>
    have hout : ∀ v, ¬s.Out v := fun v hv => by simp [State.Out, hposting] at hv
    have hclosed : Queued attr (s.released t) := h
    exact hclosed.wakeR hout hwoken
  | toNobody hposting _ _ =>
    refine h.same rfl rfl fun v => ?_
    simp [State.Out, State.finishR, hposting]
  | @grant u hposting =>
    refine (Blocked.ready h hposting).congr (fun _ => rfl) fun v => ?_
    simp [State.Out, State.grant, hposting, eq_comm]
  | wakeR hposting _ hwoken =>
    exact h.wakeR (fun v hv => by simp [State.Out, hposting] at hv) hwoken
  | finishR hposting _ =>
    refine h.same rfl rfl fun v => ?_
    simp [State.Out, State.finishR, hposting]
  | timeOut _ hwaits => exact Blocked.leave h hwaits

omit [DecidableEq T] in
theorem queued_create : Queued attr (State.create : State T w) := blocked_create

theorem Queued.hasWaiter_unQueue (h : Queued attr s) {p : Mode} :
    (s.unQueue t q).HasWaiter p ↔ ∃ u, (s.waitQ p).Waits u ∧ (p = q → u ≠ t) := by
  rw [hasWaiter_iff]
  simp only [State.unQueue, State.dequeue]
  by_cases hp : p = q
  · rw [hp, update_self]
    simp only [(h.fits q).waits_eventUnQueue, forall_const, and_comm]
  · rw [update_of_ne hp]
    simp only [hp, false_imp_iff, and_true]

theorem hasWaiter_sleep {p : Mode} :
    (s.sleep attr t q).HasWaiter p ↔ p = q ∨ s.HasWaiter p := by
  rw [hasWaiter_iff, hasWaiter_iff]
  simp only [State.sleep]
  by_cases hp : p = q
  · rw [hp, update_self]
    simp only [waits_eventWait, true_or, iff_true]
    exact ⟨t, Or.inl rfl⟩
  · rw [update_of_ne hp]
    simp [hp]

end Queues

section Served

variable [DecidableEq T] {attr : Attr T} {s s' : State T w}

/-- Outside of posts, no reader waits in read status without a writer in front of it. -/
def State.Served (s : State T w) : Prop :=
  s.posting = none → s.iStatus = .r → ¬s.HasWaiter .w → ¬s.HasWaiter .r

/-- A writer that times out in read status, while a reader waits, leaves another writer behind. -/
def LeavesWriter (s : State T w) : Action T → Prop
  | .timeOut t => s.posting = none → s.iPendQ t = some .w → s.iStatus = .r → s.HasWaiter .r →
      ∃ u, (s.waitQ .w).Waits u ∧ u ≠ t
  | _ => True

instance [Fintype T] (s : State T w) (a : Action T) : Decidable (LeavesWriter s a) :=
  match a with
  | .timeOut t => inferInstanceAs (Decidable (s.posting = none → s.iPendQ t = some .w →
      s.iStatus = .r → s.HasWaiter .r → ∃ u, (s.waitQ .w).Waits u ∧ u ≠ t))
  | .pendR _ _ => isTrue trivial
  | .pendW _ _ => isTrue trivial
  | .post _ => isTrue trivial
  | .goOn => isTrue trivial

omit [DecidableEq T] in
theorem served_of_posting {p : Posting T} (h : s.posting = some p) : s.Served := by
  intro hnone
  rw [h] at hnone
  cases hnone

theorem wakeR_posting (hwoken : s.wakeR attr = some s') : s'.posting = some .readers := by
  obtain ⟨u, -, rfl⟩ := Option.map_eq_some_iff.mp hwoken
  rfl

theorem State.Served.unQueue (h : s.Served) (hqueued : Queued attr s) {t : T} {q : Mode}
    (hblocked : s.iPendQ t = some q) (hwaits : (s.waitQ q).Waits t)
    (hleaves : LeavesWriter s (.timeOut t)) : (s.unQueue t q).Served := by
  intro hposting hr hnow hnor
  rw [hqueued.hasWaiter_unQueue] at hnow hnor
  obtain ⟨v, hv, -⟩ := hnor
  have hreader : s.HasWaiter .r := hasWaiter_iff.mpr ⟨v, hv⟩
  cases q with
  | r =>
    -- the writers are as before
    refine h hposting hr (fun hwriter => hnow ?_) hreader
    obtain ⟨u, hu⟩ := hasWaiter_iff.mp hwriter
    exact ⟨u, hu, fun e => by cases e⟩
  | w =>
    obtain ⟨u, hu, hut⟩ := hleaves hposting hblocked hr hreader
    exact hnow ⟨u, hu, fun _ => hut⟩

theorem State.Served.next (h : s.Served) (hqueued : Queued attr s) {a : Action T}
    (hleaves : LeavesWriter s a) (hstep : step attr s a = some s') : s'.Served := by
  cases step_does hstep with
  | refuse => exact h
  | enterR => exact h
  | nest => exact h
  | leaveR => exact h
  | unnest => exact h
  | takeW => exact fun _ hr => by cases hr
  | sleepR hruns hbusy =>
    intro hposting hr hnow
    rw [hasWaiter_sleep] at hnow
    cases hbusy with
    | inl hw => exact absurd (hr.symm.trans hw) (by simp)
    | inr hw => exact absurd (Or.inr hw) hnow
  | sleepW hruns _ =>
    intro hposting hr hnow
    rw [hasWaiter_sleep] at hnow
    exact absurd (Or.inl rfl) hnow
  | lastR => exact served_of_posting rfl
  | lastW => exact served_of_posting rfl
  | toWriter => exact served_of_posting rfl
  | toReaders _ _ _ hwoken => exact served_of_posting (wakeR_posting hwoken)
  | toNobody _ hnor _ => exact fun _ _ _ => hnor
  | grant => exact fun _ hr => by cases hr
  | wakeR _ _ hwoken => exact served_of_posting (wakeR_posting hwoken)
  | finishR _ hnor => exact fun _ _ _ => hnor
  | timeOut hblocked hwaits => exact h.unQueue hqueued hblocked hwaits hleaves

theorem leavesWriter_of_served (hqueued : Queued attr s) {a : Action T}
    (hstep : step attr s a = some s') (h' : s'.Served) : LeavesWriter s a := by
  cases a with
  | timeOut t =>
    intro hposting hblocked hr hreader
    have hwaits : (s.waitQ .w).Waits t := by
      refine (hqueued.waits .w t).mpr ⟨hblocked, fun hout => ?_⟩
      rw [State.Out, hposting] at hout
      cases hout
    obtain rfl : s.unQueue t .w = s' := by simpa [step, hblocked, hwaits] using hstep
    by_contra hnone
    refine h' hposting hr ?_ ?_
    · rw [hqueued.hasWaiter_unQueue]
      rintro ⟨u, hu, hut⟩
      exact hnone ⟨u, hu, hut rfl⟩
    · rw [hqueued.hasWaiter_unQueue]
      obtain ⟨v, hv⟩ := hasWaiter_iff.mp hreader
      exact ⟨v, hv, fun e => by cases e⟩
  | pendR t notWait => trivial
  | pendW t notWait => trivial
  | post t => trivial
  | goOn => trivial

/-- No reader is left behind in any state of a run exactly when no last writer times out in front of
one. -/
theorem waiting_readers_served (attr : Attr T) (actions : List (Action T)) :
    Visits (step attr) State.Served (State.create : State T w) actions ↔
      Obeys (step attr) LeavesWriter (State.create : State T w) actions := by
  have hstep : ∀ (s : State T w) a s', Queued attr s ∧ s.Served → LeavesWriter s a →
      step attr s a = some s' → Queued attr s' ∧ s'.Served := fun s a s' h hleaves hstep =>
    ⟨h.1.next hstep, h.2.next h.1 hleaves hstep⟩
  have hexact : ∀ (s : State T w) a s', Queued attr s ∧ s.Served → step attr s a = some s' →
      s'.Served → LeavesWriter s a := fun s a s' h hstep h' =>
    leavesWriter_of_served h.1 hstep h'
  refine visits_iff_obeys hstep (fun _ h => h.2) hexact ⟨queued_create, fun _ _ _ => ?_⟩
  simp [hasWaiter_iff, State.create]

/-- A writer waits behind a reader, another reader behind the writer; the writer times out. -/
theorem reader_left_behind :
    ¬Visits (step ⟨true, false, ![10, 10, 10]⟩) State.Served (State.create : State (Fin 3) 32)
      [.pendR 0 false, .pendW 1 false, .pendR 2 false, .timeOut 1] := by
  intro h
  have hrun : ((run (step ⟨true, false, ![10, 10, 10]⟩) (State.create : State (Fin 3) 32)
      [.pendR 0 false, .pendW 1 false, .pendR 2 false, .timeOut 1]).map fun s =>
        (s.posting, s.iStatus, decide (s.HasWaiter .w), decide (s.HasWaiter .r))) =
      some (none, .r, false, true) := by decide
  obtain ⟨s', hlast, hvalues⟩ := Option.map_eq_some_iff.mp hrun
  simp only [Prod.mk.injEq, decide_eq_false_iff_not, decide_eq_true_eq] at hvalues
  obtain ⟨hposting, hr, hwriter, hreader⟩ := hvalues
  exact h.last hlast hposting hr hwriter hreader

end Served

section Excludes

variable [DecidableEq T] {attr : Attr T} {s s' : State T w}

def State.Shared (s : State T w) : Prop :=
  s.iStatus = .r ∧ s.pvTcbOwn = none ∧ s.ulCounter.toNat = s.readers.length

def State.Written (s : State T w) : Prop :=
  s.iStatus = .w ∧ (∃ t, s.pvTcbOwn = some t) ∧ s.ulCounter.toNat = 1 ∧ s.readers = []

structure State.Excludes (attr : Attr T) (s : State T w) : Prop where
  held : s.posting = none → s.Written ∨ s.Shared
  free : s.posting = none → s.ulCounter = 0 → (∀ q t, ¬(s.waitQ q).Waits t) ∧ s.pvPtr = 0
  handed : s.posting = none → s.waited = true → s.handed ≠ []
  goesOn : s.posting ≠ none → ∃ s', step attr s .goOn = some s'
  /-- A read hold is counted if and only if the pend returns `ERROR_NONE`, and no longer when a post
  does; the last one ends in the hand-over. -/
  entered : ∀ t notWait, (semaphoreRWPendR attr s t notWait).1.readers =
    if (semaphoreRWPendR attr s t notWait).2 = some .errorNone then t :: s.readers else s.readers
  left : ∀ t, s.iStatus = .r → (semaphoreRWPost attr s t).1.readers =
    if (semaphoreRWPost attr s t).2 = some .errorNone then s.readers.erase t else s.readers

def PostsOwn (s : State T w) : Action T → Prop
  | .post t => t ∈ s.readers ∨ s.pvTcbOwn = some t
  | _ => True

instance (s : State T w) (a : Action T) : Decidable (PostsOwn s a) :=
  match a with
  | .post t => inferInstanceAs (Decidable (t ∈ s.readers ∨ s.pvTcbOwn = some t))
  | .pendR _ _ => isTrue trivial
  | .pendW _ _ => isTrue trivial
  | .goOn => isTrue trivial
  | .timeOut _ => isTrue trivial

/-- A post that has found readers and passes over a writer still finds one with the interrupts off,
and the counter does not wrap. -/
def KeepsReader (s : State T w) : Action T → Prop
  | .pendR _ _ => s.iStatus = .r → ¬s.HasWaiter .w → s.readers.length + 1 < 2 ^ w
  | .goOn => (∀ t, s.posting = some (.tested t true) → s.HasWaiter .w → s.HasWaiter .r) ∧
      (s.posting = some .readers → s.HasWaiter .r → s.readers.length + 1 < 2 ^ w)
  | _ => True

instance [Fintype T] (s : State T w) (a : Action T) : Decidable (KeepsReader s a) :=
  match a with
  | .pendR _ _ => inferInstanceAs (Decidable (s.iStatus = .r → ¬s.HasWaiter .w →
      s.readers.length + 1 < 2 ^ w))
  | .goOn => inferInstanceAs (Decidable
      ((∀ t, s.posting = some (.tested t true) → s.HasWaiter .w → s.HasWaiter .r) ∧
      (s.posting = some .readers → s.HasWaiter .r → s.readers.length + 1 < 2 ^ w)))
  | .post _ => isTrue trivial
  | .pendW _ _ => isTrue trivial
  | .timeOut _ => isTrue trivial

def State.Consistent (s : State T w) : Prop :=
  match s.posting with
  | none => (s.Written ∨ s.Shared ∧ s.pvPtr = 0) ∧
      (s.ulCounter = 0 → ∀ q t, ¬(s.waitQ q).Waits t) ∧ (s.waited = true → s.handed ≠ [])
  | some (.tested t b) => s.pvPtr = 0 ∧ s.ulCounter.toNat = 1 ∧
      (s.iStatus = .r ∧ s.pvTcbOwn = none ∧ s.readers = [t] ∨
        s.iStatus = .w ∧ s.pvTcbOwn = some t ∧ s.readers = [] ∧ b = false)
  | some (.writer _) => s.pvPtr = 0 ∧ s.ulCounter.toNat = 1 ∧ s.readers = []
  | some .readers => s.pvPtr = 0 ∧ s.ulCounter.toNat = s.readers.length ∧ s.readers ≠ [] ∧
      s.handed ≠ []

structure Ok (attr : Attr T) (s : State T w) : Prop where
  queued : Queued attr s
  consistent : s.Consistent

omit [DecidableEq T] in
theorem State.Consistent.idle (h : s.Consistent) (hnone : s.posting = none) :
    (s.Written ∨ s.Shared ∧ s.pvPtr = 0) ∧
      (s.ulCounter = 0 → ∀ q t, ¬(s.waitQ q).Waits t) ∧ (s.waited = true → s.handed ≠ []) := by
  simpa only [State.Consistent, hnone] using h

omit [DecidableEq T] in
theorem Ok.counter_ne_zero (h : Ok attr s) (hnone : s.posting = none)
    (hbusy : s.iStatus = .w ∨ s.HasWaiter .w) : s.ulCounter ≠ 0 := by
  intro hzero
  obtain ⟨hheld, hfree, -⟩ := h.consistent.idle hnone
  cases hbusy with
  | inr hwaiter =>
    obtain ⟨t, ht⟩ := hasWaiter_iff.mp hwaiter
    exact hfree hzero .w t ht
  | inl hw =>
    cases hheld with
    | inl hwritten =>
      have hone := hwritten.2.2.1
      rw [toNat_eq_zero.mpr hzero] at hone
      cases hone
    | inr hshared => exact absurd (hw.symm.trans hshared.1.1) (by simp)

omit [DecidableEq T] in
theorem consistent_of {s : State T w} (hnone : s.posting = none)
    (hheld : s.Written ∨ s.Shared ∧ s.pvPtr = 0)
    (hfree : s.ulCounter = 0 → ∀ q t, ¬(s.waitQ q).Waits t)
    (hhanded : s.waited = true → s.handed ≠ []) : s.Consistent := by
  simp only [State.Consistent, hnone]
  exact ⟨hheld, hfree, hhanded⟩

omit [DecidableEq T] in
theorem Ok.enterR (h : Ok attr s) {t : T} (hruns : s.Runs t) (hr : s.iStatus = .r)
    (hwrap : s.readers.length + 1 < 2 ^ w) : (s.enterR t).Consistent := by
  obtain ⟨hheld, -, hhanded⟩ := h.consistent.idle hruns.1
  cases hheld with
  | inl hwritten => exact absurd (hr.symm.trans hwritten.1) (by simp)
  | inr hshared =>
    obtain ⟨⟨-, hown, hcount⟩, hdepth⟩ := hshared
    have hnext : (s.ulCounter + 1).toNat = s.readers.length + 1 := by
      rw [toNat_add_one (by rw [hcount]; exact hwrap), hcount]
    refine consistent_of hruns.1 (Or.inr ⟨⟨hr, hown, hnext⟩, hdepth⟩) (fun hzero => ?_) hhanded
    rw [show (s.enterR t).ulCounter = s.ulCounter + 1 from rfl, ← toNat_eq_zero, hnext] at hzero
    cases hzero

theorem Ok.sleep (h : Ok attr s) {t : T} {q : Mode} (hruns : s.Runs t) (htaken : s.ulCounter ≠ 0) :
    (s.sleep attr t q).Consistent := by
  obtain ⟨hheld, -, hhanded⟩ := h.consistent.idle hruns.1
  exact consistent_of hruns.1 hheld (fun hzero => absurd hzero htaken) hhanded

omit [DecidableEq T] in
theorem Ok.takeW (h : Ok attr s) (hw : 0 < w) {t : T} (hruns : s.Runs t) (hfree : s.ulCounter = 0) :
    (s.takeW t).Consistent := by
  obtain ⟨hheld, -, hhanded⟩ := h.consistent.idle hruns.1
  have hzero := toNat_eq_zero.mpr hfree
  have hone : (s.ulCounter + 1).toNat = 1 := by
    rw [toNat_add_one (by rw [hzero]; exact Nat.one_lt_two_pow (Nat.pos_iff_ne_zero.mp hw)), hzero]
  have hnobody : s.readers = [] := by
    cases hheld with
    | inl hwritten => exact hwritten.2.2.2
    | inr hshared =>
      have hlength := hshared.1.2.2
      rw [hzero] at hlength
      exact List.length_eq_zero_iff.mp hlength.symm
  refine consistent_of hruns.1 (Or.inl ⟨rfl, ⟨t, rfl⟩, hone, hnobody⟩) (fun hnew => ?_) hhanded
  rw [show (s.takeW t).ulCounter = s.ulCounter + 1 from rfl, ← toNat_eq_zero, hone] at hnew
  cases hnew

omit [DecidableEq T] in
theorem Ok.depth (h : Ok attr s) {t : T} (hruns : s.Runs t) (hown : s.pvTcbOwn = some t)
    (depth : BitVec w) : { s with pvPtr := depth }.Consistent := by
  obtain ⟨hheld, hfree, hhanded⟩ := h.consistent.idle hruns.1
  refine consistent_of hruns.1 (Or.inl ?_) hfree hhanded
  refine hheld.resolve_right fun hshared => ?_
  exact absurd (hown.symm.trans hshared.1.2.1) (by simp)

theorem Ok.leaveR (h : Ok attr s) {t : T} (hruns : s.Runs t) (hr : s.iStatus = .r)
    (hmore : 1 < s.ulCounter.toNat) (howns : PostsOwn s (.post t)) : (s.leaveR t).Consistent := by
  obtain ⟨hheld, -, hhanded⟩ := h.consistent.idle hruns.1
  cases hheld with
  | inl hwritten => exact absurd (hr.symm.trans hwritten.1) (by simp)
  | inr hshared =>
    obtain ⟨⟨-, hown, hcount⟩, hdepth⟩ := hshared
    have hmem : t ∈ s.readers := howns.resolve_right fun ho =>
      absurd (ho.symm.trans hown) (by simp)
    have htaken : s.ulCounter ≠ 0 := by
      intro hzero
      rw [toNat_eq_zero.mpr hzero] at hmore
      cases hmore
    have hnext : (s.ulCounter - 1).toNat = (s.readers.erase t).length := by
      rw [toNat_sub_one htaken, hcount, List.length_erase_of_mem hmem]
    refine consistent_of hruns.1 (Or.inr ⟨⟨hr, hown, hnext⟩, hdepth⟩) (fun hzero => ?_) hhanded
    rw [show (s.leaveR t).ulCounter = s.ulCounter - 1 from rfl, ← toNat_eq_zero,
      toNat_sub_one htaken] at hzero
    omega

omit [DecidableEq T] in
theorem Ok.lastR (h : Ok attr s) {t : T} {b : Bool} (hruns : s.Runs t) (htaken : s.ulCounter ≠ 0)
    (hr : s.iStatus = .r) (hlast : ¬1 < s.ulCounter.toNat) (howns : PostsOwn s (.post t)) :
    { s with posting := some (.tested t b) }.Consistent := by
  obtain ⟨hheld, -, -⟩ := h.consistent.idle hruns.1
  cases hheld with
  | inl hwritten => exact absurd (hr.symm.trans hwritten.1) (by simp)
  | inr hshared =>
    obtain ⟨⟨-, hown, hcount⟩, hdepth⟩ := hshared
    have hmem : t ∈ s.readers := howns.resolve_right fun ho =>
      absurd (ho.symm.trans hown) (by simp)
    have hpos : s.ulCounter.toNat ≠ 0 := fun hzero => htaken (toNat_eq_zero.mp hzero)
    have hone : s.ulCounter.toNat = 1 := by omega
    have honly : s.readers = [t] := by
      obtain ⟨x, hx⟩ := List.length_eq_one_iff.mp (hcount.symm.trans hone)
      rw [hx, List.mem_singleton] at hmem
      rw [hx, hmem]
    exact ⟨hdepth, hone, Or.inl ⟨hr, hown, honly⟩⟩

omit [DecidableEq T] in
theorem Ok.lastW (h : Ok attr s) {t : T} (hruns : s.Runs t) (hw : s.iStatus = .w)
    (hown : s.pvTcbOwn = some t) (hlast : s.pvPtr = 0) :
    { s with posting := some (.tested t false) }.Consistent := by
  obtain ⟨hheld, -, -⟩ := h.consistent.idle hruns.1
  cases hheld with
  | inr hshared => exact absurd (hw.symm.trans hshared.1.1) (by simp)
  | inl hwritten => exact ⟨hlast, hwritten.2.2.1, Or.inr ⟨hw, hown, hwritten.2.2.2, rfl⟩⟩

omit [DecidableEq T] in
theorem State.Consistent.tested (h : s.Consistent) {t : T} {b : Bool}
    (hposting : s.posting = some (.tested t b)) : s.pvPtr = 0 ∧ s.ulCounter.toNat = 1 ∧
      (s.iStatus = .r ∧ s.pvTcbOwn = none ∧ s.readers = [t] ∨
        s.iStatus = .w ∧ s.pvTcbOwn = some t ∧ s.readers = [] ∧ b = false) := by
  simpa only [State.Consistent, hposting] using h

theorem State.Consistent.nobody (h : s.Consistent) {t : T} {b : Bool}
    (hposting : s.posting = some (.tested t b)) : (s.closed t).readers = [] := by
  simp only [State.closed]
  obtain ⟨-, -, hreading | hwriting⟩ := h.tested hposting
  · rw [hreading.2.2, List.erase_cons_head]
  · rw [hwriting.2.2.1, List.erase_nil]

theorem State.Consistent.emptied (h : s.Consistent) {t : T} {b : Bool}
    (hposting : s.posting = some (.tested t b)) :
    (s.released t).ulCounter.toNat = (s.released t).readers.length := by
  have hnobody : (s.released t).readers = [] := h.nobody hposting
  obtain ⟨-, hone, -⟩ := h.tested hposting
  have htaken : s.ulCounter ≠ 0 := by
    intro hzero
    rw [toNat_eq_zero.mpr hzero] at hone
    cases hone
  rw [hnobody, List.length_nil]
  simp only [State.released]
  rw [toNat_sub_one htaken, hone]

theorem wakeR_consistent (hdepth : s.pvPtr = 0) (hcount : s.ulCounter.toNat = s.readers.length)
    (hwrap : s.readers.length + 1 < 2 ^ w) (hwoken : s.wakeR attr = some s') : s'.Consistent := by
  obtain ⟨u, -, rfl⟩ := Option.map_eq_some_iff.mp hwoken
  refine ⟨hdepth, ?_, List.cons_ne_nil _ _, List.cons_ne_nil _ _⟩
  simp only [List.length_cons]
  rw [toNat_add_one (by rw [hcount]; exact hwrap), hcount]

theorem Ok.toNobody (h : Ok attr s) {t : T} {b : Bool} (hposting : s.posting = some (.tested t b))
    (hnor : ¬s.HasWaiter .r) (hnow : s.HasWaiter .w → b = true) (hkeeps : KeepsReader s .goOn) :
    (s.released t).finishR.Consistent := by
  -- nobody waits: a writer would have been passed over for a reader
  have hnow' : ¬s.HasWaiter .w := by
    intro hwriter
    have hb := hnow hwriter
    exact hnor (hkeeps.1 t (hb ▸ hposting) hwriter)
  have hcount := h.consistent.emptied hposting
  have hdepth := (h.consistent.tested hposting).1
  refine consistent_of rfl (Or.inr ⟨⟨rfl, rfl, hcount⟩, hdepth⟩) (fun _ q u hu => ?_)
    fun hwaited => ?_
  · have hq : s.HasWaiter q := hasWaiter_iff.mpr ⟨u, hu⟩
    cases q with
    | r => exact hnor hq
    | w => exact hnow' hq
  · have hnone : s.HasWaiter .w ∨ s.HasWaiter .r := by
      simpa [State.finishR, State.released, State.closed] using hwaited
    exact absurd hnone (not_or.mpr ⟨hnow', hnor⟩)

theorem Ok.grant (h : Ok attr s) {u : T} (hposting : s.posting = some (.writer u)) :
    (s.grant u).Consistent := by
  have hwriter : s.pvPtr = 0 ∧ s.ulCounter.toNat = 1 ∧ s.readers = [] := by
    simpa only [State.Consistent, hposting] using h.consistent
  obtain ⟨-, hone, hnobody⟩ := hwriter
  refine consistent_of rfl (Or.inl ⟨rfl, ⟨u, rfl⟩, hone, hnobody⟩) (fun hzero => ?_)
    fun _ => List.cons_ne_nil _ _
  rw [show (s.grant u).ulCounter = s.ulCounter from rfl, ← toNat_eq_zero, hone] at hzero
  cases hzero

omit [DecidableEq T] in
theorem State.Consistent.reading (h : s.Consistent) (hposting : s.posting = some .readers) :
    s.pvPtr = 0 ∧ s.ulCounter.toNat = s.readers.length ∧ s.readers ≠ [] ∧ s.handed ≠ [] := by
  simpa only [State.Consistent, hposting] using h

omit [DecidableEq T] in
theorem Ok.finishR (h : Ok attr s) (hposting : s.posting = some .readers) :
    s.finishR.Consistent := by
  obtain ⟨hdepth, hcount, hsome, hhanded⟩ := h.consistent.reading hposting
  refine consistent_of rfl (Or.inr ⟨⟨rfl, rfl, hcount⟩, hdepth⟩) (fun hzero => ?_) fun _ => hhanded
  rw [show s.finishR.ulCounter = s.ulCounter from rfl, ← toNat_eq_zero, hcount] at hzero
  exact absurd (List.length_eq_zero_iff.mp hzero) hsome

theorem Ok.unQueue (h : Ok attr s) {t : T} {q : Mode} (hwaits : (s.waitQ q).Waits t) :
    (s.unQueue t q).Consistent := by
  cases hposting : s.posting with
  | none =>
    obtain ⟨hheld, hfree, hhanded⟩ := h.consistent.idle hposting
    exact consistent_of hposting hheld (fun hzero => absurd hwaits (hfree hzero q t)) hhanded
  | some p =>
    have hsame := h.consistent
    simp only [State.Consistent, hposting] at hsame
    simp only [State.Consistent, State.unQueue, State.dequeue, hposting]
    cases p with
    | tested t b => exact hsame
    | writer u => exact hsame
    | readers => exact hsame

theorem Ok.next (h : Ok attr s) (hw : 0 < w) {a : Action T}
    (hkeeps : PostsOwn s a ∧ KeepsReader s a) (hstep : step attr s a = some s') : Ok attr s' := by
  refine ⟨h.queued.next hstep, ?_⟩
  cases step_does hstep with
  | refuse => exact h.consistent
  | enterR hruns hr hnow => exact h.enterR hruns hr (hkeeps.2 hr hnow)
  | sleepR hruns hbusy => exact h.sleep hruns (h.counter_ne_zero hruns.1 hbusy)
  | takeW hruns hfree => exact h.takeW hw hruns hfree
  | nest hruns _ hown => exact h.depth hruns hown _
  | sleepW hruns htaken => exact h.sleep hruns htaken
  | leaveR hruns hr hmore => exact h.leaveR hruns hr hmore hkeeps.1
  | lastR hruns htaken hr hlast => exact h.lastR hruns htaken hr hlast hkeeps.1
  | unnest hruns _ _ hown _ => exact h.depth hruns hown _
  | lastW hruns _ hwriting hown hlast => exact h.lastW hruns hwriting hown hlast
  | toWriter hposting _ _ _ =>
    obtain ⟨hdepth, hone, -⟩ := h.consistent.tested hposting
    exact ⟨hdepth, hone, h.consistent.nobody hposting⟩
  | @toReaders t b _ hposting _ _ hwoken =>
    have hnobody : (s.released t).readers = [] := h.consistent.nobody hposting
    have hcount := h.consistent.emptied hposting
    have hdepth : (s.released t).pvPtr = 0 := (h.consistent.tested hposting).1
    refine wakeR_consistent hdepth hcount ?_ hwoken
    rw [hnobody]
    exact Nat.one_lt_two_pow (Nat.pos_iff_ne_zero.mp hw)
  | toNobody hposting hnor hnow => exact h.toNobody hposting hnor hnow hkeeps.2
  | grant hposting => exact h.grant hposting
  | wakeR hposting hreader hwoken =>
    obtain ⟨hdepth, hcount, -, -⟩ := h.consistent.reading hposting
    exact wakeR_consistent hdepth hcount (hkeeps.2.2 hposting hreader) hwoken
  | finishR hposting _ => exact h.finishR hposting
  | timeOut _ hwaits => exact h.unQueue hwaits

theorem Queued.wakeR_isSome (h : Queued attr s) (hreader : s.HasWaiter .r) :
    ∃ s', s.wakeR attr = some s' := by
  obtain ⟨t, ht⟩ := hasWaiter_iff.mp hreader
  obtain ⟨u, hu⟩ := (h.fits .r).eventQGetTcb_isSome ht
  exact ⟨_, by rw [State.wakeR, hu]; rfl⟩

theorem Queued.goesOn (h : Queued attr s) (hposting : s.posting ≠ none) :
    ∃ s', step attr s .goOn = some s' := by
  obtain ⟨p, hp⟩ := Option.ne_none_iff_exists'.mp hposting
  simp only [step, hp, Option.bind_some]
  cases p with
  | writer u => exact ⟨_, rfl⟩
  | readers =>
    simp only [State.post]
    split
    next hreader => exact h.wakeR_isSome hreader
    next => exact ⟨_, rfl⟩
  | tested t b =>
    simp only [State.post, State.release]
    split
    next hwriter =>
      obtain ⟨t, ht⟩ := hasWaiter_iff.mp hwriter.1
      obtain ⟨u, hu⟩ := (h.fits .w).eventQGetTcb_isSome ht
      exact ⟨_, by rw [hu]; rfl⟩
    next =>
      split
      next hreader =>
        have hclosed : Queued attr (s.released t) :=
          h.same rfl rfl fun _ => Iff.rfl
        exact hclosed.wakeR_isSome hreader
      next => exact ⟨_, rfl⟩

theorem Ok.excludes (h : Ok attr s) : s.Excludes attr where
  held hnone := (h.consistent.idle hnone).1.imp id And.left
  free hnone hzero := by
    obtain ⟨hheld, hfree, -⟩ := h.consistent.idle hnone
    refine ⟨hfree hzero, (hheld.resolve_left fun hwritten => ?_).2⟩
    have hone := hwritten.2.2.1
    rw [toNat_eq_zero.mpr hzero] at hone
    cases hone
  handed hnone := (h.consistent.idle hnone).2.2
  goesOn hposting := h.queued.goesOn hposting
  entered _ _ := semaphoreRWPendR_readers
  left _ hreading := semaphoreRWPost_readers hreading

/-- Along every run in which holders post, a post that passes over a writer still finds a reader
and the counter does not wrap, readers and writers exclude each other, and the last post of a
hold period hands over. -/
theorem readers_writers_exclude (hw : 0 < w) (attr : Attr T) (actions : List (Action T))
    (hposts : Obeys (step attr) PostsOwn (State.create : State T w) actions)
    (hkeeps : Obeys (step attr) KeepsReader (State.create : State T w) actions) :
    Visits (step attr) (State.Excludes attr) (State.create : State T w) actions := by
  have hcreate : Ok attr (State.create : State T w) := by
    refine ⟨queued_create, consistent_of rfl (Or.inr ⟨⟨rfl, rfl, BitVec.toNat_zero⟩, rfl⟩)
      (fun _ _ _ => not_waits_create) fun hwaited => ?_⟩
    cases hwaited
  exact (visits_of_obeys (fun _ _ _ hok hk hstep => Ok.next hok hw hk hstep) hcreate
    (hposts.and hkeeps)).mono fun _ hok => hok.excludes

/-- Two readers, a writer that enters twice, and a reader that is passed to while a writer waits. -/
theorem readers_writers_exclude_three :
    Visits (step ⟨true, false, ![10, 10, 10]⟩) (State.Excludes ⟨true, false, ![10, 10, 10]⟩)
      (State.create : State (Fin 3) 32)
      [.pendR 0 false, .pendR 1 false, .pendW 2 false, .post 0, .post 1, .goOn, .goOn,
        .pendW 2 false, .pendR 0 false, .pendW 1 false, .post 2, .post 2, .timeOut 1, .goOn,
        .goOn, .pendW 1 false, .pendR 2 false, .post 0, .goOn, .goOn] :=
  readers_writers_exclude (by decide) _ _ (by decide) (by decide)

/-- The only waiting reader times out after the post has decided to pass over the writer. -/
theorem writer_passed_over :
    Obeys (step ⟨true, false, ![10, 10, 10]⟩) PostsOwn (State.create : State (Fin 3) 32)
      [.pendR 0 false, .pendW 1 false, .pendR 2 false, .post 0, .timeOut 2, .goOn] ∧
    ¬Visits (step ⟨true, false, ![10, 10, 10]⟩) (State.Excludes ⟨true, false, ![10, 10, 10]⟩)
      (State.create : State (Fin 3) 32)
      [.pendR 0 false, .pendW 1 false, .pendR 2 false, .post 0, .timeOut 2, .goOn] := by
  refine ⟨by decide, fun h => ?_⟩
  have hrun : ((run (step ⟨true, false, ![10, 10, 10]⟩) (State.create : State (Fin 3) 32)
      [.pendR 0 false, .pendW 1 false, .pendR 2 false, .post 0, .timeOut 2, .goOn]).map fun s =>
        (s.posting, s.ulCounter, decide ((s.waitQ .w).Waits 1))) =
      some (none, 0, true) := by decide
  obtain ⟨s', hlast, hvalues⟩ := Option.map_eq_some_iff.mp hrun
  simp only [Prod.mk.injEq, decide_eq_true_eq] at hvalues
  obtain ⟨hposting, hzero, hwaits⟩ := hvalues
  exact ((h.last hlast).free hposting hzero).1 .w 1 hwaits

end Excludes

end SylixOS.SemaphoreRW
