import SylixOS.EventQueue
import Mathlib.Algebra.Order.BigOperators.Group.List
import Mathlib.Algebra.Order.Ring.Canonical
import Mathlib.Algebra.Order.Ring.Nat
import Mathlib.Data.BitVec

/-! The wait queue of a kernel event, with each ring as the list of its threads
(_EventHighLevel.c, inlSearchEventQueue.h). `LW_UNION_WAITLIST` lays the ring of
a FIFO queue over the first ring of a priority queue, so that both kinds are
eight lists. The last section connects the lists to the linked rings. -/

namespace SylixOS.EventList
open LinkedChain ListLink EventQueue

variable {T : Type*}

@[ext] structure WaitList (T : Type*) where
  pringPrio : Fin 8 → List T

section Operations

variable (waitPriority : Bool) (prio : T → Fin 256) (q : WaitList T)

def WaitList.create : WaitList T := ⟨fun _ => []⟩

def WaitList.eventWaitNum : ℕ := ((List.finRange 8).map fun i => (q.pringPrio i).length).sum

/-- `_EventWaitPriority` with `_EVENT_INDEX_Q_PRIORITY`, and `_EventWaitFifo` without
`LW_OPTION_WAIT_PRIORITY` -/
def WaitList.eventWait (ptcbCur : T) : WaitList T :=
  if waitPriority then
    let i := eventIndexQPriority (prio ptcbCur)
    ⟨Function.update q.pringPrio i (insertPriority prio ptcbCur (q.pringPrio i))⟩
  else ⟨Function.update q.pringPrio 0 (ptcbCur :: q.pringPrio 0)⟩

/-- `_EVENT_DEL_Q_PRIORITY` with `_EventQGetTcbPriority`, and `_EventQGetTcbFifo` without
`LW_OPTION_WAIT_PRIORITY` -/
def WaitList.eventQGetTcb : Option T :=
  if waitPriority then
    ((List.finRange 8).find? fun i => !(q.pringPrio i).isEmpty).bind fun i => (q.pringPrio i).head?
  else (q.pringPrio 0).getLast?

def WaitList.eventUnQueue [DecidableEq T] (ptcb : T) : WaitList T :=
  ⟨fun i => (q.pringPrio i).erase ptcb⟩

def WaitList.Waits (t : T) : Prop := ∃ i, t ∈ q.pringPrio i

instance [DecidableEq T] (t : T) : Decidable (q.Waits t) :=
  inferInstanceAs (Decidable (∃ i, t ∈ q.pringPrio i))

structure WaitList.Fits : Prop where
  nodup : ∀ i, (q.pringPrio i).Nodup
  single : waitPriority = false → ∀ i, i ≠ 0 → q.pringPrio i = []

end Operations

section Lists

variable {waitPriority : Bool} {prio : T → Fin 256} {q : WaitList T} {t u : T}

@[simp] theorem not_waits_create : ¬(WaitList.create : WaitList T).Waits t := by
  rintro ⟨i, hi⟩
  cases hi

theorem fits_create : (WaitList.create : WaitList T).Fits waitPriority :=
  ⟨fun _ => List.nodup_nil, fun _ _ _ => rfl⟩

theorem eventWaitNum_eq_zero : q.eventWaitNum = 0 ↔ ∀ t, ¬q.Waits t := by
  unfold WaitList.eventWaitNum WaitList.Waits
  simp only [List.sum_eq_zero_iff, List.mem_map, List.mem_finRange, true_and,
    forall_exists_index, forall_apply_eq_imp_iff, List.length_eq_zero_iff, not_exists]
  constructor
  · intro h t i hi
    rw [h i] at hi
    cases hi
  · intro h i
    exact List.eq_nil_iff_forall_not_mem.mpr fun t => h t i

theorem waits_eventWait : (q.eventWait waitPriority prio t).Waits u ↔ u = t ∨ q.Waits u := by
  have update : ∀ (i : Fin 8) (l : List T), (∀ v, v ∈ l ↔ v = t ∨ v ∈ q.pringPrio i) →
      ((∃ j, u ∈ Function.update q.pringPrio i l j) ↔ u = t ∨ ∃ j, u ∈ q.pringPrio j) := by
    intro i l hl
    constructor
    · rintro ⟨j, hj⟩
      by_cases hji : j = i
      · rw [hji, Function.update_self, hl] at hj
        exact hj.imp id fun hu => ⟨i, hu⟩
      · rw [Function.update_of_ne hji] at hj
        exact Or.inr ⟨j, hj⟩
    · intro h
      by_cases hu : u = t ∨ u ∈ q.pringPrio i
      · exact ⟨i, by rw [Function.update_self, hl]; exact hu⟩
      · rw [not_or] at hu
        obtain ⟨j, hj⟩ := h.resolve_left hu.1
        have hji : j ≠ i := fun e => hu.2 (e ▸ hj)
        exact ⟨j, by rw [Function.update_of_ne hji]; exact hj⟩
  unfold WaitList.eventWait WaitList.Waits
  cases waitPriority with
  | true =>
    rw [if_pos rfl]
    apply update
    intro v
    rw [(perm_insertPriority prio t _).mem_iff, List.mem_cons]
  | false =>
    rw [if_neg Bool.false_ne_true]
    apply update
    intro v
    rw [List.mem_cons]

theorem WaitList.Fits.eventWait (h : q.Fits waitPriority) (fresh : ¬q.Waits t) :
    (q.eventWait waitPriority prio t).Fits waitPriority := by
  have hnot : ∀ i, t ∉ q.pringPrio i := fun i hi => fresh ⟨i, hi⟩
  unfold WaitList.eventWait
  cases waitPriority with
  | true =>
    rw [if_pos rfl]
    refine ⟨fun i => ?_, fun e => by cases e⟩
    simp only
    by_cases hi : i = eventIndexQPriority (prio t)
    · rw [hi, Function.update_self, (perm_insertPriority prio t _).nodup_iff, List.nodup_cons]
      exact ⟨hnot _, h.nodup _⟩
    · rw [Function.update_of_ne hi]
      exact h.nodup i
  | false =>
    rw [if_neg Bool.false_ne_true]
    refine ⟨fun i => ?_, fun _ i hi => ?_⟩
    · simp only
      by_cases hi : i = 0
      · rw [hi, Function.update_self, List.nodup_cons]
        exact ⟨hnot 0, h.nodup 0⟩
      · rw [Function.update_of_ne hi]
        exact h.nodup i
    · simp only
      rw [Function.update_of_ne hi]
      exact h.single rfl i hi

theorem WaitList.Fits.waits_eventUnQueue [DecidableEq T] (h : q.Fits waitPriority) :
    (q.eventUnQueue t).Waits u ↔ u ≠ t ∧ q.Waits u := by
  unfold WaitList.eventUnQueue WaitList.Waits
  simp only [(h.nodup _).mem_erase_iff, exists_and_left]

theorem WaitList.Fits.eventUnQueue [DecidableEq T] (h : q.Fits waitPriority) :
    (q.eventUnQueue t).Fits waitPriority := by
  refine ⟨fun i => (h.nodup i).erase t, fun hfifo i hi => ?_⟩
  simp only [WaitList.eventUnQueue]
  rw [h.single hfifo i hi, List.erase_nil]

theorem waits_of_eventQGetTcb (h : q.eventQGetTcb waitPriority = some t) : q.Waits t := by
  unfold WaitList.eventQGetTcb at h
  cases waitPriority with
  | true =>
    rw [if_pos rfl, Option.bind_eq_some_iff] at h
    obtain ⟨i, -, ht⟩ := h
    exact ⟨i, List.mem_of_mem_head? ht⟩
  | false =>
    rw [if_neg Bool.false_ne_true] at h
    exact ⟨0, List.mem_of_mem_getLast? h⟩

theorem WaitList.Fits.eventQGetTcb_isSome (h : q.Fits waitPriority) (hu : q.Waits u) :
    ∃ t, q.eventQGetTcb waitPriority = some t := by
  obtain ⟨i, hi⟩ := hu
  unfold WaitList.eventQGetTcb
  cases waitPriority with
  | true =>
    have hsome : ((List.finRange 8).find? fun i => !(q.pringPrio i).isEmpty).isSome := by
      rw [List.find?_isSome]
      refine ⟨i, List.mem_finRange i, ?_⟩
      cases hl : q.pringPrio i with
      | nil => rw [hl] at hi; cases hi
      | cons x l => rfl
    obtain ⟨j, hj⟩ := Option.isSome_iff_exists.mp hsome
    have hne := List.find?_some hj
    rw [if_pos rfl, hj, Option.bind_some]
    cases hl : q.pringPrio j with
    | nil => rw [hl] at hne; cases hne
    | cons x l => exact ⟨x, rfl⟩
  | false =>
    have hi0 : i = 0 := by
      by_contra hne
      rw [h.single rfl i hne] at hi
      cases hi
    rw [if_neg Bool.false_ne_true]
    exact ⟨_, List.getLast?_eq_some_getLast (List.ne_nil_of_mem (hi0 ▸ hi))⟩

end Lists

section Words

variable {w : ℕ} {c : BitVec w}

theorem toNat_eq_zero : c.toNat = 0 ↔ c = 0 := by
  constructor
  · exact fun h => BitVec.eq_of_toNat_eq (by simpa using h)
  · intro h
    rw [h]
    exact BitVec.toNat_zero

theorem toNat_one : (1 : BitVec w).toNat = 1 % 2 ^ w := rfl

theorem toNat_add_one (h : c.toNat + 1 < 2 ^ w) : (c + 1).toNat = c.toNat + 1 := by
  rw [BitVec.toNat_add, toNat_one, Nat.add_mod_mod, Nat.mod_eq_of_lt h]

theorem toNat_sub_one (h : c ≠ 0) : (c - 1).toNat = c.toNat - 1 := by
  have hpos : 0 < c.toNat := Nat.pos_of_ne_zero fun hzero => h (toNat_eq_zero.mp hzero)
  have hone : (1 : BitVec w).toNat = 1 := by
    have hlt := c.isLt
    rw [toNat_one]
    exact Nat.mod_eq_of_lt (by omega)
  rw [BitVec.toNat_sub_of_le (by rw [BitVec.le_def, hone]; exact hpos), hone]

end Words

section Blocked

variable {Q : Type*} {waitPriority : Q → Bool} {waitQ : Q → WaitList T} {pend : T → Option Q}
  {out : T → Prop} {prio : T → Fin 256} {q : Q} {t u : T}

/-- A thread is blocked on the queue that it is in; those of `out` have been taken out of theirs and
are not ready yet. -/
structure Blocked (waitPriority : Q → Bool) (waitQ : Q → WaitList T) (pend : T → Option Q)
    (out : T → Prop) : Prop where
  fits : ∀ q, (waitQ q).Fits (waitPriority q)
  waits : ∀ q t, (waitQ q).Waits t ↔ pend t = some q ∧ ¬out t

theorem blocked_create {out : T → Prop} :
    Blocked waitPriority (fun _ => WaitList.create) (fun _ => none) out :=
  ⟨fun _ => fits_create, fun _ _ => by simp⟩

theorem Blocked.congr {waitQ' : Q → WaitList T} {out' : T → Prop}
    (h : Blocked waitPriority waitQ pend out) (hqueue : ∀ q, waitQ' q = waitQ q)
    (hout : ∀ t, out' t ↔ out t) : Blocked waitPriority waitQ' pend out' := by
  obtain rfl : waitQ' = waitQ := funext hqueue
  obtain rfl : out' = out := funext fun t => propext (hout t)
  exact h

variable [DecidableEq T] [DecidableEq Q]

theorem Blocked.sleep (h : Blocked waitPriority waitQ pend out) (hpend : pend t = none)
    (hout : ¬out t) :
    Blocked waitPriority
      (Function.update waitQ q ((waitQ q).eventWait (waitPriority q) prio t))
      (Function.update pend t (some q)) out := by
  have hfresh : ∀ r, ¬(waitQ r).Waits t := by
    intro r hwaits
    have hr := ((h.waits r t).mp hwaits).1
    rw [hpend] at hr
    cases hr
  constructor
  · intro r
    by_cases hr : r = q
    · rw [hr, Function.update_self]
      exact (h.fits q).eventWait (hfresh q)
    · rw [Function.update_of_ne hr]
      exact h.fits r
  · intro r v
    by_cases hr : r = q
    · rw [hr, Function.update_self, waits_eventWait, h.waits]
      by_cases hv : v = t
      · simp [hv, hout]
      · rw [Function.update_of_ne hv]
        simp [hv]
    · rw [Function.update_of_ne hr]
      by_cases hv : v = t
      · simp [hv, Function.update_self, hfresh r, Ne.symm hr]
      · rw [Function.update_of_ne hv]
        exact h.waits r v

theorem Blocked.dequeue (h : Blocked waitPriority waitQ pend out) (hwaits : (waitQ q).Waits u) :
    Blocked waitPriority (Function.update waitQ q ((waitQ q).eventUnQueue u)) pend
      fun t => t = u ∨ out t := by
  have hpend := ((h.waits q u).mp hwaits).1
  constructor
  · intro r
    by_cases hr : r = q
    · rw [hr, Function.update_self]
      exact (h.fits q).eventUnQueue
    · rw [Function.update_of_ne hr]
      exact h.fits r
  · intro r v
    by_cases hr : r = q
    · rw [hr, Function.update_self, (h.fits q).waits_eventUnQueue, h.waits, not_or]
      exact and_left_comm
    · rw [Function.update_of_ne hr, h.waits, not_or]
      constructor
      · rintro ⟨hv, hout⟩
        refine ⟨hv, ?_, hout⟩
        rintro rfl
        exact hr (Option.some.inj (hv.symm.trans hpend))
      · exact fun hv => ⟨hv.1, hv.2.2⟩

omit [DecidableEq Q] in
theorem Blocked.ready (h : Blocked waitPriority waitQ pend out) (hout : out u) :
    Blocked waitPriority waitQ (Function.update pend u none) fun t => t ≠ u ∧ out t := by
  refine ⟨h.fits, fun r v => ?_⟩
  rw [h.waits]
  by_cases hv : v = u
  · simp [hv, hout]
  · rw [Function.update_of_ne hv]
    simp [hv]

theorem Blocked.leave (h : Blocked waitPriority waitQ pend out) (hwaits : (waitQ q).Waits t) :
    Blocked waitPriority (Function.update waitQ q ((waitQ q).eventUnQueue t))
      (Function.update pend t none) out := by
  have hout := ((h.waits q t).mp hwaits).2
  refine ((h.dequeue hwaits).ready (Or.inl rfl)).congr (fun _ => rfl) fun v => ?_
  constructor
  · intro hv
    refine ⟨?_, Or.inr hv⟩
    rintro rfl
    exact hout hv
  · exact fun hv => hv.2.resolve_left hv.1

end Blocked

section Rings

variable [DecidableEq T] {prio : T → Fin 256} {w : WaitQ T} {q : WaitList T} {t : T}

def addTCBToEventFifo (w : WaitQ T) (ptcb : T) : WaitQ T := w.addAhead ptcb 0

def eventQGetTcbFifo (w : WaitQ T) : Option T := (w.pringPrio 0).bind w.ringEvent.prev

theorem addTCBToEventFifo_spec (family : RingFamily w.ringEvent w.pringPrio q.pringPrio)
    (fresh : ¬q.Waits t) :
    RingFamily (addTCBToEventFifo w t).ringEvent (addTCBToEventFifo w t).pringPrio
      (q.eventWait false prio t).pringPrio := by
  have hnot : ∀ i, t ∉ q.pringPrio i := fun i hi => fresh ⟨i, hi⟩
  have apart : ∀ k, k ≠ 0 → ∀ x ∈ q.pringPrio k, x ∉ t :: q.pringPrio 0 := by
    intro k hk x hx hm
    rw [List.mem_cons] at hm
    cases hm with
    | inl hxt => exact hnot k (hxt ▸ hx)
    | inr hx0 => exact hk (family.disjoint hx hx0)
  obtain ⟨added, frame⟩ := listRingAddAhead_spec (family.isRing 0) (hnot 0)
  exact family.update added (fun k hk x hx => frame x (apart k hk x hx)) apart

theorem addTCBToEventPriority_list (family : RingFamily w.ringEvent w.pringPrio q.pringPrio)
    (fresh : ¬q.Waits t) (enough : ∀ i, (q.pringPrio i).length ≤ w.usNum.toNat) :
    ∃ w', addTCBToEventPriority prio w t (eventIndexQPriority (prio t)) = some w' ∧
      RingFamily w'.ringEvent w'.pringPrio (q.eventWait true prio t).pringPrio := by
  obtain ⟨w', hw, -, hfamily⟩ := addTCBToEventPriority_spec prio family
    (fun i hi => fresh ⟨i, hi⟩) (eventIndexQPriority (prio t)) (enough _)
  exact ⟨w', hw, hfamily⟩

omit [DecidableEq T] in
theorem eventQGetTcbFifo_spec (family : RingFamily w.ringEvent w.pringPrio q.pringPrio) :
    eventQGetTcbFifo w = q.eventQGetTcb false := by
  have hring := family.isRing 0
  unfold eventQGetTcbFifo WaitList.eventQGetTcb
  rw [hring.header_eq, if_neg Bool.false_ne_true]
  cases hl : q.pringPrio 0 with
  | nil => rfl
  | cons x l =>
    have hlinked := hring.linked
    rw [hl] at hlinked
    exact hlinked.1

omit [DecidableEq T] in
theorem eventDelQPriority_list (family : RingFamily w.ringEvent w.pringPrio q.pringPrio) :
    ((eventDelQPriority w).bind fun i => eventQGetTcbPriority w i) = q.eventQGetTcb true := by
  have hheader : ∀ i, w.pringPrio i = (q.pringPrio i).head? := fun i =>
    (family.isRing i).header_eq
  have hsame : (fun i => (w.pringPrio i).isSome) = fun i => !(q.pringPrio i).isEmpty := by
    funext i
    rw [hheader i]
    cases q.pringPrio i <;> rfl
  unfold eventDelQPriority WaitList.eventQGetTcb
  rw [hsame, if_pos rfl]
  congr 1
  funext i
  exact hheader i

theorem delTCBFromEvent_list (family : RingFamily w.ringEvent w.pringPrio q.pringPrio) {i : Fin 8}
    (mem : t ∈ q.pringPrio i) :
    RingFamily (delTCBFromEventPriority w t i).ringEvent (delTCBFromEventPriority w t i).pringPrio
      (q.eventUnQueue t).pringPrio := by
  have hsame : (q.eventUnQueue t).pringPrio =
      Function.update q.pringPrio i ((q.pringPrio i).erase t) := by
    funext j
    by_cases hj : j = i
    · rw [hj, Function.update_self]
      rfl
    · rw [Function.update_of_ne hj]
      exact List.erase_of_not_mem fun hin => hj (family.disjoint hin mem)
  rw [hsame]
  exact delTCBFromEventPriority_spec family mem

end Rings

end SylixOS.EventList
