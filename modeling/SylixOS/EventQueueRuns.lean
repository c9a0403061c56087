import SylixOS.EventQueue
import SylixOS.StepRuns
import Mathlib.Data.Fintype.Card
import Mathlib.Algebra.BigOperators.Fin
import Mathlib.Algebra.Order.BigOperators.Group.Finset

/-! Runs of a priority wait queue: threads wait, are woken, are taken out by the tick or a
signal, and change their priority. The place of a thread is found when it waits, from the
priorities of that moment; as long as changes keep the order, the first thread of the
first ring is the most urgent one. -/

namespace SylixOS.EventQueue
open LinkedChain ListLink StepRuns Function

variable {T : Type*} [DecidableEq T]

structure State (T : Type*) where
  ucPriority : T → Fin 256
  /-- `TCB_peventPtr` and `TCB_ppringPriorityQueue`: the ring that the thread waits in -/
  event : T → Option (Fin 8)
  q : WaitQ T
  /-- The threads that have been woken, and when each thread began its wait (ghost). -/
  woken : List T
  arrival : T → ℕ
  now : ℕ

def State.create (ringEvent : Links T) (ucPriority : T → Fin 256) : State T where
  ucPriority := ucPriority
  event := fun _ => none
  q := ⟨ringEvent, fun _ => none, 0⟩
  woken := []
  arrival := fun _ => 0
  now := 0

inductive Action (T : Type*) where
  | wait (ptcb : T)
  /-- a post: `_EventReadyPriorityLowLevel`, if anybody waits -/
  | wake
  | unQueue (ptcb : T)
  | setPrio (ptcb : T) (ucPriority : Fin 256)
  deriving DecidableEq

def step (s : State T) : Action T → Option (State T)
  | .wait t =>
    match s.event t with
    | some _ => none
    | none =>
      let i := eventIndexQPriority (s.ucPriority t)
      (addTCBToEventPriority s.ucPriority s.q t i).map fun q =>
        { s with
          event := update s.event t (some i)
          q := q
          arrival := update s.arrival t s.now
          now := s.now + 1 }
  | .wake =>
    if s.q.usNum = 0 then none
    else
      (eventReadyPriorityLowLevel s.q).map fun (t, q) =>
        { s with
          event := update s.event t none
          q := q
          woken := s.woken ++ [t] }
  | .unQueue t =>
    (s.event t).map fun i =>
      { s with
        event := update s.event t none
        q := delTCBFromEventPriority s.q t i }
  | .setPrio t p => some { s with ucPriority := update s.ucPriority t p }

def State.Before (s : State T) (t u : T) : Prop :=
  s.ucPriority t < s.ucPriority u ∨ s.ucPriority t = s.ucPriority u ∧ s.arrival t < s.arrival u

instance (s : State T) (t u : T) : Decidable (s.Before t u) :=
  inferInstanceAs (Decidable (_ ∨ _))

def State.MostUrgent (s : State T) (t : T) : Prop :=
  s.event t ≠ none ∧ ∀ u, s.event u ≠ none → u ≠ t → s.Before t u

/-- Every thread that is in no ring finds its place, and somebody is woken while anybody waits. -/
def State.Live (s : State T) : Prop :=
  (∀ t, s.event t = none → (step s (.wait t)).isSome) ∧
  ((∃ t, s.event t ≠ none) → (step s .wake).isSome)

/-- The number of waiters is that of the nodes of all rings; while there are any, the search finds
a ring with the most urgent one at its head, and a post wakes that one. -/
def State.Orderly (s : State T) : Prop :=
  ∃ ring : Fin 8 → List T, RingFamily s.q.ringEvent s.q.pringPrio ring ∧
    (∀ i t, t ∈ ring i ↔ s.event t = some i) ∧
    s.q.usNum.toNat = ∑ i, (ring i).length ∧
    (0 < s.q.usNum.toNat → ∃ i t, eventDelQPriority s.q = some i ∧ ring i ≠ [] ∧
      eventQGetTcbPriority s.q i = some t ∧ s.MostUrgent t ∧ (step s .wake).isSome) ∧
    (∀ s', step s .wake = some s' → ∃ t, s.MostUrgent t ∧ s'.woken = s.woken ++ [t] ∧
      s'.event = update s.event t none) ∧
    s.Live

def KeepsPrio (s : State T) : Action T → Prop
  | .setPrio t p => s.event t ≠ none → p = s.ucPriority t
  | _ => True

instance (s : State T) (a : Action T) : Decidable (KeepsPrio s a) :=
  match a with
  | .setPrio t p => inferInstanceAs (Decidable (s.event t ≠ none → p = s.ucPriority t))
  | .wait _ => isTrue trivial
  | .wake => isTrue trivial
  | .unQueue _ => isTrue trivial

structure Holds [Fintype T] (s : State T) (ring : Fin 8 → List T) : Prop where
  family : RingFamily s.q.ringEvent s.q.pringPrio ring
  mem : ∀ i t, t ∈ ring i ↔ s.event t = some i
  number : s.q.usNum.toNat = (Finset.univ.filter fun t => s.event t ≠ none).card

variable [Fintype T] {s s' : State T} {ring : Fin 8 → List T} {t : T}

omit [DecidableEq T] in
theorem holds_create (ringEvent : Links T) (ucPriority : T → Fin 256) :
    Holds (State.create ringEvent ucPriority) fun _ => [] := by
  refine ⟨⟨fun _ => ⟨rfl, List.nodup_nil, trivial⟩, fun hm => nomatch hm⟩, ?_, ?_⟩
  · intro i t
    simp [State.create]
  · simp [State.create]

theorem Holds.length_le (h : Holds s ring) (i : Fin 8) : (ring i).length ≤ s.q.usNum.toNat := by
  rw [h.number, ← List.toFinset_card_of_nodup (h.family.isRing i).nodup]
  apply Finset.card_le_card
  intro t ht
  rw [List.mem_toFinset, h.mem] at ht
  simp [ht]

theorem Holds.sum_length (h : Holds s ring) : s.q.usNum.toNat = ∑ i, (ring i).length := by
  have hunion : (Finset.univ.filter fun t => s.event t ≠ none) =
      Finset.univ.biUnion fun i => (ring i).toFinset := by
    ext t
    simp only [Finset.mem_filter, Finset.mem_univ, true_and, Finset.mem_biUnion, List.mem_toFinset,
      h.mem]
    exact Option.ne_none_iff_exists'
  rw [h.number, hunion, Finset.card_biUnion]
  · apply Finset.sum_congr rfl
    intro i _
    exact List.toFinset_card_of_nodup (h.family.isRing i).nodup
  · intro i _ j _ hij
    rw [Function.onFun, Finset.disjoint_left]
    intro t hi hj
    rw [List.mem_toFinset] at hi hj
    exact hij (h.family.disjoint hi hj)

theorem Holds.wait (h : Holds s ring) (hcard : Fintype.card T < 2 ^ 16)
    (hstep : step s (.wait t) = some s') :
    s.event t = none ∧
    Holds s' (update ring (eventIndexQPriority (s.ucPriority t))
      (insertPriority s.ucPriority t (ring (eventIndexQPriority (s.ucPriority t))))) ∧
    s'.ucPriority = s.ucPriority ∧
    s'.event = update s.event t (some (eventIndexQPriority (s.ucPriority t))) ∧
    s'.arrival = update s.arrival t s.now ∧ s'.now = s.now + 1 := by
  simp only [step] at hstep
  split at hstep
  next => cases hstep
  next hout =>
    have hfresh : ∀ i, t ∉ ring i := by
      intro i hm
      rw [h.mem, hout] at hm
      cases hm
    obtain ⟨q, hq, hnum, hfamily⟩ := addTCBToEventPriority_spec s.ucPriority h.family
      hfresh (eventIndexQPriority (s.ucPriority t)) (h.length_le _)
    rw [hq, Option.map_some] at hstep
    obtain rfl := Option.some.inj hstep
    refine ⟨hout, ⟨hfamily, ?_, ?_⟩, rfl, rfl, rfl, rfl⟩
    · intro i u
      by_cases hi : i = eventIndexQPriority (s.ucPriority t)
      · rw [hi, update_self, (perm_insertPriority s.ucPriority t _).mem_iff, List.mem_cons,
          h.mem]
        by_cases hu : u = t
        · simp [hu]
        · simp [hu]
      · rw [update_of_ne hi, h.mem]
        by_cases hu : u = t
        · simp [hu, hout, Ne.symm hi]
        · simp [hu]
    · have hset : (Finset.univ.filter fun u => update s.event t
          (some (eventIndexQPriority (s.ucPriority t))) u ≠ none) =
          insert t (Finset.univ.filter fun u => s.event u ≠ none) := by
        ext u
        by_cases hu : u = t <;> simp [hu]
      have hcards : (Finset.univ.filter fun u => s.event u ≠ none).card < Fintype.card T := by
        apply Finset.card_lt_univ_of_notMem (x := t)
        simp [hout]
      simp only
      have hone : BitVec.toNat (1 : BitVec 16) = 1 := rfl
      rw [hset, Finset.card_insert_of_notMem (by simp [hout]), hnum, BitVec.toNat_add, h.number, hone]
      omega

theorem Holds.leave (h : Holds s ring) {i : Fin 8} (ht : s.event t = some i) {woken : List T} :
    Holds ({ s with
        event := update s.event t none
        q := delTCBFromEventPriority s.q t i
        woken := woken } : State T) (update ring i ((ring i).erase t)) := by
  have hmem := (h.mem i t).mpr ht
  refine ⟨delTCBFromEventPriority_spec h.family hmem, ?_, ?_⟩
  · intro j u
    by_cases hj : j = i
    · rw [hj, update_self, (h.family.isRing i).nodup.mem_erase_iff, h.mem]
      by_cases hu : u = t <;> simp [hu]
    · rw [update_of_ne hj, h.mem]
      by_cases hu : u = t
      · simp [hu, ht, Ne.symm hj]
      · simp [hu]
  · have hset : (Finset.univ.filter fun u => update s.event t none u ≠ none) =
        (Finset.univ.filter fun u => s.event u ≠ none).erase t := by
      ext u
      by_cases hu : u = t <;> simp [hu]
    have hin : t ∈ Finset.univ.filter fun u => s.event u ≠ none := by simp [ht]
    have hpos := Finset.card_pos.mpr ⟨t, hin⟩
    have hsmall := s.q.usNum.isLt
    have hsome : 1 ≤ s.q.usNum.toNat := by
      rw [h.number]
      exact hpos
    have hone : BitVec.toNat (1 : BitVec 16) = 1 := rfl
    change (s.q.usNum - 1).toNat = _
    rw [hset, Finset.card_erase_of_mem hin, ← h.number, BitVec.toNat_sub, hone]
    omega

theorem Holds.wake (h : Holds s ring) (hstep : step s .wake = some s') :
    ∃ t i rest, eventDelQPriority s.q = some i ∧ ring i = t :: rest ∧ (∀ j < i, ring j = []) ∧
      s' = { s with
        event := update s.event t none
        q := delTCBFromEventPriority s.q t i
        woken := s.woken ++ [t] } := by
  simp only [step] at hstep
  split at hstep
  next => cases hstep
  next =>
    obtain ⟨⟨t, q⟩, hready, rfl⟩ := Option.map_eq_some_iff.mp hstep
    unfold eventReadyPriorityLowLevel at hready
    obtain ⟨i, hi, hget⟩ := Option.bind_eq_some_iff.mp hready
    obtain ⟨u, hu, hpair⟩ := Option.map_eq_some_iff.mp hget
    obtain ⟨rfl, rfl⟩ := Prod.mk.inj hpair
    obtain ⟨⟨v, rest, hring, hheader⟩, hfirst⟩ := eventDelQPriority_spec h.family hi
    have huv : u = v := Option.some.inj (hu.symm.trans hheader)
    exact ⟨u, i, rest, hi, huv ▸ hring, hfirst, rfl⟩

omit [DecidableEq T] in
theorem Holds.search (h : Holds s ring) (hpos : 0 < s.q.usNum.toNat) :
    ∃ i t rest, eventDelQPriority s.q = some i ∧ ring i = t :: rest ∧
      eventQGetTcbPriority s.q i = some t ∧ ∀ j < i, ring j = [] := by
  rw [h.number, Finset.card_pos] at hpos
  obtain ⟨u, hu⟩ := hpos
  have hu' : s.event u ≠ none := by simpa using hu
  obtain ⟨j, hj⟩ := Option.ne_none_iff_exists'.mp hu'
  have hfilled : ring j ≠ [] := List.ne_nil_of_mem ((h.mem j u).mpr hj)
  obtain ⟨i, hi⟩ := eventDelQPriority_isSome h.family hfilled
  obtain ⟨⟨t, rest, hring, hheader⟩, hfirst⟩ := eventDelQPriority_spec h.family hi
  exact ⟨i, t, rest, hi, hring, hheader, hfirst⟩

theorem Holds.wake_isSome (h : Holds s ring) (hpos : 0 < s.q.usNum.toNat) :
    (step s .wake).isSome := by
  obtain ⟨i, t, rest, hi, -, hget, -⟩ := h.search hpos
  have hnum : s.q.usNum ≠ 0 := by
    rintro hzero
    simp [hzero] at hpos
  simp only [step, if_neg hnum, eventReadyPriorityLowLevel, hi]
  simp [hget]

theorem Holds.wait_isSome (h : Holds s ring) (hout : s.event t = none) :
    (step s (.wait t)).isSome := by
  have hfresh : ∀ i, t ∉ ring i := by
    intro i hm
    rw [h.mem, hout] at hm
    cases hm
  obtain ⟨q, hq, -, -⟩ := addTCBToEventPriority_spec s.ucPriority h.family hfresh
    (eventIndexQPriority (s.ucPriority t)) (h.length_le _)
  simp [step, hout, hq]

theorem Holds.live (h : Holds s ring) : s.Live := by
  refine ⟨fun t hout => h.wait_isSome hout, fun hwaits => h.wake_isSome ?_⟩
  obtain ⟨t, ht⟩ := hwaits
  rw [h.number, Finset.card_pos]
  exact ⟨t, by simpa using ht⟩

omit [DecidableEq T] [Fintype T] in
theorem pairwise_insertPriority {prio : T → Fin 256} {r : T → T → Prop} {l : List T}
    (hweak : l.Pairwise fun u v => prio u ≤ prio v) (hr : l.Pairwise r)
    (hbefore : ∀ x ∈ l, ¬prio t < prio x → r x t) (hafter : ∀ x ∈ l, prio t < prio x → r t x) :
    (insertPriority prio t l).Pairwise r := by
  induction l with
  | nil => simp [insertPriority]
  | cons x l ih =>
    rw [List.pairwise_cons] at hweak hr
    by_cases hlow : prio t < prio x
    · have hvalue : insertPriority prio t (x :: l) = t :: x :: l := by simp [insertPriority, hlow]
      rw [hvalue, List.pairwise_cons]
      refine ⟨fun y hy => hafter y hy ?_, List.pairwise_cons.mpr hr⟩
      rw [List.mem_cons] at hy
      cases hy with
      | inl hyx => exact hyx ▸ hlow
      | inr hyl => exact lt_of_lt_of_le hlow (hweak.1 y hyl)
    · have hvalue : insertPriority prio t (x :: l) = x :: insertPriority prio t l := by
        simp [insertPriority, hlow]
      rw [hvalue, List.pairwise_cons]
      refine ⟨fun y hy => ?_, ih hweak.2 hr.2 (fun y hy => hbefore y (List.mem_cons_of_mem x hy))
        (fun y hy => hafter y (List.mem_cons_of_mem x hy))⟩
      rw [(perm_insertPriority prio t l).mem_iff, List.mem_cons] at hy
      cases hy with
      | inl hyt => exact hyt ▸ hbefore x List.mem_cons_self hlow
      | inr hyl => exact hr.1 y hyl

theorem lt_of_index_lt {p q : Fin 256} (h : eventIndexQPriority p < eventIndexQPriority q) :
    p < q := by
  rw [Fin.lt_def] at h ⊢
  simp only [eventIndexQPriority, Nat.shiftRight_eq_div_pow] at h
  omega

structure Ranked (s : State T) (ring : Fin 8 → List T) : Prop where
  sorted : ∀ i, (ring i).Pairwise fun u v => s.ucPriority u ≤ s.ucPriority v
  place : ∀ t i, s.event t = some i → i = eventIndexQPriority (s.ucPriority t)

structure Stable (s : State T) (ring : Fin 8 → List T) : Prop where
  order : ∀ i, (ring i).Pairwise s.Before
  past : ∀ t, s.event t ≠ none → s.arrival t < s.now

omit [DecidableEq T] in
theorem Holds.head_first (h : Holds s ring) (hranked : Ranked s ring) {i : Fin 8} {rest : List T}
    (hring : ring i = t :: rest) (hfirst : ∀ j < i, ring j = []) {u : T} (hu : s.event u ≠ none) :
    s.ucPriority t < s.ucPriority u ∨ u ∈ ring i := by
  obtain ⟨j, hj⟩ := Option.ne_none_iff_exists'.mp hu
  have hmem := (h.mem j u).mpr hj
  by_cases hij : j = i
  · exact Or.inr (hij ▸ hmem)
  · have hlt : i < j := by
      refine lt_of_le_of_ne (not_lt.mp fun hji => ?_) (Ne.symm hij)
      rw [hfirst j hji] at hmem
      cases hmem
    have ht : s.event t = some i := (h.mem i t).mp (by simp [hring])
    rw [hranked.place t i ht, hranked.place u j hj] at hlt
    exact Or.inl (lt_of_index_lt hlt)

omit [DecidableEq T] in
theorem Holds.mostUrgent (h : Holds s ring) (hranked : Ranked s ring) (hstable : Stable s ring)
    {i : Fin 8} {rest : List T} (hring : ring i = t :: rest) (hfirst : ∀ j < i, ring j = []) :
    s.MostUrgent t := by
  have ht : s.event t = some i := (h.mem i t).mp (by simp [hring])
  refine ⟨by simp [ht], fun u hu hut => ?_⟩
  cases h.head_first hranked hring hfirst hu with
  | inl hlt => exact Or.inl hlt
  | inr hmem =>
    have horder := hstable.order i
    rw [hring, List.pairwise_cons] at horder
    rw [hring, List.mem_cons] at hmem
    exact horder.1 u (hmem.resolve_left hut)

omit [DecidableEq T] in
theorem Holds.highest (h : Holds s ring) (hranked : Ranked s ring) {i : Fin 8} {rest : List T}
    (hring : ring i = t :: rest) (hfirst : ∀ j < i, ring j = []) {u : T} (hu : s.event u ≠ none) :
    s.ucPriority t ≤ s.ucPriority u := by
  cases h.head_first hranked hring hfirst hu with
  | inl hlt => exact le_of_lt hlt
  | inr hmem =>
    have hsorted := hranked.sorted i
    rw [hring, List.pairwise_cons] at hsorted
    rw [hring, List.mem_cons] at hmem
    cases hmem with
    | inl hut => rw [hut]
    | inr hrest => exact hsorted.1 u hrest

omit [Fintype T] in
theorem Ranked.wait (hranked : Ranked s ring) (hpriority : s'.ucPriority = s.ucPriority)
    (hevent : s'.event = update s.event t (some (eventIndexQPriority (s.ucPriority t)))) :
    Ranked s' (update ring (eventIndexQPriority (s.ucPriority t))
      (insertPriority s.ucPriority t (ring (eventIndexQPriority (s.ucPriority t))))) := by
  refine ⟨fun i => ?_, fun u i hu => ?_⟩
  · rw [hpriority]
    by_cases hi : i = eventIndexQPriority (s.ucPriority t)
    · rw [hi, update_self]
      exact pairwise_insertPriority (hranked.sorted _) (hranked.sorted _)
        (fun x _ hx => not_lt.mp hx) (fun x _ hx => le_of_lt hx)
    · rw [update_of_ne hi]
      exact hranked.sorted i
  · rw [hpriority]
    rw [hevent] at hu
    by_cases hut : u = t
    · rw [hut, update_self] at hu
      rw [hut, Option.some.inj hu]
    · rw [update_of_ne hut] at hu
      exact hranked.place u i hu

theorem Stable.wait (h : Holds s ring) (hranked : Ranked s ring) (hstable : Stable s ring)
    (hout : s.event t = none) (hpriority : s'.ucPriority = s.ucPriority)
    (hevent : s'.event = update s.event t (some (eventIndexQPriority (s.ucPriority t))))
    (harrival : s'.arrival = update s.arrival t s.now) (hnow : s'.now = s.now + 1) :
    Stable s' (update ring (eventIndexQPriority (s.ucPriority t))
      (insertPriority s.ucPriority t (ring (eventIndexQPriority (s.ucPriority t))))) := by
  have hne : ∀ i, ∀ x ∈ ring i, x ≠ t := by
    rintro i x hx rfl
    rw [h.mem, hout] at hx
    cases hx
  have hkept : ∀ i, (ring i).Pairwise s'.Before := by
    intro i
    refine (hstable.order i).imp_of_mem fun {u v} hu hv huv => ?_
    simpa only [State.Before, hpriority, harrival, update_of_ne (hne i u hu),
      update_of_ne (hne i v hv)] using huv
  refine ⟨fun i => ?_, fun u hu => ?_⟩
  · by_cases hi : i = eventIndexQPriority (s.ucPriority t)
    · rw [hi, update_self]
      refine pairwise_insertPriority (hranked.sorted _) (hkept _) (fun x hx hle => ?_)
        (fun x hx hlt => ?_)
      · -- the newcomer is the last among its equals
        have hxt := hne _ x hx
        have hpast : s.arrival x < s.now := hstable.past x (by simp [(h.mem _ x).mp hx])
        simp only [State.Before, hpriority, harrival, update_of_ne hxt,
          update_self]
        cases lt_or_eq_of_le (not_lt.mp hle) with
        | inl hlt => exact Or.inl hlt
        | inr heq => exact Or.inr ⟨heq, hpast⟩
      · simp only [State.Before, hpriority]
        exact Or.inl hlt
    · rw [update_of_ne hi]
      exact hkept i
  · rw [hevent] at hu
    rw [harrival, hnow]
    by_cases hut : u = t
    · rw [hut, update_self]
      exact Nat.lt_succ_self _
    · rw [update_of_ne hut] at hu ⊢
      exact Nat.lt_succ_of_lt (hstable.past u hu)

omit [Fintype T] in
theorem Ranked.leave (hranked : Ranked s ring) {i : Fin 8} (hpriority : s'.ucPriority = s.ucPriority)
    (hevent : s'.event = update s.event t none) :
    Ranked s' (update ring i ((ring i).erase t)) := by
  refine ⟨fun j => ?_, fun u j hu => ?_⟩
  · rw [hpriority]
    by_cases hj : j = i
    · rw [hj, update_self]
      exact (hranked.sorted i).sublist List.erase_sublist
    · rw [update_of_ne hj]
      exact hranked.sorted j
  · rw [hpriority]
    rw [hevent] at hu
    by_cases hut : u = t
    · rw [hut, update_self] at hu
      cases hu
    · rw [update_of_ne hut] at hu
      exact hranked.place u j hu

omit [Fintype T] in
theorem Stable.leave (hstable : Stable s ring) {i : Fin 8} (hpriority : s'.ucPriority = s.ucPriority)
    (hevent : s'.event = update s.event t none) (harrival : s'.arrival = s.arrival)
    (hnow : s'.now = s.now) : Stable s' (update ring i ((ring i).erase t)) := by
  have hsame : s'.Before = s.Before := by
    funext u v
    simp only [State.Before, hpriority, harrival]
  refine ⟨fun j => ?_, fun u hu => ?_⟩
  · rw [hsame]
    by_cases hj : j = i
    · rw [hj, update_self]
      exact (hstable.order i).sublist List.erase_sublist
    · rw [update_of_ne hj]
      exact hstable.order j
  · rw [harrival, hnow]
    rw [hevent] at hu
    by_cases hut : u = t
    · rw [hut, update_self] at hu
      exact absurd rfl hu
    · rw [update_of_ne hut] at hu
      exact hstable.past u hu

def Ok (s : State T) : Prop := ∃ ring, Holds s ring ∧ Ranked s ring ∧ Stable s ring

theorem Ok.orderly (h : Ok s) : s.Orderly := by
  obtain ⟨ring, hholds, hranked, hstable⟩ := h
  refine ⟨ring, hholds.family, hholds.mem, hholds.sum_length, fun hpos => ?_, fun s' hstep => ?_,
    hholds.live⟩
  · obtain ⟨i, t, rest, hi, hring, hget, hfirst⟩ := hholds.search hpos
    exact ⟨i, t, hi, by simp [hring], hget, hholds.mostUrgent hranked hstable hring hfirst,
      hholds.wake_isSome hpos⟩
  · obtain ⟨t, i, rest, -, hring, hfirst, rfl⟩ := hholds.wake hstep
    exact ⟨t, hholds.mostUrgent hranked hstable hring hfirst, rfl, rfl⟩

theorem Ok.step (h : Ok s) (hcard : Fintype.card T < 2 ^ 16) {a : Action T} (hkeeps : KeepsPrio s a)
    (hstep : step s a = some s') : Ok s' := by
  obtain ⟨ring, hholds, hranked, hstable⟩ := h
  cases a with
  | wait t =>
    obtain ⟨hout, hholds', hpriority, hevent, harrival, hnow⟩ := hholds.wait hcard hstep
    exact ⟨_, hholds', hranked.wait hpriority hevent,
      hstable.wait hholds hranked hout hpriority hevent harrival hnow⟩
  | wake =>
    obtain ⟨t, i, rest, -, hring, -, rfl⟩ := hholds.wake hstep
    have ht : s.event t = some i := (hholds.mem i t).mp (by simp [hring])
    exact ⟨_, hholds.leave ht, hranked.leave rfl rfl, hstable.leave rfl rfl rfl rfl⟩
  | unQueue t =>
    obtain ⟨i, ht, rfl⟩ := Option.map_eq_some_iff.mp hstep
    exact ⟨_, hholds.leave ht, hranked.leave rfl rfl, hstable.leave rfl rfl rfl rfl⟩
  | setPrio t p =>
    obtain rfl := Option.some.inj hstep
    have hqueued : ∀ u, s.event u ≠ none →
        update s.ucPriority t p u = s.ucPriority u := by
      intro u hu
      by_cases hut : u = t
      · rw [hut] at hu ⊢
        rw [update_self]
        exact hkeeps hu
      · exact update_of_ne hut p s.ucPriority
    have hsame : ∀ i, ∀ u ∈ ring i, update s.ucPriority t p u = s.ucPriority u := by
      intro i u hu
      exact hqueued u (by simp [(hholds.mem i u).mp hu])
    refine ⟨ring, ⟨hholds.family, hholds.mem, hholds.number⟩, ⟨fun i => ?_, fun u i hu => ?_⟩,
      ⟨fun i => ?_, hstable.past⟩⟩
    · refine (hranked.sorted i).imp_of_mem fun {u v} hu hv huv => ?_
      simp only
      rw [hsame i u hu, hsame i v hv]
      exact huv
    · simp only
      have hu' : s.event u = some i := hu
      rw [hqueued u (by simp [hu'])]
      exact hranked.place u i hu
    · refine (hstable.order i).imp_of_mem fun {u v} hu hv huv => ?_
      simp only [State.Before]
      rw [hsame i u hu, hsame i v hv]
      exact huv

omit [DecidableEq T] in
theorem ok_create (ringEvent : Links T) (ucPriority : T → Fin 256) :
    Ok (State.create ringEvent ucPriority) := by
  refine ⟨fun _ => [], holds_create ringEvent ucPriority, ⟨fun _ => List.Pairwise.nil, ?_⟩,
    ⟨fun _ => List.Pairwise.nil, ?_⟩⟩
  · intro t i ht
    cases ht
  · intro t ht
    exact absurd rfl ht

/-- Along every run in which no queued thread changes its priority, the waiters are counted,
found and woken in order, and no wait and no post gets stuck. -/
theorem woken_in_order (hcard : Fintype.card T < 2 ^ 16) (ringEvent : Links T)
    (ucPriority : T → Fin 256) (actions : List (Action T))
    (hkeeps : Obeys step KeepsPrio (State.create ringEvent ucPriority) actions) :
    Visits step State.Orderly (State.create ringEvent ucPriority) actions :=
  (visits_of_obeys (fun _ _ _ h hk hstep => Ok.step h hcard hk hstep)
    (ok_create ringEvent ucPriority) hkeeps).mono fun _ h => h.orderly

/-- Five threads in two rings; one of them leaves the head of its ring, one comes back. -/
theorem woken_in_order_five :
    Visits step State.Orderly
      (State.create ⟨fun _ => none, fun _ => none⟩ ![40, 10, 10, 5, 40] : State (Fin 5))
      [.wait 0, .wait 1, .wait 2, .wait 3, .unQueue 3, .setPrio 3 12, .wait 3, .wait 4, .wake,
        .wake, .wait 1, .wake, .wake, .wake, .wake] :=
  woken_in_order (by decide) _ _ _ (by decide)

/-- The next thread to be woken is as high as every waiter, and there is one while anybody
waits. -/
def State.NextHighest (s : State T) : Prop :=
  (∀ s', step s .wake = some s' → ∃ t, s'.woken = s.woken ++ [t] ∧
    s'.event = update s.event t none ∧ s.event t ≠ none ∧
    ∀ u, s.event u ≠ none → s.ucPriority t ≤ s.ucPriority u) ∧
  s.Live

/-- A queued thread that changes its priority stays within its ring and between its neighbours. -/
def KeepsPlace (s : State T) : Action T → Prop
  | .setPrio t p => ∀ i, s.event t = some i → eventIndexQPriority p = i ∧
      (∀ u, s.q.ringEvent.prev t = some u → s.q.pringPrio i ≠ some t → s.ucPriority u ≤ p) ∧
      ∀ u, s.q.ringEvent.next t = some u → s.q.pringPrio i ≠ some u → p ≤ s.ucPriority u
  | _ => True

instance (s : State T) (a : Action T) : Decidable (KeepsPlace s a) :=
  match a with
  | .setPrio t p => inferInstanceAs (Decidable (∀ i, s.event t = some i →
      eventIndexQPriority p = i ∧
      (∀ u, s.q.ringEvent.prev t = some u → s.q.pringPrio i ≠ some t → s.ucPriority u ≤ p) ∧
      ∀ u, s.q.ringEvent.next t = some u → s.q.pringPrio i ≠ some u → p ≤ s.ucPriority u))
  | .wait _ => isTrue trivial
  | .wake => isTrue trivial
  | .unQueue _ => isTrue trivial

omit [DecidableEq T] [Fintype T] in
theorem ring_neighbours {L : Links T} {header : Option T} {front back : List T}
    (hring : IsRing L header (front ++ t :: back)) :
    (∀ z, front.getLast? = some z → L.prev t = some z ∧ header ≠ some t) ∧
    ∀ x, back.head? = some x → L.next t = some x ∧ header ≠ some x := by
  obtain ⟨hheader, hnodup, hlinked⟩ := hring
  obtain ⟨-, hprev, hnext, -⟩ := (linked_append L _ _ front (t :: back)).mp hlinked
  have happ := List.nodup_append.mp hnodup
  constructor
  · intro z hz
    rw [hz, Option.some_or] at hprev
    refine ⟨hprev, fun he => ?_⟩
    cases front with
    | nil => cases hz
    | cons y front =>
      rw [hheader, List.cons_append, List.head?_cons] at he
      exact happ.2.2 y List.mem_cons_self t List.mem_cons_self (Option.some.inj he)
  · intro x hx
    rw [hx, Option.some_or] at hnext
    refine ⟨hnext, fun he => ?_⟩
    have hxback : x ∈ back := List.mem_of_mem_head? hx
    cases front with
    | nil =>
      rw [hheader, List.nil_append, List.head?_cons] at he
      have htx : t = x := Option.some.inj he
      exact (List.nodup_cons.mp happ.2.1).1 (htx ▸ hxback)
    | cons y front =>
      rw [hheader, List.cons_append, List.head?_cons] at he
      exact happ.2.2 y List.mem_cons_self x (List.mem_cons_of_mem t hxback) (Option.some.inj he)

omit [Fintype T] in
theorem pairwise_update {prio : T → Fin 256} {p : Fin 256} {front back : List T}
    (hnodup : (front ++ t :: back).Nodup)
    (hsorted : (front ++ t :: back).Pairwise fun u v => prio u ≤ prio v)
    (hbelow : ∀ z, front.getLast? = some z → prio z ≤ p)
    (habove : ∀ x, back.head? = some x → p ≤ prio x) :
    (front ++ t :: back).Pairwise fun u v =>
      update prio t p u ≤ update prio t p v := by
  have happ := List.nodup_append.mp hnodup
  have hfront : ∀ u ∈ front, update prio t p u = prio u := fun u hu =>
    update_of_ne (happ.2.2 u hu t List.mem_cons_self) p prio
  have hback : ∀ u ∈ back, update prio t p u = prio u := fun u hu =>
    update_of_ne (fun (e : u = t) => (List.nodup_cons.mp happ.2.1).1 (e ▸ hu)) p prio
  rw [List.pairwise_append, List.pairwise_cons] at hsorted ⊢
  obtain ⟨hsf, ⟨htb, hsb⟩, hcross⟩ := hsorted
  have hle : ∀ u ∈ front, prio u ≤ p := by
    intro u hu
    obtain ⟨z, hz⟩ : ∃ z, front.getLast? = some z := ⟨_, List.getLast?_eq_some_getLast
      (List.ne_nil_of_mem hu)⟩
    have hsplit := List.dropLast_append_getLast? z hz
    rw [← hsplit] at hu hsf
    rw [List.mem_append, List.mem_singleton] at hu
    cases hu with
    | inl hu =>
      rw [List.pairwise_append] at hsf
      exact le_trans (hsf.2.2 u hu z List.mem_cons_self) (hbelow z hz)
    | inr hu => exact hu ▸ hbelow z hz
  have hge : ∀ u ∈ back, p ≤ prio u := by
    intro u hu
    cases back with
    | nil => cases hu
    | cons x back =>
      rw [List.mem_cons] at hu
      cases hu with
      | inl hu => exact hu ▸ habove x rfl
      | inr hu => exact le_trans (habove x rfl) ((List.pairwise_cons.mp hsb).1 u hu)
  refine ⟨hsf.imp_of_mem fun hu hv huv => ?_, ⟨fun v hv => ?_, hsb.imp_of_mem fun hu hv huv => ?_⟩,
    fun u hu v hv => ?_⟩
  · rw [hfront _ hu, hfront _ hv]
    exact huv
  · rw [update_self, hback v hv]
    exact hge v hv
  · rw [hback _ hu, hback _ hv]
    exact huv
  · rw [hfront u hu]
    rw [List.mem_cons] at hv
    cases hv with
    | inl hv =>
      rw [hv, update_self]
      exact hle u hu
    | inr hv =>
      rw [hback v hv]
      exact hcross u hu v (List.mem_cons_of_mem t hv)

theorem Ranked.setPrio (h : Holds s ring) (hranked : Ranked s ring) {p : Fin 256}
    (hkeeps : KeepsPlace s (.setPrio t p)) :
    Ranked { s with ucPriority := update s.ucPriority t p } ring := by
  refine ⟨fun i => ?_, fun u i hu => ?_⟩
  · by_cases ht : t ∈ ring i
    · obtain ⟨front, back, hsplit⟩ := List.append_of_mem ht
      obtain ⟨-, hprev, hnext⟩ := hkeeps i ((h.mem i t).mp ht)
      have hring := h.family.isRing i
      have hsorted := hranked.sorted i
      rw [hsplit] at hring hsorted ⊢
      obtain ⟨hbelow, habove⟩ := ring_neighbours hring
      exact pairwise_update hring.nodup hsorted
        (fun z hz => hprev z (hbelow z hz).1 (hbelow z hz).2)
        (fun x hx => hnext x (habove x hx).1 (habove x hx).2)
    · refine (hranked.sorted i).imp_of_mem fun {u v} hu hv huv => ?_
      simp only
      rw [update_of_ne (fun (e : u = t) => ht (e ▸ hu)),
        update_of_ne (fun (e : v = t) => ht (e ▸ hv))]
      exact huv
  · simp only
    by_cases hut : u = t
    · rw [hut, update_self]
      exact (hkeeps i (hut ▸ hu)).1.symm
    · rw [update_of_ne hut]
      exact hranked.place u i hu

def Good (s : State T) : Prop := ∃ ring, Holds s ring ∧ Ranked s ring

theorem Good.step (h : Good s) (hcard : Fintype.card T < 2 ^ 16) {a : Action T}
    (hkeeps : KeepsPlace s a) (hstep : step s a = some s') : Good s' := by
  obtain ⟨ring, hholds, hranked⟩ := h
  cases a with
  | wait t =>
    obtain ⟨-, hholds', hpriority, hevent, -, -⟩ := hholds.wait hcard hstep
    exact ⟨_, hholds', hranked.wait hpriority hevent⟩
  | wake =>
    obtain ⟨t, i, rest, -, hring, -, rfl⟩ := hholds.wake hstep
    have ht : s.event t = some i := (hholds.mem i t).mp (by simp [hring])
    exact ⟨_, hholds.leave ht, hranked.leave rfl rfl⟩
  | unQueue t =>
    obtain ⟨i, ht, rfl⟩ := Option.map_eq_some_iff.mp hstep
    exact ⟨_, hholds.leave ht, hranked.leave rfl rfl⟩
  | setPrio t p =>
    obtain rfl := Option.some.inj hstep
    exact ⟨ring, ⟨hholds.family, hholds.mem, hholds.number⟩, hranked.setPrio hholds hkeeps⟩

theorem Good.nextHighest (h : Good s) : s.NextHighest := by
  obtain ⟨ring, hholds, hranked⟩ := h
  refine ⟨fun s' hstep => ?_, hholds.live⟩
  obtain ⟨t, i, rest, -, hring, hfirst, rfl⟩ := hholds.wake hstep
  have ht : s.event t = some i := (hholds.mem i t).mp (by simp [hring])
  exact ⟨t, rfl, rfl, by simp [ht], fun u hu => hholds.highest hranked hring hfirst hu⟩

/-- Along every run in which a queued thread that changes its priority keeps its place, the next
thread to be woken is as high as every waiter, and a post wakes somebody while anybody waits. -/
theorem next_highest (hcard : Fintype.card T < 2 ^ 16) (ringEvent : Links T)
    (ucPriority : T → Fin 256) (actions : List (Action T))
    (hkeeps : Obeys step KeepsPlace (State.create ringEvent ucPriority) actions) :
    Visits step State.NextHighest (State.create ringEvent ucPriority) actions := by
  have hgood : Good (State.create ringEvent ucPriority) := by
    obtain ⟨ring, hholds, hranked, -⟩ := ok_create ringEvent ucPriority
    exact ⟨ring, hholds, hranked⟩
  exact (visits_of_obeys (fun _ _ _ h hk hstep => Good.step h hcard hk hstep) hgood
    hkeeps).mono fun _ h => h.nextHighest

/-- The middle one of three waiters is raised to the priority of the first. -/
theorem next_highest_three :
    Visits step State.NextHighest
      (State.create ⟨fun _ => none, fun _ => none⟩ ![10, 15, 20] : State (Fin 3))
      [.wait 2, .wait 0, .wait 1, .setPrio 1 10, .wake, .setPrio 2 25, .wake, .wake] :=
  next_highest (by decide) _ _ _ (by decide)

/-- The second waiter is raised above the first, which is woken next all the same. -/
theorem raised_waiter_not_next :
    ¬Visits step State.NextHighest
      (State.create ⟨fun _ => none, fun _ => none⟩ ![10, 20] : State (Fin 2))
      [.wait 0, .wait 1, .setPrio 1 5] := by
  intro h
  have hrun : ((run step (State.create ⟨fun _ => none, fun _ => none⟩ ![10, 20] : State (Fin 2))
      [.wait 0, .wait 1, .setPrio 1 5]).map fun s =>
        ((step s .wake).map State.woken, s.woken, s.event 1, s.ucPriority 0, s.ucPriority 1)) =
      some (some [0], [], some 0, 10, 5) := by decide
  obtain ⟨s', hlast, hvalues⟩ := Option.map_eq_some_iff.mp hrun
  simp only [Prod.mk.injEq] at hvalues
  obtain ⟨hwoken, hbefore, hevent, h0, h1⟩ := hvalues
  obtain ⟨s₂, hstep, hlist⟩ := Option.map_eq_some_iff.mp hwoken
  obtain ⟨t, htwoken, -, -, hhigh⟩ := (h.last hlast).1 s₂ hstep
  rw [hlist, hbefore, List.nil_append] at htwoken
  obtain rfl : 0 = t := (List.cons.inj htwoken).1
  have hle := hhigh 1 (by simp [hevent])
  rw [h0, h1] at hle
  exact absurd hle (by decide)

end SylixOS.EventQueue
