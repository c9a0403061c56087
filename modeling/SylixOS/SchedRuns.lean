import SylixOS.ReadyTables

/-! Runs of the scheduler tables. Between the calls of the kernel a thread becomes
ready or stops being so, CPUs go up and down, and time slices run out; the tables
stay consistent in every state reached. -/

namespace SylixOS.CandTable
open LinkedChain ListLink BitmapLib

inductive Op where
  | ready (ptcb : Nat) (ucSchedActivate : Activate)
  | block (ptcb : Nat)
  | update (pcpu : Nat)
  | remove (pcpu : Nat)
  | setPrio (ptcb : Nat) (ucPriority : Fin 256)
  | tick (ptcb usSchedCounter : Nat)
  | setActive (pcpu : Nat) (isActive : Bool)
  | setOnlyAffinity (pcpu : Nat) (bOnlyAffinity : Bool)
  deriving DecidableEq, Repr

def step (c : Config) (s : State) : Op → Option State
  | .ready t activate =>
    let s := s.setTcb t (fun x => { x with isReady := true, ucSchedActivate := activate })
    some (addToReadyRing c s t (getPcb c s t))
  | .block t =>
    let s := s.setTcb t (fun x => { x with isReady := false })
    delFromReadyRing c s t (getPcb c s t)
  | .update i => candTableUpdate c s i
  | .remove i => some (candTableRemove c s i)
  | .setPrio t p => schedSetPrio c s t p
  | .tick t n => some (s.setTcb t (fun x => { x with usSchedCounter := n }))
  | .setActive i b => some (s.setCpu i (fun x => { x with isActive := b }))
  | .setOnlyAffinity i b => some (s.setCpu i (fun x => { x with bOnlyAffinity := b }))

def Legal (s : State) : Op → Prop
  | .ready t _ => (s.tcb t).isReady = false
  | .block t => (s.tcb t).isReady = true
  | _ => True

instance (s : State) (op : Op) : Decidable (Legal s op) :=
  match op with
  | .ready t _ => inferInstanceAs (Decidable ((s.tcb t).isReady = false))
  | .block t => inferInstanceAs (Decidable ((s.tcb t).isReady = true))
  | .update _ => isTrue trivial
  | .remove _ => isTrue trivial
  | .setPrio _ _ => isTrue trivial
  | .tick _ _ => isTrue trivial
  | .setActive _ _ => isTrue trivial
  | .setOnlyAffinity _ _ => isTrue trivial

def run (c : Config) : State → List Op → Option State
  | s, [] => some s
  | s, op :: ops => if Legal s op then (step c s op).bind (fun s => run c s ops) else none

structure Consistent (c : Config) (s : State) (ring : Pcb → List Nat) : Prop where
  isRing : ∀ k, IsRing s.ringReady (s.pringReadyHeader k) (ring k)
  /-- a ready thread is the candidate of one CPU or in one ready ring -/
  placed : ∀ t, (s.tcb t).isReady = true →
    ((s.tcb t).bIsCand = true ∧ (∀ i, (s.cpu i).ptcbCand = some t ↔ i = (s.tcb t).ulCPUId) ∧
      ∀ k, t ∉ ring k) ∨
    ((s.tcb t).bIsCand = false ∧ (∀ i, (s.cpu i).ptcbCand ≠ some t) ∧
      ∀ k, t ∈ ring k ↔ k = getPcb c s t)
  /-- a thread that is not ready is nowhere -/
  absent : ∀ t, (s.tcb t).isReady = false →
    (s.tcb t).bIsCand = false ∧ (∀ i, (s.cpu i).ptcbCand ≠ some t) ∧ ∀ k, t ∉ ring k
  /-- both levels of every bitmap agree with the rings -/
  bmap : ∀ T, Represents (s.bmap T) (Occupied ring T)

variable {c : Config} {s s' : State} {ring : Pcb → List Nat}

theorem Consistent.marked_iff (consistent : Consistent c s ring) (k : Pcb) :
    ((s.bmap k.table).uiMap.getLsbD (k.ucPriority / 32) = true ∧
      ((s.bmap k.table).uiSubMap (k.ucPriority / 32)).getLsbD (k.ucPriority % 32) = true) ↔
    ring k ≠ [] := by
  have rep := consistent.bmap k.table
  have occupied : Occupied ring k.table k.ucPriority ↔ ring k ≠ [] :=
    ⟨fun ⟨_, filled⟩ => filled, fun filled => ⟨k.ucPriority.isLt, filled⟩⟩
  rw [rep.sub _ k.ucPriority.isLt, occupied]
  refine and_iff_right_of_imp ?_
  intro filled
  have bit := (rep.sub _ k.ucPriority.isLt).mpr (occupied.mpr filled)
  have small := k.ucPriority.isLt
  exact (rep.map _).mpr ⟨by omega, ne_zero_iff_getLsbD.mpr ⟨_, Nat.mod_lt _ (by omega), bit⟩⟩

theorem consistent_iff_tables :
    Consistent c s ring ↔
      Tables (fun t => (s.tcb t).isReady) c s (fun t => (s.tcb t).isReady = true) ring := by
  constructor
  · rintro ⟨isRing, placed, absent, bmap⟩
    have queued : ∀ k t, t ∈ ring k ↔
        (s.tcb t).isReady = true ∧ (s.tcb t).bIsCand = false ∧ getPcb c s t = k := by
      intro k t
      cases status : (s.tcb t).isReady with
      | true =>
        rcases placed t status with ⟨flag, _, out⟩ | ⟨flag, _, here⟩
        · simp [flag, out k]
        · simp [flag, here k, eq_comm]
      | false =>
        obtain ⟨_, _, out⟩ := absent t status
        simp [out k]
    refine ⟨fun _ => rfl, ⟨isRing, ?_⟩, queued, ?_, ?_, bmap⟩
    · intro k k' t hk hk'
      exact ((queued k t).mp hk).2.2.symm.trans ((queued k' t).mp hk').2.2
    · intro i t
      cases status : (s.tcb t).isReady with
      | true =>
        rcases placed t status with ⟨flag, slot, _⟩ | ⟨flag, out, _⟩
        · simp [flag, slot i, eq_comm]
        · simp [flag, out i]
      | false =>
        obtain ⟨flag, out, _⟩ := absent t status
        simp [flag, out i]
    · intro t flag
      by_contra status
      obtain ⟨idle, _⟩ := absent t (by simpa using status)
      simp [idle] at flag
  · intro tables
    refine ⟨tables.family.isRing, ?_, ?_, tables.bmap⟩
    · intro t status
      cases flag : (s.tcb t).bIsCand with
      | true =>
        refine Or.inl ⟨rfl, ?_, ?_⟩
        · intro i
          rw [tables.cand]
          simp [flag, eq_comm]
        · intro k mem
          have := ((tables.queued k t).mp mem).2.1
          simp [flag] at this
      | false =>
        refine Or.inr ⟨rfl, ?_, ?_⟩
        · intro i slot
          have := ((tables.cand i t).mp slot).1
          simp [flag] at this
        · intro k
          rw [tables.queued]
          simp [status, flag, eq_comm]
    · intro t status
      have idle : (s.tcb t).bIsCand = false := by
        by_contra flag
        have := tables.held t (by simpa using flag)
        simp [status] at this
      refine ⟨idle, ?_, ?_⟩
      · intro i slot
        have := ((tables.cand i t).mp slot).1
        simp [idle] at this
      · intro k mem
        have := ((tables.queued k t).mp mem).1
        simp [status] at this

def Inv (c : Config) (s : State) : Prop :=
  ∃ G ring, Tables G c s (fun t => G t = true) ring

theorem inv_iff_consistent : Inv c s ↔ ∃ ring, Consistent c s ring := by
  constructor
  · rintro ⟨G, ring, tables⟩
    have status : G = fun t => (s.tcb t).isReady := by
      funext t
      exact (tables.status t).symm
    subst status
    exact ⟨ring, consistent_iff_tables.mpr tables⟩
  · rintro ⟨ring, consistent⟩
    exact ⟨_, ring, consistent_iff_tables.mp consistent⟩

theorem Inv.ready (inv : Inv c s) {t : Nat} {activate : Activate}
    (legal : (s.tcb t).isReady = false) (done : step c s (.ready t activate) = some s') :
    Inv c s' := by
  obtain ⟨G, ring, tables⟩ := inv
  have out : ¬ G t = true := by
    rw [← tables.status t, legal]
    simp
  have marked := tables.setTcb t (fun x => { x with isReady := true, ucSchedActivate := activate })
    (fun u => by
      by_cases hu : u = t
      · subst hu
        simp only [State.setTcb, Function.update_self]
        exact (Function.update_self u true G).symm
      · simp only [State.setTcb, Function.update_of_ne hu, tables.status])
    rfl rfl (fun _ member => absurd member out) (fun _ => Iff.rfl)
  obtain ⟨ring', added⟩ := addToReadyRing_spec marked out
  rw [← Option.some.inj done]
  refine ⟨Function.update G t true, ring', added.of_iff ?_⟩
  intro u
  by_cases hu : u = t <;> simp [hu]

theorem Inv.block (inv : Inv c s) {t : Nat} (legal : (s.tcb t).isReady = true)
    (done : step c s (.block t) = some s') : Inv c s' := by
  obtain ⟨G, ring, tables⟩ := inv
  have member : G t = true := by rw [← tables.status t, legal]
  have marked := tables.setTcb t (fun x => { x with isReady := false })
    (fun u => by
      by_cases hu : u = t
      · subst hu
        simp only [State.setTcb, Function.update_self]
        exact (Function.update_self u false G).symm
      · simp only [State.setTcb, Function.update_of_ne hu, tables.status])
    rfl rfl (fun _ _ => ⟨rfl, rfl⟩) (fun _ => Iff.rfl)
  obtain ⟨ring', deleted⟩ := delFromReadyRing_spec marked member done
  refine ⟨Function.update G t false, ring', deleted.of_iff ?_⟩
  intro u
  by_cases hu : u = t <;> simp [hu]

theorem Inv.setPrio (inv : Inv c s) {t : Nat} {p : Fin 256}
    (done : schedSetPrio c s t p = some s') : Inv c s' := by
  obtain ⟨G, ring, tables⟩ := inv
  have status : ∀ (s₁ : State), (∀ u, (s₁.tcb u).isReady = G u) → ∀ u,
      ((s₁.setTcb t (fun x => { x with ucPriority := p })).tcb u).isReady = G u := by
    intro s₁ same u
    rw [← same u]
    by_cases hu : u = t <;> simp [State.setTcb, hu]
  unfold schedSetPrio at done
  simp only at done
  split at done
  next ready =>
    split at done
    next flag =>
      rw [← Option.some.inj done]
      have rotated := tables.setRot (s.tcb t).ulCPUId true
      refine ⟨G, ring, rotated.setTcb t _ (status _ rotated.status) rfl rfl ?_ (fun _ => Iff.rfl)⟩
      intro idle
      have still : (s.tcb t).bIsCand = false := idle
      simp [flag] at still
    next idle =>
      have notCand : (s.tcb t).bIsCand = false := by simpa using idle
      have member : G t = true := by rw [← tables.status t, ready]
      obtain ⟨s₁, deleted, rfl⟩ := Option.map_eq_some_iff.mp done
      obtain ⟨ring₁, left⟩ := delFromReadyRing_spec tables member deleted
      have slot : (s.cpu (s.tcb t).ulCPUId).ptcbCand ≠ some t := by
        intro here
        have := ((tables.cand _ t).mp here).1
        simp [notCand] at this
      have tcb := delFromReadyRing_tcb notCand slot deleted
      have moved := left.setTcb t (fun x => { x with ucPriority := p }) (status s₁ left.status)
        rfl rfl (fun _ out => absurd rfl out.2) (fun _ => Iff.rfl)
      have place : getPcb c (s₁.setTcb t (fun x => { x with ucPriority := p })) t =
          getPcbEx c s t p := by
        simp [getPcb, getPcbEx, State.setTcb, tcb, tableOf]
      obtain ⟨ring', added⟩ := addToReadyRing_spec moved (t := t) (by simp)
      rw [place] at added
      refine ⟨G, ring', added.of_iff ?_⟩
      intro u
      by_cases hu : u = t
      · simp [hu, member]
      · simp [hu]
  next notReady =>
    rw [← Option.some.inj done]
    refine ⟨G, ring, tables.setTcb t _ (status s tables.status) rfl rfl ?_ (fun _ => Iff.rfl)⟩
    intro _ member
    rw [← tables.status t] at member
    exact absurd member notReady

theorem Inv.setCpu (inv : Inv c s) (i : Nat) (f : Cpu → Cpu)
    (slot : (f (s.cpu i)).ptcbCand = (s.cpu i).ptcbCand) : Inv c (s.setCpu i f) := by
  obtain ⟨G, ring, tables⟩ := inv
  refine ⟨G, ring, tables.congr tables.status rfl rfl rfl ?_
    (fun t => ⟨rfl, fun _ => rfl, fun _ _ => rfl⟩) (fun _ => Iff.rfl)⟩
  intro j
  by_cases hj : j = i
  · subst hj
    simpa [State.setCpu] using slot
  · simp [State.setCpu, hj]

theorem Inv.step (inv : Inv c s) {op : Op} (legal : Legal s op)
    (done : step c s op = some s') : Inv c s' := by
  cases op with
  | ready t activate => exact inv.ready legal done
  | block t => exact inv.block legal done
  | update i =>
    obtain ⟨G, ring, tables⟩ := inv
    obtain ⟨ring', updated⟩ := candTableUpdate_spec tables done
    exact ⟨G, ring', updated⟩
  | remove i =>
    obtain ⟨G, ring, tables⟩ := inv
    obtain ⟨ring', removed⟩ := candTableRemove_spec tables i
    exact ⟨G, ring', Option.some.inj done ▸ removed⟩
  | setPrio t p => exact inv.setPrio done
  | tick t n =>
    obtain ⟨G, ring, tables⟩ := inv
    rw [← Option.some.inj done]
    refine ⟨G, ring, tables.setTcb t _ ?_ rfl rfl (fun _ _ => ⟨rfl, rfl⟩) (fun _ => Iff.rfl)⟩
    intro u
    rw [← tables.status u]
    by_cases hu : u = t <;> simp [State.setTcb, hu]
  | setActive i b =>
    rw [← Option.some.inj done]
    exact inv.setCpu i _ rfl
  | setOnlyAffinity i b =>
    rw [← Option.some.inj done]
    exact inv.setCpu i _ rfl

theorem Inv.run (inv : Inv c s) {ops : List Op} (done : run c s ops = some s') : Inv c s' := by
  induction ops generalizing s with
  | nil => exact Option.some.inj done ▸ inv
  | cons op ops ih =>
    simp only [CandTable.run] at done
    split at done
    next legal =>
      obtain ⟨s₁, first, rest⟩ := Option.bind_eq_some_iff.mp done
      exact ih (inv.step legal first) rest
    next => exact absurd done (by simp)

/-- Every run from consistent tables ends in consistent tables. -/
theorem run_consistent (c : Config) (s s' : State) (ops : List Op)
    (start : ∃ ring, Consistent c s ring) (done : run c s ops = some s') :
    ∃ ring, Consistent c s' ring ∧ ∀ k : Pcb,
      ((s'.bmap k.table).uiMap.getLsbD (k.ucPriority / 32) = true ∧
        ((s'.bmap k.table).uiSubMap (k.ucPriority / 32)).getLsbD (k.ucPriority % 32) = true) ↔
      ring k ≠ [] := by
  have inv := (inv_iff_consistent.mpr start).run done
  obtain ⟨ring, consistent⟩ := inv_iff_consistent.mp inv
  exact ⟨ring, consistent, consistent.marked_iff⟩

def coldState : State where
  tcb := fun t =>
    { isReady := false, ucPriority := if t < 2 then prioLowest else ⟨100, by decide⟩, bCPULock := t < 2,
      ulCPULock := t, ulCPUId := t % 2, bIsCand := false, usSchedCounter := 0, usSchedSlice := 5,
      ucSchedPolicy := .rr, ucSchedActivateMode := .auto, ucSchedActivate := .other,
      ulThreadLockCounter := 0 }
  cpu := fun i =>
    { ptcbCand := none, bCandRot := false, isActive := i < 2, bOnlyAffinity := false, ulPhyId := i }
  ringReady := ⟨fun _ => none, fun _ => none⟩
  pringReadyHeader := fun _ => none
  bmap := fun _ => bitmapInit
  smtBschedEn := false
  uiNonIdle := fun _ => 0

theorem coldState_consistent (c : Config) : Consistent c coldState (fun _ => []) where
  isRing := fun _ => ⟨rfl, List.nodup_nil, trivial⟩
  placed := fun _ status => absurd status (by simp [coldState])
  absent := fun _ _ => ⟨rfl, by simp [coldState], by simp⟩
  bmap := fun T => by
    constructor
    · intro p _
      simp [coldState, bitmapInit, Occupied]
    · intro g
      simp [coldState, bitmapInit]

/-- Both CPUs start their idle threads, two threads preempt them, one changes its
priority, one blocks and a CPU goes down. -/
theorem run_consistent_two_cpus :
    ∃ s', run ⟨true, true, false, false, 2⟩ coldState
        [.ready 0 .other, .ready 1 .other, .ready 2 .interrupt, .update 0, .ready 3 .other,
          .ready 4 .other, .update 1, .setPrio 4 7, .block 3, .tick 2 0, .update 0,
          .setActive 1 false, .remove 1] = some s' ∧
      ∃ ring, Consistent ⟨true, true, false, false, 2⟩ s' ring ∧ ∀ k : Pcb,
        ((s'.bmap k.table).uiMap.getLsbD (k.ucPriority / 32) = true ∧
          ((s'.bmap k.table).uiSubMap (k.ucPriority / 32)).getLsbD (k.ucPriority % 32) = true) ↔
        ring k ≠ [] := by
  have runs : (run ⟨true, true, false, false, 2⟩ coldState
      [.ready 0 .other, .ready 1 .other, .ready 2 .interrupt, .update 0, .ready 3 .other,
        .ready 4 .other, .update 1, .setPrio 4 7, .block 3, .tick 2 0, .update 0,
        .setActive 1 false, .remove 1]).isSome = true := by decide +kernel
  obtain ⟨s', done⟩ := Option.isSome_iff_exists.mp runs
  exact ⟨s', done, run_consistent _ coldState s' _ ⟨_, coldState_consistent _⟩ done⟩

end SylixOS.CandTable
