import SylixOS.CandRefill
import SylixOS.StepRuns

/-! The candidate of a kernel without `LW_CFG_SMP_EN`. `_CandTableTryAdd` puts a higher
thread into the slot at once, unless the candidate has locked the scheduler; this and a
changed priority only set the flag, and `_CandTableUpdate` makes up for them. While
the flag is clear nothing that is ready is higher than the candidate. -/

namespace SylixOS.CandTable
open LinkedChain ListLink BitmapLib StepRuns

variable {c : Config} {s s' x : State} {ring : Pcb → List Nat}

inductive SingleCall where
  /-- `__ADD_TO_READY_RING`, for a thread that becomes ready -/
  | ready (ptcb : Nat) (ucSchedActivate : Activate)
  /-- `__DEL_FROM_READY_RING`, for one that stops being so -/
  | block (ptcb : Nat)
  /-- `_SchedSetPrio` -/
  | setPrio (ptcb : Nat) (ucPriority : Fin 256)
  /-- `_CandTableUpdate` -/
  | update
  /-- `_CpuActive` -/
  | active
  /-- what remains of the time slice -/
  | tick (ptcb usSchedCounter : Nat)
  /-- the flag is set by `_SchedTick` and by `_SchedYield` -/
  | rotate
  /-- a thread locks the scheduler, or unlocks it -/
  | lock (ptcb ulThreadLockCounter : Nat)
  deriving DecidableEq, Repr

def cpuActive (c : Config) (s : State) : Option State :=
  if (s.cpu 0).isActive then some s
  else candTableUpdate c (s.setCpu 0 (fun x => { x with isActive := true })) 0

def singleStep (c : Config) (s : State) : SingleCall → Option State
  | .ready t activate => if (s.tcb t).isReady then none else step c s (.ready t activate)
  | .block t => if (s.tcb t).isReady then step c s (.block t) else none
  | .setPrio t p => step c s (.setPrio t p)
  | .update => step c s (.update 0)
  | .active => cpuActive c s
  | .tick t n => step c s (.tick t n)
  | .rotate => some (s.setRot 0 true)
  | .lock t n => some (s.setTcb t (fun x => { x with ulThreadLockCounter := n }))

def Highest (s : State) (v : Nat) : Prop :=
  ∀ t, (s.tcb t).isReady = true → (s.tcb v).ucPriority ≤ (s.tcb t).ucPriority

/-- There is a candidate, and neither a ready thread nor a priority in the ready table is
higher. -/
def CandLeads (s : State) : Prop :=
  ∃ v, (s.cpu 0).ptcbCand = some v ∧ Highest s v ∧
    (bitmapIsEmpty (s.bmap .global) = false → (s.tcb v).ucPriority ≤ bitmapHigh (s.bmap .global))

structure Booting (c : Config) (s : State) : Prop where
  single : c.smpEn = false
  consistent : ∃ ring, Consistent c s ring
  isActive : (s.cpu 0).isActive = false
  slots : ∀ i, (s.cpu i).ptcbCand = none

structure Leading (c : Config) (s : State) : Prop where
  single : c.smpEn = false
  tables : ∃ ring, Tabled c s ring
  others : ∀ i, i ≠ 0 → (s.cpu i).ptcbCand = none
  stopped : (s.cpu 0).isActive = false → (s.cpu 0).ptcbCand = none
  leads : (s.cpu 0).isActive = true → ∃ v, (s.cpu 0).ptcbCand = some v ∧
    ((s.cpu 0).bCandRot = false → Highest s v)

theorem Leading.of_booting (h : Booting c s) : Leading c s := by
  obtain ⟨ring, consistent⟩ := h.consistent
  refine ⟨h.single, ⟨ring, consistent_iff_tables.mp consistent⟩, fun i _ => h.slots i,
    fun _ => h.slots 0, fun active => ?_⟩
  rw [h.isActive] at active
  cases active

theorem tableOf_single (single : c.smpEn = false) (y : Tcb) : tableOf c y = .global := by
  simp [tableOf, single]

theorem getPcb_single (single : c.smpEn = false) (t : Nat) :
    getPcb c s t = ⟨.global, (s.tcb t).ucPriority⟩ := by
  rw [getPcb, getPcbEx, tableOf_single single]

theorem mem_ring_single (single : c.smpEn = false) (tables : Tabled c s ring) {t : Nat}
    (ready : (s.tcb t).isReady = true) (idle : (s.tcb t).bIsCand = false) :
    t ∈ ring ⟨.global, (s.tcb t).ucPriority⟩ :=
  (tables.queued _ t).mpr ⟨ready, idle, getPcb_single single t⟩

theorem candTableSeek_single (single : c.smpEn = false) (s : State) (i : Nat) :
    candTableSeek c s i =
      if bitmapIsEmpty (s.bmap .global) then none else some (tableHigh s .global) := by
  simp [candTableSeek, single]

theorem seek_none_single (single : c.smpEn = false) (tables : Tabled c s ring) {i : Nat}
    (seek : candTableSeek c s i = none) {t : Nat} (ready : (s.tcb t).isReady = true) :
    (s.tcb t).bIsCand = true := by
  rw [candTableSeek_single single] at seek
  split at seek
  next empty =>
    by_contra idle
    have mem := mem_ring_single single tables ready (by simpa using idle)
    rw [global_empty tables empty] at mem
    cases mem
  next => cases seek

theorem seek_high_single (single : c.smpEn = false) (tables : Tabled c s ring) {i : Nat} {k : Pcb}
    (seek : candTableSeek c s i = some k) {t : Nat} (ready : (s.tcb t).isReady = true)
    (idle : (s.tcb t).bIsCand = false) : k.ucPriority ≤ (s.tcb t).ucPriority := by
  rw [candTableSeek_single single] at seek
  split at seek
  next => cases seek
  next filled =>
    obtain rfl := Option.some.inj seek
    apply tableHigh_le tables .global (by simpa using filled)
    exact List.ne_nil_of_mem (mem_ring_single single tables ready idle)

theorem Highest.candLeads {v : Nat} (h : Highest s v) (tables : Tabled c s ring)
    (slot : (s.cpu 0).ptcbCand = some v) : CandLeads s := by
  refine ⟨v, slot, h, fun filled => ?_⟩
  obtain ⟨small, ⟨hp, some⟩, -⟩ := (tables.bmap .global).high_spec filled
  obtain ⟨t, mem⟩ := List.exists_mem_of_ne_nil _ some
  obtain ⟨ready, -, place⟩ := (tables.queued _ t).mp mem
  have prio : (s.tcb t).ucPriority = ⟨bitmapHigh (s.bmap .global), hp⟩ :=
    congrArg Pcb.ucPriority place
  have le := h t ready
  rw [prio] at le
  exact le

theorem candTableFill_highest (single : c.smpEn = false) (tables : Tabled c x ring)
    (slots : ∀ i, (x.cpu i).ptcbCand = none) (done : candTableFill c x 0 = some s') :
    ∃ w, Refill x s' 0 w ∧ Highest x w := by
  obtain ⟨k, seek, resel⟩ := Option.bind_eq_some_iff.mp done
  obtain ⟨w, ⟨-, -, place⟩, refill⟩ :=
    candTableResel_refill tables (candTableSeek_spec tables seek) resel
  refine ⟨w, refill, fun t ready => ?_⟩
  have idle : (x.tcb t).bIsCand = false := by
    by_contra flag
    have slot := (tables.cand (x.tcb t).ulCPUId t).mpr ⟨by simpa using flag, rfl⟩
    rw [slots] at slot
    cases slot
  have prio : (x.tcb w).ucPriority = k.ucPriority := congrArg Pcb.ucPriority place
  rw [prio]
  exact seek_high_single single tables seek ready idle

theorem Refill.highest {w v : Nat} (h : Refill x s' 0 w) (high : Highest x v) : Highest s' v := by
  intro t ready
  rw [(h.task v).ucPriority, (h.task t).ucPriority]
  apply high
  rw [← (h.task t).isReady]
  exact ready

theorem Leading.of_refill (single : c.smpEn = false) {w : Nat} (refill : Refill x s' 0 w)
    (high : Highest x w) (others : ∀ i, i ≠ 0 → (x.cpu i).ptcbCand = none)
    (active : (x.cpu 0).isActive = true) (tables : ∃ ring, Tabled c (s'.setRot 0 false) ring) :
    Leading c (s'.setRot 0 false) ∧ CandLeads (s'.setRot 0 false) := by
  have slot : ((s'.setRot 0 false).cpu 0).ptcbCand = some w := by
    simp [State.setRot, State.setCpu, refill.cpu]
  have high' : Highest (s'.setRot 0 false) w := refill.highest high
  obtain ⟨ring, tabled⟩ := tables
  refine ⟨⟨single, ⟨ring, tabled⟩, fun i hi => ?_, fun stopped => ?_,
    fun _ => ⟨w, slot, fun _ => high'⟩⟩, high'.candLeads tabled slot⟩
  · rw [setRot_of_ne hi, refill.cpu, Function.update_of_ne hi]
    exact others i hi
  · simp [State.setRot, State.setCpu, refill.cpu, active] at stopped

theorem Leading.cand_eq (h : Leading c s) (tables : Tabled c s ring) {v t : Nat}
    (slot : (s.cpu 0).ptcbCand = some v) (flag : (s.tcb t).bIsCand = true) : t = v := by
  have here := (tables.cand (s.tcb t).ulCPUId t).mpr ⟨flag, rfl⟩
  by_cases home : (s.tcb t).ulCPUId = 0
  · rw [home, slot] at here
    exact (Option.some.inj here).symm
  · rw [h.others _ home] at here
    cases here

theorem Leading.keep (h : Leading c s) {v : Nat} (slot : (s.cpu 0).ptcbCand = some v)
    (active : (s.cpu 0).isActive = true) (high : Highest s v) :
    Leading c (s.setRot 0 false) ∧ CandLeads (s.setRot 0 false) := by
  have slot' : ((s.setRot 0 false).cpu 0).ptcbCand = some v := by
    simp [State.setRot, State.setCpu, slot]
  obtain ⟨ring, tables⟩ := h.tables
  have tabled : Tabled c (s.setRot 0 false) ring := tables.setRot 0 false
  refine ⟨⟨h.single, ⟨ring, tabled⟩, fun i hi => ?_, fun stopped => ?_,
    fun _ => ⟨v, slot', fun _ => high⟩⟩, Highest.candLeads high tabled slot'⟩
  · rw [setRot_of_ne hi]
    exact h.others i hi
  · simp [State.setRot, State.setCpu, active] at stopped

theorem candTableEmpty_task (s : State) (v t : Nat) :
    SameTask (s.tcb t) ((candTableEmpty c s 0 v).tcb t) := by
  rw [(candTableEmpty_same s 0 v).1]
  by_cases hu : t = v
  · subst hu
    rw [Function.update_self]
    exact ⟨rfl, rfl, rfl, rfl⟩
  · rw [Function.update_of_ne hu]
    exact ⟨rfl, rfl, rfl, rfl⟩

theorem Leading.exchange (h : Leading c s) {v : Nat} {k : Pcb}
    (slot : (s.cpu 0).ptcbCand = some v) (active : (s.cpu 0).isActive = true)
    (seek : candTableSeek c s 0 = some k) (lower : k.ucPriority ≤ (s.tcb v).ucPriority)
    (resel : candTableResel c (candTableEmpty c s 0 v) 0 k = some s')
    (tables' : ∃ ring, Tabled c (s'.setRot 0 false) ring) :
    Leading c (s'.setRot 0 false) ∧ CandLeads (s'.setRot 0 false) := by
  obtain ⟨ring, tables⟩ := h.tables
  obtain ⟨ring₁, emptied, -, grows⟩ := candTableEmpty_spec tables slot
  obtain ⟨-, cpu⟩ := candTableEmpty_same (c := c) s 0 v
  obtain ⟨w, ⟨-, -, place⟩, refill⟩ :=
    candTableResel_refill emptied (grows k (candTableSeek_spec tables seek)) resel
  have same := candTableEmpty_task (c := c) s v
  have high : Highest (candTableEmpty c s 0 v) w := by
    intro t ready
    have prio : ((candTableEmpty c s 0 v).tcb w).ucPriority = k.ucPriority :=
      congrArg Pcb.ucPriority place
    rw [prio, (same t).ucPriority]
    by_cases hu : t = v
    · rw [hu]
      exact lower
    · apply seek_high_single h.single tables seek ((same t).isReady ▸ ready)
      by_contra flag
      exact hu (h.cand_eq tables slot (by simpa using flag))
  apply Leading.of_refill h.single refill high _ _ tables'
  · intro i hi
    rw [cpu, Function.update_of_ne hi]
    exact h.others i hi
  · rw [cpu, Function.update_self]
    exact active

theorem Leading.update (h : Leading c s) (done : candTableUpdate c s 0 = some s') :
    Leading c s' ∧ ((s.cpu 0).isActive = true → CandLeads s') := by
  have inv : Inv c s := inv_iff_tabled.mpr h.tables
  have tables' : ∃ ring, Tabled c s' ring :=
    inv_iff_tabled.mp (@Inv.step c _ s' inv (.update 0) trivial done)
  obtain ⟨ring, tables⟩ := h.tables
  unfold candTableUpdate at done
  split at done
  next stopped =>
    obtain rfl := Option.some.inj done
    refine ⟨h, fun active => ?_⟩
    simp [active] at stopped
  next running =>
    have active : (s.cpu 0).isActive = true := by simpa using running
    obtain ⟨v, slot, -⟩ := h.leads active
    simp only [slot] at done
    have above : ∀ k, candTableSeek c s 0 = some k → ∀ t, (s.tcb t).isReady = true → t ≠ v →
        k.ucPriority ≤ (s.tcb t).ucPriority := by
      intro k seek t ready other
      apply seek_high_single h.single tables seek ready
      by_contra flag
      exact other (h.cand_eq tables slot (by simpa using flag))
    split at done
    next seek =>
      obtain rfl := Option.some.inj done
      have led := h.keep slot active (fun t ready => by
        rw [h.cand_eq tables slot (seek_none_single h.single tables seek ready)])
      exact ⟨led.1, fun _ => led.2⟩
    next k seek =>
      split at done
      next rotate =>
        have lower : k.ucPriority ≤ (s.tcb v).ucPriority := by
          unfold needRotate at rotate
          simp only [h.single, Bool.false_and, Bool.false_eq_true, if_false] at rotate
          split at rotate
          · simpa using rotate
          · exact le_of_lt (by simpa using rotate)
        obtain ⟨s₁, resel, last⟩ := Option.bind_eq_some_iff.mp done
        simp only [h.single, Bool.false_and, Bool.false_eq_true, if_false, Option.map_some,
          Option.some.injEq] at last
        subst last
        have led := h.exchange slot active seek lower resel tables'
        exact ⟨led.1, fun _ => led.2⟩
      next keep =>
        obtain rfl := Option.some.inj done
        have led := h.keep slot active (fun t ready => by
          by_cases hu : t = v
          · rw [hu]
          · exact (le_of_not_needRotate (by simpa using keep)).trans (above k seek t ready hu))
        exact ⟨led.1, fun _ => led.2⟩

theorem Leading.active (h : Leading c s) (done : cpuActive c s = some s') : Leading c s' := by
  unfold cpuActive at done
  split at done
  next =>
    obtain rfl := Option.some.inj done
    exact h
  next stopped =>
    have empty := h.stopped (by simpa using stopped)
    have inv := (inv_iff_tabled.mpr h.tables).setCpu 0 (fun y => { y with isActive := true }) rfl
    have tables' : ∃ ring, Tabled c s' ring :=
      inv_iff_tabled.mp (@Inv.step c _ s' inv (.update 0) trivial done)
    obtain ⟨ring, tables⟩ := inv_iff_tabled.mp inv
    have slots : ∀ i,
        ((s.setCpu 0 (fun y => { y with isActive := true })).cpu i).ptcbCand = none := by
      intro i
      by_cases hi : i = 0
      · subst hi
        simpa [State.setCpu] using empty
      · simpa [State.setCpu, hi] using h.others i hi
    have on : ((s.setCpu 0 (fun y => { y with isActive := true })).cpu 0).isActive = true := by
      simp [State.setCpu]
    unfold candTableUpdate at done
    simp only [on, Bool.not_true, Bool.false_eq_true, if_false, slots] at done
    obtain ⟨s₁, filled, rfl⟩ := Option.map_eq_some_iff.mp done
    obtain ⟨w, refill, high⟩ := candTableFill_highest h.single tables slots filled
    exact (Leading.of_refill h.single refill high (fun i _ => slots i) on tables').1

inductive Placed (s : State) (t : Nat) (s' : State) : Prop where
  | queued (tcb : s'.tcb = s.tcb) (cpu : s'.cpu = s.cpu)
      (lower : (s.cpu 0).isActive = true →
        ∃ v, (s.cpu 0).ptcbCand = some v ∧ (s.tcb v).ucPriority ≤ (s.tcb t).ucPriority)
  | marked (tcb : s'.tcb = s.tcb) (cpu : s'.cpu = (s.setRot 0 true).cpu)
      (active : (s.cpu 0).isActive = true)
  | taken (task : ∀ u, SameTask (s.tcb u) (s'.tcb u))
      (cpu : s'.cpu = Function.update s.cpu 0 { s.cpu 0 with ptcbCand := some t })
      (active : (s.cpu 0).isActive = true)
      (higher : ∀ v, (s.cpu 0).ptcbCand = some v → (s.tcb t).ucPriority ≤ (s.tcb v).ucPriority)

theorem setCand_task (s : State) (i t u : Nat) : SameTask (s.tcb u) ((setCand s i t).tcb u) :=
  sameTask_setTcb (s.setCpu i (fun y => { y with ptcbCand := some t })) t _ ⟨rfl, rfl, rfl, rfl⟩ u

theorem SameTask.trans {a b d : Tcb} (h : SameTask a b) (h' : SameTask b d) : SameTask a d :=
  ⟨h'.isReady.trans h.isReady, h'.ucPriority.trans h.ucPriority, h'.bCPULock.trans h.bCPULock,
    h'.ulCPULock.trans h.ulCPULock⟩

theorem tryAddSingle_placed (s : State) (t : Nat) : Placed s t (tryAddSingle c s t).1 := by
  unfold tryAddSingle
  split
  next stopped =>
    refine .queued rfl rfl fun active => ?_
    simp [active] at stopped
  next running =>
    have active : (s.cpu 0).isActive = true := by simpa using running
    split
    next slot =>
      refine .taken (setCand_task s 0 t) rfl active fun v here => ?_
      rw [slot] at here
      cases here
    next v slot =>
      split
      next higher =>
        split
        next => exact .marked rfl rfl active
        next =>
          refine .taken (fun u => (candTableEmpty_task s v u).trans (setCand_task _ 0 t u)) ?_
            active fun w here => ?_
          · change Function.update (candTableEmpty c s 0 v).cpu 0
              { (candTableEmpty c s 0 v).cpu 0 with ptcbCand := some t } = _
            rw [(candTableEmpty_same s 0 v).2, Function.update_self, Function.update_idem]
          · rw [slot] at here
            obtain rfl := Option.some.inj here
            exact le_of_lt higher
      next lower => exact .queued rfl rfl fun _ => ⟨v, slot, not_lt.mp lower⟩

theorem addToReadyRing_placed (single : c.smpEn = false) (s : State) (t : Nat) (k : Pcb) :
    Placed s t (addToReadyRing c s t k) := by
  have placed := tryAddSingle_placed (c := c) s t
  have same : (addToReadyRing c s t k).tcb = (tryAddSingle c s t).1.tcb ∧
      (addToReadyRing c s t k).cpu = (tryAddSingle c s t).1.cpu := by
    unfold addToReadyRing candTableTryAdd
    rw [single, if_neg Bool.false_ne_true]
    rcases tryAddSingle c s t with ⟨s₁, _ | _⟩
    · simp only
      split
      · exact ⟨rfl, rfl⟩
      · exact ⟨rfl, rfl⟩
    · exact ⟨rfl, rfl⟩
  cases placed with
  | queued tcb cpu lower => exact .queued (same.1.trans tcb) (same.2.trans cpu) lower
  | marked tcb cpu active => exact .marked (same.1.trans tcb) (same.2.trans cpu) active
  | taken task cpu active higher =>
    refine .taken (fun u => ?_) (same.2.trans cpu) active higher
    rw [same.1]
    exact task u

def LeadsOthers (s : State) (t : Nat) : Prop :=
  (s.cpu 0).isActive = true → ∃ v, (s.cpu 0).ptcbCand = some v ∧ ((s.cpu 0).bCandRot = false →
    ∀ u, u ≠ t → (s.tcb u).isReady = true → (s.tcb v).ucPriority ≤ (s.tcb u).ucPriority)

theorem Leading.of_placed {t : Nat} (single : c.smpEn = false)
    (others : ∀ i, i ≠ 0 → (x.cpu i).ptcbCand = none)
    (stopped : (x.cpu 0).isActive = false → (x.cpu 0).ptcbCand = none) (leads : LeadsOthers x t)
    (placed : Placed x t s') (tables : ∃ ring, Tabled c s' ring) : Leading c s' := by
  cases placed with
  | queued tcb cpu lower =>
    refine ⟨single, tables, by rw [cpu]; exact others, by rw [cpu]; exact stopped, fun active => ?_⟩
    rw [cpu] at active ⊢
    obtain ⟨v, slot, high⟩ := leads active
    obtain ⟨v', slot', le⟩ := lower active
    obtain rfl := Option.some.inj (slot'.symm.trans slot)
    refine ⟨v', slot, fun clear u ready => ?_⟩
    rw [tcb] at ready ⊢
    by_cases hu : u = t
    · rw [hu]
      exact le
    · exact high clear u hu ready
  | marked tcb cpu on =>
    obtain ⟨v, slot, -⟩ := leads on
    refine ⟨single, tables, fun i hi => ?_, fun off => ?_, fun _ => ⟨v, ?_, fun clear => ?_⟩⟩
    · rw [cpu, setRot_of_ne hi]
      exact others i hi
    · simp [cpu, State.setRot, State.setCpu, on] at off
    · simp [cpu, State.setRot, State.setCpu, slot]
    · simp [cpu, setRot_rot] at clear
  | taken task cpu on higher =>
    obtain ⟨v, slot, high⟩ := leads on
    refine ⟨single, tables, fun i hi => ?_, fun off => ?_,
      fun _ => ⟨t, ?_, fun clear u ready => ?_⟩⟩
    · rw [cpu, Function.update_of_ne hi]
      exact others i hi
    · simp [cpu, on] at off
    · rw [cpu, Function.update_self]
    · rw [(task t).ucPriority, (task u).ucPriority]
      rw [(task u).isReady] at ready
      rw [cpu, Function.update_self] at clear
      by_cases hu : u = t
      · rw [hu]
      · exact (higher v slot).trans (high clear u hu ready)

theorem Leading.ready (h : Leading c s) {t : Nat} {activate : Activate}
    (legal : (s.tcb t).isReady = false) (done : step c s (.ready t activate) = some s') :
    Leading c s' := by
  have inv : Inv c s' := (inv_iff_tabled.mpr h.tables).ready legal done
  obtain rfl := Option.some.inj done
  refine Leading.of_placed
    (x := s.setTcb t (fun y => { y with isReady := true, ucSchedActivate := activate }))
    h.single h.others h.stopped (fun active => ?_) (addToReadyRing_placed h.single _ t _)
    (inv_iff_tabled.mp inv)
  obtain ⟨v, slot, high⟩ := h.leads active
  refine ⟨v, slot, fun clear u hu ready => ?_⟩
  have prio : ∀ w, ((s.setTcb t
      (fun y => { y with isReady := true, ucSchedActivate := activate })).tcb w).ucPriority =
      (s.tcb w).ucPriority := by
    intro w
    by_cases hw : w = t <;> simp [State.setTcb, hw]
  rw [prio, prio]
  apply high clear
  simpa [State.setTcb, hu] using ready

theorem Leading.block (h : Leading c s) {t : Nat} (legal : (s.tcb t).isReady = true)
    (done : step c s (.block t) = some s') : Leading c s' := by
  have inv : Inv c s' := (inv_iff_tabled.mpr h.tables).block legal done
  obtain ⟨ring, tables⟩ := h.tables
  simp only [step] at done
  have prio : ∀ w, ((s.setTcb t (fun y => { y with isReady := false })).tcb w).ucPriority =
      (s.tcb w).ucPriority := by
    intro w
    by_cases hw : w = t <;> simp [State.setTcb, hw]
  cases flag : (s.tcb t).bIsCand with
  | false =>
    have other : (s.cpu (s.tcb t).ulCPUId).ptcbCand ≠ some t := by
      intro here
      have cand := ((tables.cand _ t).mp here).1
      rw [flag] at cand
      cases cand
    obtain ⟨tcb, cpu⟩ := delFromReadyRing_same
      (s := s.setTcb t (fun y => { y with isReady := false }))
      (by simpa [State.setTcb] using flag) (by simpa [State.setTcb] using other) done
    have cpu' : s'.cpu = s.cpu := cpu
    refine ⟨h.single, inv_iff_tabled.mp inv, by rw [cpu']; exact h.others,
      by rw [cpu']; exact h.stopped, fun active => ?_⟩
    rw [cpu'] at active ⊢
    obtain ⟨v, slot, high⟩ := h.leads active
    refine ⟨v, slot, fun clear u ready => ?_⟩
    rw [tcb, prio, prio]
    rw [tcb] at ready
    apply high clear
    by_cases hu : u = t
    · subst hu
      exact legal
    · simpa [State.setTcb, hu] using ready
  | true =>
    obtain ⟨ringx, tablesx⟩ := tabled_clearSlot tables flag
    have slot : (s.cpu (s.tcb t).ulCPUId).ptcbCand = some t := (tables.cand _ t).mpr ⟨flag, rfl⟩
    have home : (s.tcb t).ulCPUId = 0 := by
      by_contra away
      rw [h.others _ away] at slot
      cases slot
    rw [home] at slot tablesx
    have active : (s.cpu 0).isActive = true := by
      by_contra off
      rw [h.stopped (by simpa using off)] at slot
      cases slot
    have flag₁ : ((s.setTcb t (fun y => { y with isReady := false })).tcb t).bIsCand = true := by
      simpa [State.setTcb] using flag
    have home₁ : ((s.setTcb t (fun y => { y with isReady := false })).tcb t).ulCPUId = 0 := by
      simpa [State.setTcb] using home
    have slot₁ : ((s.setTcb t (fun y => { y with isReady := false })).cpu 0).ptcbCand = some t :=
      slot
    unfold delFromReadyRing candTableTryDel at done
    simp only [flag₁, if_true, home₁, slot₁] at done
    rw [← candTableFill_clearSlot] at done
    obtain ⟨s₁, filled, rfl⟩ := Option.map_eq_some_iff.mp done
    obtain ⟨w, refill, high⟩ := candTableFill_highest h.single tablesx (fun i => by
      by_cases hi : i = 0
      · subst hi
        simp [clearSlot, State.setCpu]
      · simpa [clearSlot, State.setCpu, State.setTcb, hi] using h.others i hi) filled
    refine (Leading.of_refill h.single refill high (fun i hi => ?_) ?_ (inv_iff_tabled.mp inv)).1
    · simpa [clearSlot, State.setCpu, State.setTcb, hi] using h.others i hi
    · simpa [clearSlot, State.setCpu, State.setTcb] using active

theorem Leading.setPriority (h : Leading c s) {t : Nat} {p : Fin 256}
    (quiet : (s.tcb t).isReady = false ∨ (s.cpu 0).bCandRot = true)
    (tables : ∃ ring, Tabled c (s.setTcb t (fun y => { y with ucPriority := p })) ring) :
    Leading c (s.setTcb t (fun y => { y with ucPriority := p })) := by
  refine ⟨h.single, tables, h.others, h.stopped, fun active => ?_⟩
  obtain ⟨v, slot, high⟩ := h.leads active
  refine ⟨v, slot, fun clear u ready => ?_⟩
  have idle : (s.tcb t).isReady = false := quiet.resolve_right (fun marked => by
    have clear' : (s.cpu 0).bCandRot = false := clear
    rw [clear'] at marked
    cases marked)
  obtain ⟨ring, tabled⟩ := h.tables
  have here : (s.tcb v).isReady = true := tabled.held v ((tabled.cand 0 v).mp slot).1
  have hv : v ≠ t := by
    rintro rfl
    rw [idle] at here
    cases here
  have hu : u ≠ t := by
    rintro rfl
    simp [State.setTcb, idle] at ready
  simp only [State.setTcb, Function.update_of_ne hu, Function.update_of_ne hv] at ready ⊢
  exact high clear u ready

theorem Leading.setRot (h : Leading c s) : Leading c (s.setRot 0 true) := by
  obtain ⟨ring, tables⟩ := h.tables
  refine ⟨h.single, ⟨ring, tables.setRot 0 true⟩, fun i hi => ?_, fun stopped => ?_,
    fun active => ?_⟩
  · rw [setRot_of_ne hi]
    exact h.others i hi
  · have stopped' : (s.cpu 0).isActive = false := by
      simpa [State.setRot, State.setCpu] using stopped
    simpa [State.setRot, State.setCpu] using h.stopped stopped'
  · obtain ⟨v, slot, -⟩ := h.leads (by simpa [State.setRot, State.setCpu] using active)
    refine ⟨v, by simpa [State.setRot, State.setCpu] using slot, fun clear => ?_⟩
    rw [setRot_rot] at clear
    cases clear

theorem Leading.setPrio (h : Leading c s) {t : Nat} {p : Fin 256}
    (done : schedSetPrio c s t p = some s') : Leading c s' := by
  have inv : Inv c s' := (inv_iff_tabled.mpr h.tables).setPrio done
  obtain ⟨ring, tables⟩ := h.tables
  unfold schedSetPrio at done
  simp only at done
  split at done
  next ready =>
    split at done
    next flag =>
      have slot := (tables.cand (s.tcb t).ulCPUId t).mpr ⟨flag, rfl⟩
      have home : (s.tcb t).ulCPUId = 0 := by
        by_contra away
        rw [h.others _ away] at slot
        cases slot
      rw [home] at done
      obtain rfl := Option.some.inj done
      exact h.setRot.setPriority (Or.inr (setRot_rot s 0 true)) (inv_iff_tabled.mp inv)
    next idle =>
      obtain ⟨s₁, deleted, rfl⟩ := Option.map_eq_some_iff.mp done
      have flag : (s.tcb t).bIsCand = false := by simpa using idle
      have other : ∀ i, (s.cpu i).ptcbCand ≠ some t := by
        intro i here
        have cand := ((tables.cand i t).mp here).1
        rw [flag] at cand
        cases cand
      obtain ⟨tcb, cpu⟩ := delFromReadyRing_same flag (other _) deleted
      have placed := addToReadyRing_placed h.single
        (s₁.setTcb t (fun y => { y with ucPriority := p })) t (getPcbEx c s t p)
      have cpu' : (s₁.setTcb t (fun y => { y with ucPriority := p })).cpu = s.cpu := cpu
      refine Leading.of_placed h.single (by rw [cpu']; exact h.others)
        (by rw [cpu']; exact h.stopped) (fun active => ?_) placed (inv_iff_tabled.mp inv)
      rw [cpu'] at active ⊢
      obtain ⟨v, slot, high⟩ := h.leads active
      refine ⟨v, slot, fun clear u hu ready => ?_⟩
      have hv : v ≠ t := fun e => other 0 (e ▸ slot)
      simp only [State.setTcb, Function.update_of_ne hu, Function.update_of_ne hv, tcb] at ready ⊢
      exact high clear u ready
  next idle =>
    obtain rfl := Option.some.inj done
    exact h.setPriority (Or.inl (by simpa using idle)) (inv_iff_tabled.mp inv)

theorem Leading.congr (h : Leading c s) (cpu : s'.cpu = s.cpu)
    (task : ∀ u, SameTask (s.tcb u) (s'.tcb u)) (tables : ∃ ring, Tabled c s' ring) :
    Leading c s' := by
  refine ⟨h.single, tables, by rw [cpu]; exact h.others, by rw [cpu]; exact h.stopped,
    fun active => ?_⟩
  rw [cpu] at active ⊢
  obtain ⟨v, slot, high⟩ := h.leads active
  refine ⟨v, slot, fun clear u ready => ?_⟩
  rw [(task v).ucPriority, (task u).ucPriority]
  apply high clear
  rw [← (task u).isReady]
  exact ready

theorem Leading.step (h : Leading c s) {op : SingleCall} (done : singleStep c s op = some s') :
    Leading c s' := by
  have inv : Inv c s := inv_iff_tabled.mpr h.tables
  cases op with
  | ready t activate =>
    simp only [singleStep] at done
    split at done
    next => cases done
    next idle => exact h.ready (by simpa using idle) done
  | block t =>
    simp only [singleStep] at done
    split at done
    next ready => exact h.block ready done
    next => cases done
  | setPrio t p => exact h.setPrio done
  | update => exact (h.update done).1
  | active => exact h.active done
  | tick t n =>
    have tables : ∃ ring, Tabled c s' ring :=
      inv_iff_tabled.mp (@Inv.step c s s' inv (.tick t n) trivial done)
    obtain rfl := Option.some.inj done
    exact h.congr rfl (sameTask_setTcb s t _ ⟨rfl, rfl, rfl, rfl⟩) tables
  | rotate =>
    obtain rfl := Option.some.inj done
    exact h.setRot
  | lock t n =>
    obtain rfl := Option.some.inj done
    obtain ⟨ring, tables⟩ := h.tables
    refine h.congr rfl (sameTask_setTcb s t _ ⟨rfl, rfl, rfl, rfl⟩) ?_
    refine inv_iff_tabled.mp ⟨_, ring, tables.setTcb t _ (fun u => ?_) rfl rfl
      (fun _ _ => ⟨rfl, rfl⟩) (fun _ => Iff.rfl)⟩
    by_cases hu : u = t <;> simp [State.setTcb, hu]

/-- On one CPU the candidate of the active CPU is as high as everything that is ready: in
every state that is reached with the flag clear, and after every `_CandTableUpdate`. -/
theorem candidate_leads (c : Config) (s s' : State) (ops : List SingleCall) (booting : Booting c s)
    (done : StepRuns.run (singleStep c) s ops = some s') (active : (s'.cpu 0).isActive = true) :
    ((s'.cpu 0).bCandRot = false → CandLeads s') ∧
    ∀ s'', candTableUpdate c s' 0 = some s'' → CandLeads s'' := by
  have h : Leading c s' :=
    (visits_of_steps (fun _ _ _ h step => h.step step) (Leading.of_booting booting)).last done
  constructor
  · intro clear
    obtain ⟨v, slot, high⟩ := h.leads active
    obtain ⟨ring, tables⟩ := h.tables
    exact (high clear).candLeads tables slot
  · intro s'' updated
    exact (h.update updated).2 active

/-- The idle thread starts, thread 2 preempts it and locks the scheduler, thread 3 becomes
ready and gets the slot when the flag is looked at, its priority drops. -/
theorem candidate_leads_example :
    ∃ s s', Booting ⟨false, false, false, false, 1⟩ s ∧ (s'.cpu 0).isActive = true ∧
      StepRuns.run (singleStep ⟨false, false, false, false, 1⟩) s
        [.ready 0 .other, .active, .ready 2 .interrupt, .lock 2 1, .setPrio 3 7, .ready 3 .other,
          .update, .setPrio 3 200, .block 2, .update] = some s' ∧
      ((s'.cpu 0).bCandRot = false → CandLeads s') ∧
      ∀ s'', candTableUpdate ⟨false, false, false, false, 1⟩ s' 0 = some s'' → CandLeads s'' := by
  have booting : Booting ⟨false, false, false, false, 1⟩
      (coldState.setCpu 0 (fun y => { y with isActive := false })) := by
    refine ⟨rfl, ⟨fun _ => [], ?_⟩, rfl, fun i => ?_⟩
    · obtain ⟨isRing, placed, absent, bmap⟩ := coldState_consistent ⟨false, false, false, false, 1⟩
      refine ⟨isRing, fun t ready => absurd ready (by simp [coldState, State.setCpu]),
        fun t _ => ?_, bmap⟩
      refine ⟨rfl, fun i => ?_, by simp⟩
      by_cases hi : i = 0 <;> simp [State.setCpu, coldState, hi]
    · by_cases hi : i = 0 <;> simp [State.setCpu, coldState, hi]
  have runs : ((StepRuns.run (singleStep ⟨false, false, false, false, 1⟩)
      (coldState.setCpu 0 (fun y => { y with isActive := false }))
      [.ready 0 .other, .active, .ready 2 .interrupt, .lock 2 1, .setPrio 3 7, .ready 3 .other,
        .update, .setPrio 3 200, .block 2, .update]).map
        (fun s' => (s'.cpu 0).isActive)) = some true := by decide +kernel
  obtain ⟨s', done, active⟩ := Option.map_eq_some_iff.mp runs
  exact ⟨_, s', booting, active, done, candidate_leads _ _ s' _ booting done active⟩

end SylixOS.CandTable
