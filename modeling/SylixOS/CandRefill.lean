import SylixOS.SchedRuns
import Mathlib.Order.Fin.Basic

/-! What the table functions leave of the threads and of the CPUs that they are not about. -/

namespace SylixOS.CandTable
open LinkedChain ListLink BitmapLib Function

variable {c : Config} {G : Nat → Bool} {s s' : State} {ring : Pcb → List Nat}

abbrev Tabled (c : Config) (s : State) (ring : Pcb → List Nat) : Prop :=
  Tables (fun t => (s.tcb t).isReady) c s (fun t => (s.tcb t).isReady = true) ring

theorem tableHigh_le (tables : Tabled c s ring) (T : Table) (some : bitmapIsEmpty (s.bmap T) = false)
    {q : Fin 256} (hq : ring ⟨T, q⟩ ≠ []) : (tableHigh s T).ucPriority ≤ q := by
  obtain ⟨hsmall, -, hleast⟩ := (tables.bmap T).high_spec some
  have hle := hleast q q.isLt ⟨q.isLt, hq⟩
  rw [Fin.le_def, tableHigh, Fin.val_ofNat, Nat.mod_eq_of_lt hsmall]
  exact hle

theorem global_empty (tables : Tabled c s ring) (none : bitmapIsEmpty (s.bmap .global) = true)
    (q : Fin 256) : ring ⟨.global, q⟩ = [] := by
  by_contra hq
  exact (tables.bmap .global).isEmpty_iff.mp none q q.isLt ⟨q.isLt, hq⟩

theorem setRot_rot (s : State) (i : Nat) (b : Bool) : ((s.setRot i b).cpu i).bCandRot = b := by
  simp [State.setRot, State.setCpu]

theorem setRot_of_ne {i j : Nat} (hj : j ≠ i) (b : Bool) : (s.setRot i b).cpu j = s.cpu j := by
  simp [State.setRot, State.setCpu, hj]

structure SameTask (x y : Tcb) : Prop where
  isReady : y.isReady = x.isReady
  ucPriority : y.ucPriority = x.ucPriority
  bCPULock : y.bCPULock = x.bCPULock
  ulCPULock : y.ulCPULock = x.ulCPULock

structure Refill (s s' : State) (i w : Nat) : Prop where
  task : ∀ u, SameTask (s.tcb u) (s'.tcb u)
  isCand : ∀ u, (s'.tcb u).bIsCand = if u = w then true else (s.tcb u).bIsCand
  home : ∀ u, (s'.tcb u).ulCPUId = if u = w then i else (s.tcb u).ulCPUId
  cpu : s'.cpu = update s.cpu i { s.cpu i with ptcbCand := some w }

theorem sameTask_setTcb (s : State) (t : Nat) (f : Tcb → Tcb) (hf : SameTask (s.tcb t) (f (s.tcb t)))
    (u : Nat) : SameTask (s.tcb u) ((s.setTcb t f).tcb u) := by
  by_cases hu : u = t
  · subst hu
    simpa [State.setTcb] using hf
  · simp only [State.setTcb, update_of_ne hu]
    exact ⟨rfl, rfl, rfl, rfl⟩

theorem candTableNext_task {k : Pcb} {w : Nat} (next : candTableNext s k = some (s', w)) (u : Nat) :
    SameTask (s.tcb u) (s'.tcb u) ∧ (s'.tcb u).bIsCand = (s.tcb u).bIsCand ∧
      (s'.tcb u).ulCPUId = (s.tcb u).ulCPUId := by
  unfold candTableNext at next
  split at next
  next => cases next
  next h _ =>
    split at next
    next =>
      obtain ⟨t, -, hpair⟩ := Option.map_eq_some_iff.mp next
      obtain ⟨rfl, -⟩ := Prod.mk.inj hpair
      have hslice := sameTask_setTcb s h
        (fun x => { x with usSchedCounter := x.usSchedSlice }) ⟨rfl, rfl, rfl, rfl⟩ u
      refine ⟨hslice, ?_⟩
      by_cases hu : u = h
      · subst hu
        simp [State.setTcb]
      · simp [State.setTcb, hu]
    next =>
      obtain ⟨rfl, -⟩ := Prod.mk.inj (Option.some.inj next)
      exact ⟨⟨rfl, rfl, rfl, rfl⟩, rfl, rfl⟩

theorem candTableResel_refill {R : Nat → Prop} (tables : Tables G c s R ring) {i : Nat} {k : Pcb}
    (filled : ring k ≠ []) (done : candTableResel c s i k = some s') :
    ∃ w, (R w ∧ (s.tcb w).bIsCand = false ∧ getPcb c s w = k) ∧ Refill s s' i w := by
  obtain ⟨s₁, w, ring₁, hnext, htables, hmem, hcpus⟩ := candTableNext_spec tables filled
  have htask := candTableNext_task hnext
  obtain ⟨hheld, hidle, hplace⟩ := (htables.queued k w).mp hmem
  have hsame : getPcb c s w = getPcb c s₁ w := by
    obtain ⟨⟨-, hprio, hlock, hcpu⟩, -⟩ := htask w
    simp only [getPcb, getPcbEx, tableOf, hprio, hlock, hcpu]
  refine ⟨w, ⟨hheld, (htask w).2.1.symm.trans hidle, hsame.trans hplace⟩, ?_⟩
  -- leaving the ring and its bit changes neither threads nor CPUs
  have hvalue : s'.tcb = (setCand s₁ i w).tcb ∧ s'.cpu = (setCand s₁ i w).cpu := by
    unfold candTableResel at done
    rw [hnext, Option.map_some] at done
    obtain rfl := Option.some.inj done
    simp only
    split
    · exact ⟨rfl, rfl⟩
    · exact ⟨rfl, rfl⟩
  have htcb : ∀ u, s'.tcb u =
      if u = w then { s₁.tcb w with ulCPUId := i, bIsCand := true } else s₁.tcb u := by
    intro u
    rw [hvalue.1]
    by_cases hu : u = w
    · subst hu
      simp [setCand, State.setTcb, State.setCpu]
    · simp [setCand, State.setTcb, State.setCpu, hu]
  refine ⟨fun u => ?_, fun u => ?_, fun u => ?_, ?_⟩
  · obtain ⟨⟨hready, hprio, hlock, hcpu⟩, -⟩ := htask u
    rw [htcb]
    split
    next hu =>
      subst hu
      exact ⟨hready, hprio, hlock, hcpu⟩
    next => exact ⟨hready, hprio, hlock, hcpu⟩
  · rw [htcb]
    split
    · rfl
    · exact (htask u).2.1
  · rw [htcb]
    split
    · rfl
    · exact (htask u).2.2
  · rw [hvalue.2, ← hcpus]
    rfl

theorem candTableEmpty_same (s : State) (i t : Nat) :
    (candTableEmpty c s i t).tcb =
      update s.tcb t { s.tcb t with bIsCand := false } ∧
    (candTableEmpty c s i t).cpu =
      update s.cpu i { s.cpu i with ptcbCand := none } := by
  unfold candTableEmpty
  simp only
  split
  · exact ⟨rfl, rfl⟩
  · exact ⟨rfl, rfl⟩

theorem inv_iff_tabled : Inv c s ↔ ∃ ring, Tabled c s ring := by
  rw [inv_iff_consistent]
  exact exists_congr fun _ => consistent_iff_tables

theorem tabled_clearSlot (tables : Tabled c s ring) {t : Nat} (hcand : (s.tcb t).bIsCand = true) :
    ∃ ring, Tabled c (clearSlot ((s.setTcb t (fun x => { x with isReady := false })).setTcb t
      (fun x => { x with bIsCand := false })) (s.tcb t).ulCPUId) ring := by
  rw [← inv_iff_tabled]
  have hslot : (s.cpu (s.tcb t).ulCPUId).ptcbCand = some t := (tables.cand _ t).mpr ⟨hcand, rfl⟩
  have hstatus : Tables (update (fun u => (s.tcb u).isReady) t false) c
      (s.setTcb t (fun x => { x with isReady := false })) (fun u => (s.tcb u).isReady = true) ring := by
    refine tables.setTcb t (fun x => { x with isReady := false }) (fun u => ?_) rfl rfl
      (fun _ _ => ⟨rfl, rfl⟩) (fun _ => Iff.rfl)
    by_cases hu : u = t
    · subst hu
      simp [State.setTcb]
    · simp [State.setTcb, hu]
  have hcleared : Tables (update (fun u => (s.tcb u).isReady) t false) c
      (clearSlot ((s.setTcb t (fun x => { x with isReady := false })).setTcb t
        (fun x => { x with bIsCand := false })) (s.tcb t).ulCPUId)
      (fun u => (s.tcb u).isReady = true ∧ u ≠ t) ring := by
    refine hstatus.clearCand (i := (s.tcb t).ulCPUId) (t := t) hslot rfl rfl rfl ?_ ?_ ?_ ?_
    · intro j
      by_cases hj : j = (s.tcb t).ulCPUId <;> simp [clearSlot, State.setTcb, State.setCpu, hj]
    · simp [clearSlot, State.setTcb, State.setCpu]
    · simp [clearSlot, State.setTcb, State.setCpu]
    · intro u hu
      simp [clearSlot, State.setTcb, State.setCpu, hu]
  refine ⟨_, ring, hcleared.of_iff fun u => ?_⟩
  by_cases hu : u = t <;> simp [hu]

theorem delFromReadyRing_same {t : Nat} {k : Pcb} (hidle : (s.tcb t).bIsCand = false)
    (hother : (s.cpu (s.tcb t).ulCPUId).ptcbCand ≠ some t)
    (done : delFromReadyRing c s t k = some s') : s'.tcb = s.tcb ∧ s'.cpu = s.cpu := by
  have hother' : ((delTCBFromReadyRing s t k).cpu
      ((delTCBFromReadyRing s t k).tcb t).ulCPUId).ptcbCand ≠ some t := hother
  simp only [delFromReadyRing, hidle, Bool.false_eq_true, if_false, candTableTryDel, hother'] at done
  split at done
  next =>
    obtain rfl := Option.some.inj done
    exact ⟨rfl, rfl⟩
  next =>
    obtain rfl := Option.some.inj done
    exact ⟨rfl, rfl⟩

theorem le_of_not_needRotate {i v : Nat} {q : Fin 256} (h : needRotate c s i v q = false) :
    (s.tcb v).ucPriority ≤ q := by
  unfold needRotate at h
  simp only at h
  split at h
  next => cases h
  next =>
    split at h
    next => exact le_of_lt (by simpa using h)
    next => simpa using h

end SylixOS.CandTable
