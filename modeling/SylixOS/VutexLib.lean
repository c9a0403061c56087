import Mathlib.Data.List.Nodup
import SylixOS.EventWait

/-! The wait lists of variables (vutexLib.c). Threads that wait for variables
with one hash stand in one list; a post walks it with a cursor, which ticks and
signals move on when they take out the thread it stands at. -/

namespace SylixOS.VutexLib
open EventWait (SchedRet)

variable {T : Type*}

abbrev PhysAddr := BitVec 64

inductive Compare where
  | equ
  | notEqu
  | less
  | lessEqu
  | greater
  | greaterEqu
  | and
  | or
  | not
  deriving DecidableEq, Repr

def vutexWakeIsMatch (iValue : BitVec 32) (iCompare : Compare) (iDesired : BitVec 32) : Bool :=
  match iCompare with
  | .equ => iValue = iDesired
  | .notEqu => iValue ≠ iDesired
  | .less => iValue.slt iDesired
  | .lessEqu => iValue.sle iDesired
  | .greater => iDesired.slt iValue
  | .greaterEqu => iDesired.sle iValue
  | .and => iValue &&& iDesired = iDesired
  | .not => iValue &&& iDesired = 0#32
  | .or => iValue &&& iDesired ≠ 0#32

def vutexHash (phyaddr : PhysAddr) : ℕ :=
  let uiTemp := (phyaddr >>> 2).setWidth 32
  ((uiTemp.extractLsb' 0 8).toNat + (uiTemp.extractLsb' 8 8).toNat +
    (uiTemp.extractLsb' 16 8).toNat + (uiTemp.extractLsb' 24 8).toNat) &&& 0x3ff

/-- `LW_VUTEX_CONTEXT`; no address is `LW_PHY_ADDR_INVALID`. -/
structure Context where
  phyaddr : Option PhysAddr
  iCompare : Compare
  iDesired : BitVec 32
  bWakeAll : Bool
  uiHash : ℕ

structure Tcb where
  pend : Bool
  delay : Bool
  timeout : Bool
  vutex : Context

def Tcb.init : Tcb := ⟨false, false, false, ⟨none, .equ, 0, false, 0⟩⟩

def Tcb.matches (tcb : Tcb) (iValue : BitVec 32) : Bool :=
  vutexWakeIsMatch iValue tcb.vutex.iCompare tcb.vutex.iDesired

structure Vutexes (T : Type*) where
  tcb : T → Tcb
  chain : ℕ → List T
  op : Option T

def Vutexes.empty : Vutexes T := ⟨fun _ => Tcb.init, fun _ => [], none⟩

section Operations

variable [DecidableEq T] (s : Vutexes T)

def nextOf (t : T) (l : List T) : Option T := (l.dropWhile (· ≠ t)).tail.head?

/-- `_VutexWaitQueue`, with the fields that its caller sets; `delay` says whether `TCB_ulDelay` is
not zero. -/
def Vutexes.vutexWaitQueue (t : T) (phyaddr : PhysAddr) (iDesired : BitVec 32)
    (iCompare : Compare) (delay : Bool) : Vutexes T :=
  let uiHash := vutexHash phyaddr
  { s with
    tcb := Function.update s.tcb t
      ⟨true, delay, false, ⟨some phyaddr, iCompare, iDesired, false, uiHash⟩⟩
    chain := Function.update s.chain uiHash (t :: s.chain uiHash) }

def Vutexes.wakeFirst (phyaddr : PhysAddr) : Vutexes T :=
  { s with op := (s.chain (vutexHash phyaddr)).head? }

def Vutexes.wake (t : T) (uiHash : ℕ) (bWakeAll : Bool) : Vutexes T :=
  let tcb := { s.tcb t with
    delay := false
    vutex := { (s.tcb t).vutex with phyaddr := none, bWakeAll := bWakeAll } }
  { s with
    chain := Function.update s.chain uiHash ((s.chain uiHash).erase t)
    tcb := Function.update s.tcb t
      (if tcb.timeout then { tcb with timeout := false } else { tcb with pend := false }) }

/-- One round of the loop of `_VutexWakeQueue` at the thread `t`, with whether it is woken. -/
def Vutexes.wakeRound (t : T) (phyaddr : PhysAddr) (iValue : BitVec 32) (wakeAll : Bool) :
    Vutexes T × Bool :=
  let uiHash := vutexHash phyaddr
  let s := { s with op := nextOf t (s.chain uiHash) }
  let bMatch :=
    if (s.tcb t).vutex.phyaddr = some phyaddr then wakeAll || (s.tcb t).matches iValue else false
  if bMatch then (s.wake t uiHash wakeAll, true) else (s, false)

def Vutexes.vutexUnQueue (t : T) : Vutexes T :=
  let uiHash := (s.tcb t).vutex.uiHash
  { op := if s.op = some t then nextOf t (s.chain uiHash) else s.op
    chain := Function.update s.chain uiHash ((s.chain uiHash).erase t)
    tcb := Function.update s.tcb t { s.tcb t with
      vutex := { (s.tcb t).vutex with phyaddr := none, uiHash := 0 } } }

def Vutexes.isWaiting (t : T) : Bool := (s.tcb t).vutex.phyaddr.isSome

def Vutexes.threadTick (t : T) : Vutexes T :=
  let tcb := { s.tcb t with delay := false }
  if tcb.pend then
    let s := ({ s with tcb := Function.update s.tcb t { tcb with pend := false, timeout := true } }
      : Vutexes T)
    if s.isWaiting t then s.vutexUnQueue t else s
  else
    { s with tcb := Function.update s.tcb t { tcb with timeout := false } }

def Vutexes.sigMakeReady (t : T) (saType : SchedRet) : SchedRet × Vutexes T :=
  let tcb := s.tcb t
  if ¬ tcb.pend ∧ ¬ tcb.delay then (.none, s)
  else
    let ret := if tcb.delay then saType else .none
    let tcb := { tcb with delay := false }
    if tcb.pend then
      let s := ({ s with
        tcb := Function.update s.tcb t { tcb with pend := false, timeout := true } } : Vutexes T)
      (saType, if s.isWaiting t then s.vutexUnQueue t else s)
    else
      (ret, { s with tcb := Function.update s.tcb t { tcb with timeout := false } })

def Vutexes.restore (t : T) (timeout : Bool) : Vutexes T :=
  { s with tcb := Function.update s.tcb t { s.tcb t with timeout := timeout } }

def Vutexes.threadDelete (t : T) : Vutexes T :=
  let s := if s.isWaiting t then s.vutexUnQueue t else s
  { s with tcb := Function.update s.tcb t { s.tcb t with pend := false, delay := false } }

def Vutexes.leave (t : T) : Vutexes T :=
  let uiHash := (s.tcb t).vutex.uiHash
  { op := if s.op = some t then nextOf t (s.chain uiHash) else s.op
    chain := Function.update s.chain uiHash ((s.chain uiHash).erase t)
    tcb := Function.update s.tcb t
      ⟨false, false, true, { (s.tcb t).vutex with phyaddr := none, uiHash := 0 }⟩ }

end Operations

structure Vutexes.Ok (s : Vutexes T) : Prop where
  chained : ∀ h t, t ∈ s.chain h ↔
    ∃ phyaddr, (s.tcb t).vutex.phyaddr = some phyaddr ∧ vutexHash phyaddr = h
  hash : ∀ t phyaddr, (s.tcb t).vutex.phyaddr = some phyaddr →
    (s.tcb t).vutex.uiHash = vutexHash phyaddr
  waiting : ∀ t, (s.tcb t).pend = (s.tcb t).vutex.phyaddr.isSome
  untimed : ∀ t, (s.tcb t).pend = true → (s.tcb t).timeout = false
  delayed : ∀ t, (s.tcb t).delay = true → (s.tcb t).pend = true
  nodup : ∀ h, (s.chain h).Nodup

structure Vutexes.Walk (s : Vutexes T) (h : ℕ) (passed ahead : List T) : Prop where
  split : s.chain h = passed ++ ahead
  op : s.op = ahead.head?

theorem ok_empty : (Vutexes.empty : Vutexes T).Ok := by
  constructor <;> simp [Vutexes.empty, Tcb.init]

variable {s : Vutexes T} {t : T} {h : ℕ} {passed ahead : List T} {phyaddr : PhysAddr}

theorem Vutexes.Ok.phyaddr_of_pend (hok : s.Ok) (ht : (s.tcb t).pend = true) :
    ∃ phyaddr, (s.tcb t).vutex.phyaddr = some phyaddr := by
  rw [hok.waiting] at ht
  exact Option.isSome_iff_exists.mp ht

theorem Vutexes.Ok.not_mem (hok : s.Ok) (ht : (s.tcb t).pend = false) : t ∉ s.chain h := by
  intro hmem
  obtain ⟨a, ha, -⟩ := (hok.chained h t).mp hmem
  rw [hok.waiting, ha] at ht
  cases ht

theorem Vutexes.Ok.pend_of_mem (hok : s.Ok) (ht : t ∈ s.chain h) : (s.tcb t).pend = true := by
  by_contra hpend
  exact hok.not_mem (by simpa using hpend) ht

variable [DecidableEq T]

theorem nextOf_split (ht : t ∉ passed) : nextOf t (passed ++ t :: ahead) = ahead.head? := by
  unfold nextOf
  rw [List.dropWhile_append_of_pos]
  · simp
  · intro u hu
    simpa using ne_of_mem_of_not_mem hu ht

omit [DecidableEq T] in
theorem Vutexes.Ok.walk_nodup (hok : s.Ok) (hw : s.Walk h passed ahead) :
    passed.Nodup ∧ ahead.Nodup ∧ ∀ t ∈ passed, t ∉ ahead := by
  have hnodup := hok.nodup h
  rw [hw.split, List.nodup_append'] at hnodup
  exact ⟨hnodup.1, hnodup.2.1, fun t ht ht' => hnodup.2.2 ht ht'⟩

theorem Vutexes.Ok.vutexWaitQueue (hok : s.Ok) (ht : (s.tcb t).pend = false)
    (phyaddr : PhysAddr) (iDesired : BitVec 32) (iCompare : Compare) (delay : Bool) :
    (s.vutexWaitQueue t phyaddr iDesired iCompare delay).Ok := by
  have hout : ∀ h, t ∉ s.chain h := fun h => hok.not_mem ht
  constructor
  case chained =>
    intro h u
    by_cases hu : u = t <;> by_cases hh : h = vutexHash phyaddr
    · simp [Vutexes.vutexWaitQueue, hu, hh]
    · simp [Vutexes.vutexWaitQueue, hu, hh, hout h, Ne.symm hh]
    · simp [Vutexes.vutexWaitQueue, hu, hh, hok.chained]
    · simp [Vutexes.vutexWaitQueue, hu, hh, hok.chained]
  case hash =>
    intro u a
    by_cases hu : u = t
    · simp only [Vutexes.vutexWaitQueue, hu, Function.update_self, Option.some.injEq]
      rintro rfl
      rfl
    · simpa [Vutexes.vutexWaitQueue, hu] using hok.hash u a
  case waiting =>
    intro u
    by_cases hu : u = t <;> simp [Vutexes.vutexWaitQueue, hu, hok.waiting]
  case untimed =>
    intro u
    by_cases hu : u = t
    · simp [Vutexes.vutexWaitQueue, hu]
    · simpa [Vutexes.vutexWaitQueue, hu] using hok.untimed u
  case delayed =>
    intro u
    by_cases hu : u = t
    · simp [Vutexes.vutexWaitQueue, hu]
    · simpa [Vutexes.vutexWaitQueue, hu] using hok.delayed u
  case nodup =>
    intro h
    by_cases hh : h = vutexHash phyaddr
    · simpa [Vutexes.vutexWaitQueue, hh] using ⟨hout _, hok.nodup _⟩
    · simpa [Vutexes.vutexWaitQueue, hh] using hok.nodup h

theorem Vutexes.Ok.depart (hok : s.Ok) {phyaddr : PhysAddr}
    (ht : (s.tcb t).vutex.phyaddr = some phyaddr) {s' : Vutexes T} {tcb : Tcb}
    (htcb : s'.tcb = Function.update s.tcb t tcb) (hpend : tcb.pend = false)
    (hdelay : tcb.delay = false) (hphyaddr : tcb.vutex.phyaddr = none)
    (hchain : s'.chain = Function.update s.chain (vutexHash phyaddr)
      ((s.chain (vutexHash phyaddr)).erase t)) : s'.Ok := by
  constructor
  case chained =>
    intro h u
    rw [htcb, hchain]
    by_cases hu : u = t <;> by_cases hh : h = vutexHash phyaddr
    · simp [hu, hh, hphyaddr, (hok.nodup _).mem_erase_iff]
    · simp [hu, hh, hphyaddr, hok.chained, ht, Ne.symm hh]
    · simp [hu, hh, (hok.nodup _).mem_erase_iff, hok.chained]
    · simp [hu, hh, hok.chained]
  case hash =>
    intro u a
    rw [htcb]
    by_cases hu : u = t
    · simp [hu, hphyaddr]
    · simpa [hu] using hok.hash u a
  case waiting =>
    intro u
    rw [htcb]
    by_cases hu : u = t
    · simp [hu, hpend, hphyaddr]
    · simpa [hu] using hok.waiting u
  case untimed =>
    intro u
    rw [htcb]
    by_cases hu : u = t
    · simp [hu, hpend]
    · simpa [hu] using hok.untimed u
  case delayed =>
    intro u
    rw [htcb]
    by_cases hu : u = t
    · simp [hu, hdelay]
    · simpa [hu] using hok.delayed u
  case nodup =>
    intro h
    rw [hchain]
    by_cases hh : h = vutexHash phyaddr
    · simpa [hh] using (hok.nodup _).erase t
    · simpa [hh] using hok.nodup h

theorem Vutexes.Ok.leave (hok : s.Ok) (ht : (s.tcb t).pend = true) : (s.leave t).Ok := by
  obtain ⟨phyaddr, ha⟩ := hok.phyaddr_of_pend ht
  apply hok.depart ha rfl rfl rfl rfl
  simp [Vutexes.leave, hok.hash t phyaddr ha]

theorem Vutexes.Walk.leave (hw : s.Walk h passed ahead) (hok : s.Ok)
    (ht : (s.tcb t).pend = true) :
    (s.leave t).Walk h (passed.erase t) (ahead.erase t) := by
  obtain ⟨phyaddr, ha⟩ := hok.phyaddr_of_pend ht
  have hhash := hok.hash t phyaddr ha
  obtain ⟨hpassed, hahead, hdisjoint⟩ := hok.walk_nodup hw
  have hmem : ∀ h, t ∈ s.chain h ↔ vutexHash phyaddr = h := by
    intro h
    simp [hok.chained, ha]
  by_cases hh : vutexHash phyaddr = h
  · have hin : t ∈ passed ++ ahead := by rw [← hw.split, hmem, hh]
    by_cases hbehind : t ∈ passed
    · have hnot := hdisjoint t hbehind
      have hop : s.op ≠ some t := by
        rw [hw.op]
        intro hop
        exact hnot (List.mem_of_mem_head? hop)
      constructor
      · simp [Vutexes.leave, hhash, hh, hw.split, List.erase_append_left _ hbehind,
          List.erase_of_not_mem hnot]
      · change (if s.op = some t then _ else s.op) = _
        rw [if_neg hop, hw.op, List.erase_of_not_mem hnot]
    · have hfront : t ∈ ahead := (List.mem_append.mp hin).resolve_left hbehind
      constructor
      · simp [Vutexes.leave, hhash, hh, hw.split, List.erase_append_right _ hbehind,
          List.erase_of_not_mem hbehind]
      · cases ahead with
        | nil => cases hfront
        | cons u rest =>
          by_cases hu : u = t
          · subst hu
            simp [Vutexes.leave, hw.op, hhash, hh, hw.split, nextOf_split hbehind]
          · simp [Vutexes.leave, hw.op, hu]
  · have hout : t ∉ passed ++ ahead := by rw [← hw.split, hmem]; exact hh
    rw [List.mem_append, not_or] at hout
    have hop : s.op ≠ some t := by
      rw [hw.op]
      intro hop
      exact hout.2 (List.mem_of_mem_head? hop)
    constructor
    · simp [Vutexes.leave, hhash, Ne.symm hh, hw.split, List.erase_of_not_mem hout.1,
        List.erase_of_not_mem hout.2]
    · change (if s.op = some t then _ else s.op) = _
      rw [if_neg hop, hw.op, List.erase_of_not_mem hout.2]

theorem Vutexes.Ok.unqueued (hok : s.Ok) (ht : (s.tcb t).pend = true) :
    (if (⟨Function.update s.tcb t { s.tcb t with delay := false, pend := false, timeout := true },
        s.chain, s.op⟩ : Vutexes T).isWaiting t then
      (⟨Function.update s.tcb t { s.tcb t with delay := false, pend := false, timeout := true },
        s.chain, s.op⟩ : Vutexes T).vutexUnQueue t
    else
      ⟨Function.update s.tcb t { s.tcb t with delay := false, pend := false, timeout := true },
        s.chain, s.op⟩) = s.leave t := by
  obtain ⟨phyaddr, ha⟩ := hok.phyaddr_of_pend ht
  simp [Vutexes.isWaiting, Vutexes.vutexUnQueue, Vutexes.leave, ha]

theorem Vutexes.Ok.threadTick (hok : s.Ok) (hdelay : (s.tcb t).delay = true) :
    (s.tcb t).pend = true ∧ s.threadTick t = s.leave t := by
  have hpend := hok.delayed t hdelay
  refine ⟨hpend, ?_⟩
  rw [← hok.unqueued hpend]
  simp [Vutexes.threadTick, hpend]

theorem Vutexes.Ok.threadDelete (hok : s.Ok) (t : T) : (s.threadDelete t).Ok := by
  unfold Vutexes.threadDelete Vutexes.isWaiting
  cases ha : (s.tcb t).vutex.phyaddr with
  | none =>
    have hpend : (s.tcb t).pend = false := by simp [hok.waiting, ha]
    have hdelay : (s.tcb t).delay = false := by
      by_contra hdelay
      have hwaits := hok.delayed t (by simpa using hdelay)
      simp [hpend] at hwaits
    have hsame : (⟨false, false, (s.tcb t).timeout, (s.tcb t).vutex⟩ : Tcb) = s.tcb t := by
      cases htcb : s.tcb t
      simp_all
    simp only [Option.isSome_none, Bool.false_eq_true, if_false, hsame,
      Function.update_eq_self]
    exact hok
  | some phyaddr =>
    simp only [Option.isSome_some, if_true]
    refine hok.depart ha (?_ : _ = Function.update s.tcb t ⟨false, false, (s.tcb t).timeout,
      { (s.tcb t).vutex with phyaddr := none, uiHash := 0 }⟩) rfl rfl rfl ?_
    · simp [Vutexes.vutexUnQueue]
    · simp [Vutexes.vutexUnQueue, hok.hash t phyaddr ha]

theorem Vutexes.Ok.sigMakeReady (hok : s.Ok) (t : T) (saType : SchedRet) :
    ((s.tcb t).pend = false ∧ s.sigMakeReady t saType = (.none, s)) ∨
      ((s.tcb t).pend = true ∧ s.sigMakeReady t saType = (saType, s.leave t)) := by
  cases hpend : (s.tcb t).pend with
  | false =>
    have hdelay : (s.tcb t).delay = false := by
      by_contra hdelay
      have hwaits := hok.delayed t (by simpa using hdelay)
      simp [hpend] at hwaits
    left
    simp [Vutexes.sigMakeReady, hpend, hdelay]
  | true =>
    right
    refine ⟨rfl, ?_⟩
    rw [← hok.unqueued hpend]
    simp [Vutexes.sigMakeReady, hpend]

theorem Vutexes.Ok.restore (hok : s.Ok) (ht : (s.tcb t).pend = false) (timeout : Bool) :
    (s.restore t timeout).Ok := by
  constructor
  case chained =>
    intro h u
    by_cases hu : u = t <;> simp [Vutexes.restore, hu, hok.chained]
  case hash =>
    intro u a
    by_cases hu : u = t
    · simpa [Vutexes.restore, hu] using hok.hash t a
    · simpa [Vutexes.restore, hu] using hok.hash u a
  case waiting =>
    intro u
    by_cases hu : u = t <;> simp [Vutexes.restore, hu, hok.waiting]
  case untimed =>
    intro u
    by_cases hu : u = t
    · simp [Vutexes.restore, hu, ht]
    · simpa [Vutexes.restore, hu] using hok.untimed u
  case delayed =>
    intro u
    by_cases hu : u = t
    · simpa [Vutexes.restore, hu] using hok.delayed t
    · simpa [Vutexes.restore, hu] using hok.delayed u
  case nodup => exact hok.nodup

omit [DecidableEq T] in
theorem Vutexes.Ok.wakeFirst (hok : s.Ok) (phyaddr : PhysAddr) :
    (s.wakeFirst phyaddr).Ok ∧
      (s.wakeFirst phyaddr).Walk (vutexHash phyaddr) [] (s.chain (vutexHash phyaddr)) :=
  ⟨⟨hok.chained, hok.hash, hok.waiting, hok.untimed, hok.delayed, hok.nodup⟩, ⟨rfl, rfl⟩⟩

def Vutexes.Hit (s : Vutexes T) (t : T) (phyaddr : PhysAddr) (iValue : BitVec 32)
    (wakeAll : Bool) : Prop :=
  (s.tcb t).vutex.phyaddr = some phyaddr ∧ (wakeAll = true ∨ (s.tcb t).matches iValue = true)

theorem Vutexes.Ok.wakeRound (hok : s.Ok) {rest : List T}
    (hw : s.Walk (vutexHash phyaddr) passed (t :: rest)) (iValue : BitVec 32) (wakeAll : Bool) :
    (s.Hit t phyaddr iValue wakeAll ∧
      ∃ s', s.wakeRound t phyaddr iValue wakeAll = (s', true) ∧ s'.Ok ∧
        s'.Walk (vutexHash phyaddr) passed rest ∧
        s'.tcb = Function.update s.tcb t
          ⟨false, false, false,
            { (s.tcb t).vutex with phyaddr := none, bWakeAll := wakeAll }⟩ ∧
        s'.chain = Function.update s.chain (vutexHash phyaddr)
          ((s.chain (vutexHash phyaddr)).erase t)) ∨
      (¬ s.Hit t phyaddr iValue wakeAll ∧
        ∃ s', s.wakeRound t phyaddr iValue wakeAll = (s', false) ∧ s'.Ok ∧
          s'.Walk (vutexHash phyaddr) (passed ++ [t]) rest ∧ s'.tcb = s.tcb ∧
          s'.chain = s.chain) := by
  obtain ⟨-, -, hdisjoint⟩ := hok.walk_nodup hw
  have hnot : t ∉ passed := fun ht => hdisjoint t ht (by simp)
  have hin : t ∈ s.chain (vutexHash phyaddr) := by simp [hw.split]
  have htimed := hok.untimed t (hok.pend_of_mem hin)
  have hnext : nextOf t (s.chain (vutexHash phyaddr)) = rest.head? := by
    rw [hw.split, nextOf_split hnot]
  have hmoved : ({ s with op := rest.head? } : Vutexes T).Ok :=
    ⟨hok.chained, hok.hash, hok.waiting, hok.untimed, hok.delayed, hok.nodup⟩
  by_cases hc : s.Hit t phyaddr iValue wakeAll
  · have htcb : (({ s with op := rest.head? } : Vutexes T).wake t (vutexHash phyaddr)
        wakeAll).tcb = Function.update s.tcb t ⟨false, false, false,
          { (s.tcb t).vutex with phyaddr := none, bWakeAll := wakeAll }⟩ := by
      simp [Vutexes.wake, htimed]
    left
    refine ⟨hc, ({ s with op := rest.head? } : Vutexes T).wake t (vutexHash phyaddr) wakeAll, ?_,
      hmoved.depart hc.1 htcb rfl rfl rfl rfl, ⟨?_, rfl⟩, htcb, rfl⟩
    · simp [Vutexes.wakeRound, hnext, hc.1, hc.2]
    · simp [Vutexes.wake, hw.split, List.erase_append_right _ hnot]
  · have hnone : ¬ ((if (s.tcb t).vutex.phyaddr = some phyaddr then
        wakeAll || (s.tcb t).matches iValue else false) = true) := by
      intro hm
      split at hm
      · exact hc ⟨‹_›, by simpa using hm⟩
      · cases hm
    right
    refine ⟨hc, { s with op := rest.head? }, ?_, hmoved, ⟨by simp [hw.split], rfl⟩, rfl, rfl⟩
    simp only [Vutexes.wakeRound, hnext, if_neg hnone]

end SylixOS.VutexLib
