import Mathlib.Data.BitVec
import Mathlib.Logic.Function.Basic
import SylixOS.StepRuns

/-! Event sets: `API_EventSetSet`, `API_EventSetGetEx` and `API_EventSetTryGetEx`. A call
is one section under the kernel lock, or two for a getter that sleeps: the first puts it
in the wait list, the second runs when it has been woken or its time is over. -/

namespace SylixOS.EventSet
open StepRuns Function

inductive WaitType where
  | clrAll
  | clrAny
  | setAll
  | setAny
  deriving DecidableEq, Repr

def waitType (ulOption : ℕ) : Option WaitType :=
  match ulOption &&& 0x0f with
  | 0 => some .clrAll
  | 1 => some .clrAny
  | 2 => some .setAll
  | 3 => some .setAny
  | _ => none

def optionReturnAll : ℕ := 0x40
def optionReset : ℕ := 0x80
def optionResetAll : ℕ := 0x100
def optionSet : ℕ := 1
def optionClr : ℕ := 0

variable {w : ℕ}

def WaitType.rdy (ty : WaitType) (ulEvent sets : BitVec w) : BitVec w :=
  match ty with
  | .setAll => ulEvent &&& sets
  | .setAny => ulEvent &&& sets
  | .clrAll => ulEvent &&& ~~~sets
  | .clrAny => ulEvent &&& ~~~sets

def WaitType.holds (ty : WaitType) (ulEvent sets : BitVec w) : Bool :=
  match ty with
  | .setAll => ulEvent == ty.rdy ulEvent sets
  | .clrAll => ulEvent == ty.rdy ulEvent sets
  | .setAny => ty.rdy ulEvent sets != 0
  | .clrAny => ty.rdy ulEvent sets != 0

def WaitType.reset (ty : WaitType) (ulOption : ℕ) (rdy sets : BitVec w) : BitVec w :=
  match ty with
  | .setAll | .setAny =>
    if ulOption &&& optionReset ≠ 0 then sets &&& ~~~rdy
    else if ulOption &&& optionResetAll ≠ 0 then 0 else sets
  | .clrAll | .clrAny =>
    if ulOption &&& optionReset ≠ 0 then sets ||| rdy
    else if ulOption &&& optionResetAll ≠ 0 then BitVec.allOnes w else sets

def saveRet (ulOption : ℕ) (rdy sets : BitVec w) : BitVec w :=
  if ulOption &&& optionReturnAll ≠ 0 then sets else rdy

inductive Ret (w : ℕ) where
  | none (events : BitVec w)
  | waitTimeout
  | waitType
  | option
  deriving DecidableEq, Repr

structure Call (w : ℕ) where
  ulEvent : BitVec w
  ulOption : ℕ
  type : WaitType
  ulTimeout : BitVec w
  deriving DecidableEq, Repr

inductive Phase (w : ℕ) where
  | idle (ret : Option (Ret w))
  | asleep (call : Call w)
  | timedOut (call : Call w)
  | woken (call : Call w) (rdy : BitVec w)
  deriving DecidableEq, Repr

structure Node (T : Type) (w : ℕ) where
  ptcbMe : T
  ulEventSets : BitVec w
  ucWaitType : WaitType
  deriving DecidableEq, Repr

structure State (T : Type) (w : ℕ) where
  eventSets : BitVec w
  waitList : List (Node T w)
  phase : T → Phase w

variable {T : Type} [DecidableEq T]

def State.setPhase (s : State T w) (t : T) (p : Phase w) : State T w :=
  { s with phase := update s.phase t p }

def eventSetUnQueue (s : State T w) (t : T) : State T w :=
  { s with waitList := s.waitList.filter fun n => n.ptcbMe ≠ t }

def eventSetThreadReady (s : State T w) (pesn : Node T w) (rdy : BitVec w) : State T w :=
  match s.phase pesn.ptcbMe with
  | .asleep call => eventSetUnQueue (s.setPhase pesn.ptcbMe (.woken call rdy)) pesn.ptcbMe
  | _ => eventSetUnQueue s pesn.ptcbMe

/-- One turn of the loop of `API_EventSetSet`. `_List_Line_Del` leaves the next pointer of the
node it removes, so that the loop goes on through the list it started with. -/
def wakeNode (s : State T w) (pesn : Node T w) : State T w :=
  if pesn.ucWaitType.holds pesn.ulEventSets s.eventSets then
    eventSetThreadReady s pesn (pesn.ucWaitType.rdy pesn.ulEventSets s.eventSets)
  else s

def wakeAll (s : State T w) : State T w := s.waitList.foldl wakeNode s

def eventSetSet (s : State T w) (ulEvent : BitVec w) (ulOption : ℕ) : Ret w × State T w :=
  if ulOption = optionClr then
    (.none 0, wakeAll { s with eventSets := s.eventSets &&& ~~~ulEvent })
  else if ulOption = optionSet then
    (.none 0, wakeAll { s with eventSets := s.eventSets ||| ulEvent })
  else (.option, s)

def eventSetBlock (s : State T w) (t : T) (call : Call w) : State T w :=
  { s with
    waitList := ⟨t, call.ulEvent, call.type⟩ :: s.waitList
    phase := update s.phase t (.asleep call) }

def eventSetGetEx (s : State T w) (t : T) (ulEvent : BitVec w) (ulOption : ℕ)
    (ulTimeout : BitVec w) : State T w :=
  match waitType ulOption with
  | none => s.setPhase t (.idle (some .waitType))
  | some ty =>
    let rdy := ty.rdy ulEvent s.eventSets
    if ty.holds ulEvent s.eventSets then
      { s with
        eventSets := ty.reset ulOption rdy s.eventSets
        phase := update s.phase t
          (.idle (some (.none (saveRet ulOption rdy s.eventSets)))) }
    else if ulTimeout = 0 then s.setPhase t (.idle (some .waitTimeout))
    else eventSetBlock s t ⟨ulEvent, ulOption, ty, ulTimeout⟩

/-- `API_EventSetTryGetEx`. In an interrupt it also overwrites `TCB_ulEventSets` of the thread that is
interrupted, which is left out. -/
def eventSetTryGetEx (s : State T w) (ulEvent : BitVec w) (ulOption : ℕ) : Ret w × State T w :=
  match waitType ulOption with
  | none => (.waitType, s)
  | some ty =>
    let rdy := ty.rdy ulEvent s.eventSets
    if ty.holds ulEvent s.eventSets then
      (.none (saveRet ulOption rdy s.eventSets),
        { s with eventSets := ty.reset ulOption rdy s.eventSets })
    else (.waitTimeout, s)

def threadTick (s : State T w) (t : T) : Option (State T w) :=
  match s.phase t with
  | .asleep call =>
    if call.ulTimeout = BitVec.allOnes w then none
    else some (eventSetUnQueue (s.setPhase t (.timedOut call)) t)
  | _ => none

def getExResume (s : State T w) (t : T) : Option (State T w) :=
  match s.phase t with
  | .timedOut _ => some (s.setPhase t (.idle (some .waitTimeout)))
  | .woken call rdy =>
    some { s with
      eventSets := call.type.reset call.ulOption rdy s.eventSets
      phase := update s.phase t
        (.idle (some (.none (saveRet call.ulOption rdy s.eventSets)))) }
  | _ => none

inductive Act (T : Type) (w : ℕ) where
  | set (ulEvent : BitVec w) (ulOption : ℕ)
  | get (t : T) (ulEvent : BitVec w) (ulOption : ℕ) (ulTimeout : BitVec w)
  | tryGet (ulEvent : BitVec w) (ulOption : ℕ)
  | tick (t : T)
  | resume (t : T)
  deriving DecidableEq, Repr

def step (s : State T w) : Act T w → Option (State T w)
  | .set ulEvent ulOption => some (eventSetSet s ulEvent ulOption).2
  | .get t ulEvent ulOption ulTimeout =>
    match s.phase t with
    | .idle _ => some (eventSetGetEx s t ulEvent ulOption ulTimeout)
    | _ => none
  | .tryGet ulEvent ulOption => some (eventSetTryGetEx s ulEvent ulOption).2
  | .tick t => threadTick s t
  | .resume t => getExResume s t

def Quiet (s : State T w) : Prop :=
  ∀ n ∈ s.waitList, n.ucWaitType.holds n.ulEventSets s.eventSets = false

def resetMask (ulOption : ℕ) (rdy : BitVec w) : Option (BitVec w) :=
  if ulOption &&& optionReset ≠ 0 then some rdy
  else if ulOption &&& optionResetAll ≠ 0 then some (BitVec.allOnes w) else none

def immediateReset (s : State T w) (ulEvent : BitVec w) (ulOption : ℕ) :
    Option (WaitType × BitVec w) :=
  match waitType ulOption with
  | none => none
  | some ty =>
    if ty.holds ulEvent s.eventSets then
      (resetMask ulOption (ty.rdy ulEvent s.eventSets)).map fun mask => (ty, mask)
    else none

def resetOf (s : State T w) : Act T w → Option (WaitType × BitVec w)
  | .set _ _ => none
  | .get _ ulEvent ulOption _ => immediateReset s ulEvent ulOption
  | .tryGet ulEvent ulOption => immediateReset s ulEvent ulOption
  | .tick _ => none
  | .resume t =>
    match s.phase t with
    | .woken call rdy => (resetMask call.ulOption rdy).map fun mask => (call.type, mask)
    | _ => none

def applyReset (getter : WaitType) (mask sets : BitVec w) : BitVec w :=
  match getter with
  | .setAll | .setAny => sets &&& ~~~mask
  | .clrAll | .clrAny => sets ||| mask

theorem reset_eq (ty : WaitType) (ulOption : ℕ) (rdy sets : BitVec w) :
    ty.reset ulOption rdy sets =
      match resetMask ulOption rdy with
      | some mask => applyReset ty mask sets
      | none => sets := by
  unfold WaitType.reset resetMask applyReset
  cases ty <;> split_ifs <;> simp

def Settles (s s' : State T w) (reset : Option (WaitType × BitVec w)) : Prop :=
  match reset with
  | some (ty, mask) => s'.waitList = s.waitList ∧ s'.eventSets = applyReset ty mask s.eventSets
  | none => s'.eventSets = s.eventSets ∧
      ∀ n ∈ s'.waitList, n ∈ s.waitList ∨ n.ucWaitType.holds n.ulEventSets s.eventSets = false

omit [DecidableEq T] in
theorem Settles.of_reset {s s' : State T w} {ty : WaitType} {ulOption : ℕ} {rdy : BitVec w}
    (hlist : s'.waitList = s.waitList) (hsets : s'.eventSets = ty.reset ulOption rdy s.eventSets) :
    Settles s s' ((resetMask ulOption rdy).map fun mask => (ty, mask)) := by
  rw [reset_eq] at hsets
  cases hmask : resetMask ulOption rdy with
  | none =>
    rw [hmask] at hsets
    refine ⟨hsets, fun n hn => ?_⟩
    rw [hlist] at hn
    exact Or.inl hn
  | some mask =>
    rw [hmask] at hsets
    exact ⟨hlist, hsets⟩

omit [DecidableEq T] in
theorem Settles.of_eq {s s' : State T w} (hlist : s'.waitList = s.waitList)
    (hsets : s'.eventSets = s.eventSets) : Settles s s' none := by
  refine ⟨hsets, fun n hn => ?_⟩
  rw [hlist] at hn
  exact Or.inl hn

theorem settles_get (s : State T w) (t : T) (ulEvent : BitVec w) (ulOption : ℕ)
    (ulTimeout : BitVec w) :
    Settles s (eventSetGetEx s t ulEvent ulOption ulTimeout)
      (immediateReset s ulEvent ulOption) := by
  unfold eventSetGetEx immediateReset
  cases waitType ulOption with
  | none => exact Settles.of_eq rfl rfl
  | some ty =>
    by_cases hholds : ty.holds ulEvent s.eventSets = true
    · simp only [hholds, if_true]
      exact Settles.of_reset rfl rfl
    · simp only [hholds]
      by_cases hwait : ulTimeout = 0
      · rw [if_pos hwait]
        exact Settles.of_eq rfl rfl
      · rw [if_neg hwait]
        refine ⟨rfl, fun n hn => ?_⟩
        -- the only new node is the caller's
        rcases List.mem_cons.mp hn with rfl | hn
        · exact Or.inr (Bool.eq_false_iff.mpr hholds)
        · exact Or.inl hn

omit [DecidableEq T] in
theorem settles_tryGet (s : State T w) (ulEvent : BitVec w) (ulOption : ℕ) :
    Settles s (eventSetTryGetEx s ulEvent ulOption).2 (immediateReset s ulEvent ulOption) := by
  unfold eventSetTryGetEx immediateReset
  cases waitType ulOption with
  | none => exact Settles.of_eq rfl rfl
  | some ty =>
    by_cases hholds : ty.holds ulEvent s.eventSets = true
    · simp only [hholds, if_true]
      exact Settles.of_reset rfl rfl
    · simp only [hholds]
      exact Settles.of_eq rfl rfl

theorem settles_tick {s s' : State T w} {t : T} (hs : threadTick s t = some s') :
    Settles s s' none := by
  unfold threadTick at hs
  split at hs
  · split_ifs at hs
    obtain rfl := Option.some.inj hs
    refine ⟨rfl, fun n hn => Or.inl ?_⟩
    exact (List.mem_filter.mp hn).1
  · cases hs

theorem settles_resume {s s' : State T w} {t : T} (hs : getExResume s t = some s') :
    Settles s s' (resetOf s (.resume t)) := by
  unfold getExResume at hs
  simp only [resetOf]
  cases hphase : s.phase t with
  | idle ret => simp [hphase] at hs
  | asleep call => simp [hphase] at hs
  | timedOut call =>
    rw [hphase] at hs
    obtain rfl := Option.some.inj hs
    exact Settles.of_eq rfl rfl
  | woken call rdy =>
    rw [hphase] at hs
    obtain rfl := Option.some.inj hs
    exact Settles.of_reset rfl rfl

theorem step_cases {s s' : State T w} {a : Act T w} (hs : step s a = some s') :
    (∃ e o, a = .set e o ∧ s' = (eventSetSet s e o).2) ∨ Settles s s' (resetOf s a) := by
  cases a with
  | set e o =>
    obtain rfl := Option.some.inj hs
    exact Or.inl ⟨e, o, rfl, rfl⟩
  | get t e o time =>
    right
    simp only [step] at hs
    split at hs
    · obtain rfl := Option.some.inj hs
      exact settles_get s t e o time
    · cases hs
  | tryGet e o =>
    right
    obtain rfl := Option.some.inj hs
    exact settles_tryGet s e o
  | tick t => exact Or.inr (settles_tick hs)
  | resume t => exact Or.inr (settles_resume hs)

end SylixOS.EventSet
