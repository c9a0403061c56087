import SylixOS.ThreadOnce

/-! Once initialisation along every run that meets the condition. At most one
call executes the routine; the control variable and the history say how far it
has come, and nobody sleeps without it. -/

namespace SylixOS.ThreadOnce
open EventWait (SchedRet)
open StepRuns VutexLib

variable {T : Type*}

structure Story (settled : Prop) (history : List (Event T)) : Prop where
  done : (∃ u, Event.finished u ∈ history) ↔ settled
  once : ∀ before after t, history = before ++ .began t :: after →
    ∀ u, Event.finished u ∉ before
  late : ∀ before after t, history = before ++ .returned t :: after →
    ∃ u, Event.finished u ∈ before

theorem cut_append {α : Type*} {l before after : List α} {e x : α}
    (h : l ++ [e] = before ++ x :: after) :
    (before = l ∧ x = e) ∨ ∃ rest, l = before ++ x :: rest := by
  rcases List.eq_nil_or_concat after with rfl | ⟨rest, y, rfl⟩
  · have hsplit := List.append_inj' h rfl
    simp only [List.cons.injEq, and_true] at hsplit
    exact Or.inl ⟨hsplit.1.symm, hsplit.2.symm⟩
  · have hall : l ++ [e] = (before ++ x :: rest) ++ [y] := by simpa using h
    exact Or.inr ⟨rest, (List.append_inj' hall rfl).1⟩

theorem story_nil : Story False ([] : List (Event T)) := by
  constructor <;> simp

theorem Story.began {history : List (Event T)} (h : Story False history) (t : T) :
    Story False (history ++ [.began t]) := by
  have hnone : ∀ u, Event.finished u ∉ history := fun u hu => h.done.mp ⟨u, hu⟩
  constructor
  case done => simpa using hnone
  case once =>
    intro before after u hcut
    rcases cut_append hcut with ⟨rfl, -⟩ | ⟨rest, hold⟩
    · exact hnone
    · exact h.once before rest u hold
  case late =>
    intro before after u hcut
    rcases cut_append hcut with ⟨-, he⟩ | ⟨rest, hold⟩
    · cases he
    · exact h.late before rest u hold

theorem Story.finished {settled : Prop} {history : List (Event T)} (h : Story settled history)
    (t : T) : Story True (history ++ [.finished t]) := by
  constructor
  case done => simp
  case once =>
    intro before after u hcut
    rcases cut_append hcut with ⟨-, he⟩ | ⟨rest, hold⟩
    · cases he
    · exact h.once before rest u hold
  case late =>
    intro before after u hcut
    rcases cut_append hcut with ⟨-, he⟩ | ⟨rest, hold⟩
    · cases he
    · exact h.late before rest u hold

theorem Story.returned {settled : Prop} {history : List (Event T)} (h : Story settled history)
    (hsettled : settled) (t : T) : Story settled (history ++ [.returned t]) := by
  constructor
  case done => simpa using h.done
  case once =>
    intro before after u hcut
    rcases cut_append hcut with ⟨-, he⟩ | ⟨rest, hold⟩
    · cases he
    · exact h.once before rest u hold
  case late =>
    intro before after u hcut
    rcases cut_append hcut with ⟨rfl, -⟩ | ⟨rest, hold⟩
    · exact h.done.mpr hsettled
    · exact h.late before rest u hold

def ownOf [DecidableEq T] (owner : Option (T × Frame)) (t : T) : List Frame :=
  match owner with
  | none => []
  | some (u, frame) => if t = u then [frame] else []

def Word (once : BitVec 32) : Option (T × Frame) → Prop
  | none => once = statusNone ∨ once = statusDown
  | some (_, .posting) => once = statusDown
  | some _ => once = statusInit

def Settled (once : BitVec 32) : Option (T × Frame) → Prop
  | none => once = statusDown
  | some (_, .push) => False
  | some (_, .routine _) => False
  | some _ => True

/-- A frame behind a `__threadOnceCleanPush` that had memory. -/
def Frame.recorded : Frame → Bool
  | .routine true | .pop true => true
  | _ => false

structure Ok [DecidableEq T] (piOnce : PhysAddr) (s : State T) (owner : Option (T × Frame)) :
    Prop where
  ok : s.vutexes.Ok
  addr : ∀ t phyaddr, (s.vutexes.tcb t).vutex.phyaddr = some phyaddr → phyaddr = piOnce
  waits : ∀ t, (s.vutexes.tcb t).pend = true → ∃ rest, s.frames t = .asleep .none :: rest
  own : ∀ t, s.executions t = ownOf owner t
  word : Word s.once owner
  records : ∀ t, s.records t = (s.executions t).countP Frame.recorded
  dying : ∀ t, s.phase t = .dying → ∃ b, s.executions t = [.routine b]
  posting : ∀ q, s.posting = some q → ∃ passed ahead,
    s.vutexes.Walk (vutexHash piOnce) passed ahead ∧
      if q.destroy then s.phase q.thread = .posting
      else
        passed = [] ∧ q.wakeAll = true ∧ s.phase q.thread = .alive ∧
          ∃ rest, s.frames q.thread = .posting :: rest
  story : Story (Settled s.once owner) s.history
  awake : ∀ t, (s.vutexes.tcb t).pend = true → s.phase t = .alive → owner.isSome

variable [DecidableEq T] {piOnce : PhysAddr} {s : State T} {t : T} {owner : Option (T × Frame)}

theorem ok_init (piOnce : PhysAddr) : Ok piOnce (State.init : State T) none := by
  constructor
  case ok => exact ok_empty
  case addr => exact fun t a ha => nomatch ha
  case waits => exact fun t ht => nomatch ht
  case own => exact fun t => rfl
  case word => exact Or.inl rfl
  case records => exact fun t => rfl
  case dying => exact fun t ht => nomatch ht
  case posting => exact fun q hq => nomatch hq
  case story =>
    have hopen : Settled (statusNone) (none : Option (T × Frame)) ↔ False := by
      simp [Settled, statusNone, statusDown]
    simpa [State.init, hopen] using story_nil
  case awake => exact fun t ht => nomatch ht

theorem Ok.owner_of_mem (h : Ok piOnce s owner) {frame : Frame} (ht : frame ∈ s.executions t) :
    owner = some (t, frame) := by
  rw [h.own] at ht
  cases owner with
  | none => cases ht
  | some o =>
    obtain ⟨u, f⟩ := o
    unfold ownOf at ht
    dsimp only at ht
    split at ht
    case isTrue hu =>
      rw [List.mem_singleton.mp ht, hu]
    case isFalse => cases ht

theorem Ok.safe (h : Ok piOnce s owner) : s.Safe := by
  constructor
  case alone =>
    intro t u b c ht hu
    have hmine := h.owner_of_mem ht
    have hyours := h.owner_of_mem hu
    rw [hmine] at hyours
    obtain ⟨rfl, -⟩ := Prod.mk.inj (Option.some.inj hyours)
    refine ⟨rfl, ?_⟩
    rw [h.own, hmine]
    simp [ownOf]
  case once => exact h.story.once
  case late => exact h.story.late
  case awake =>
    intro k u hu halive
    obtain ⟨⟨v, frame⟩, howner⟩ := Option.isSome_iff_exists.mp
      (h.awake u (h.ok.pend_of_mem hu) halive)
    refine ⟨v, ?_⟩
    rw [h.own, howner]
    simp [ownOf]

theorem not_head {frame : Frame} {frames rest : List Frame} (h : frames = frame :: rest)
    {other : Frame} (hne : frame ≠ other) : frames.head? ≠ some other := by
  rw [h]
  simpa using hne

theorem Ok.running (h : Ok piOnce s owner) (hframe : (s.frames t).head? ≠ some (.asleep .none)) :
    (s.vutexes.tcb t).pend = false := by
  by_contra hpend
  obtain ⟨rest, hasleep⟩ := h.waits t (by simpa using hpend)
  simp [hasleep] at hframe

def Outside (s : State T) (t : T) : Prop :=
  ∀ q, s.posting = some q → q.destroy = false → q.thread ≠ t

theorem Ok.outside (h : Ok piOnce s owner) (hframe : (s.frames t).head? ≠ some .posting) :
    Outside s t := by
  rintro q hq hdestroy rfl
  obtain ⟨passed, ahead, -, hposting⟩ := h.posting q hq
  rw [hdestroy] at hposting
  obtain ⟨-, -, -, rest, hframes⟩ := hposting
  simp [hframes] at hframe

theorem Ok.move (h : Ok piOnce s owner) (halive : s.phase t = .alive)
    (hpend : (s.vutexes.tcb t).pend = false) (hout : Outside s t) {owner' : Option (T × Frame)}
    {frames : List Frame} {once : BitVec 32} {records : T → ℕ} {history : List (Event T)}
    (hown : frames.filter Frame.executes = ownOf owner' t)
    (hothers : ∀ u, u ≠ t → ownOf owner' u = ownOf owner u) (hword : Word once owner')
    (hrecords : ∀ u, records u = (ownOf owner' u).countP Frame.recorded)
    (hstory : Story (Settled once owner') history) (hawake : owner.isSome → owner'.isSome) :
    Ok piOnce { s with
      frames := Function.update s.frames t frames
      once := once
      records := records
      history := history } owner' := by
  have howns : ∀ u, ({ s with
      frames := Function.update s.frames t frames
      once := once
      records := records
      history := history } : State T).executions u = ownOf owner' u := by
    intro u
    by_cases hu : u = t
    · subst hu
      simpa [State.executions, halive, Phase.live] using hown
    · have hother := h.own u
      simp only [State.executions] at hother
      simpa [State.executions, hu, hothers u hu] using hother
  constructor
  case ok => exact h.ok
  case addr => exact h.addr
  case waits =>
    intro u hu
    have hne : u ≠ t := by
      rintro rfl
      rw [hpend] at hu
      cases hu
    simpa [hne] using h.waits u hu
  case own => exact howns
  case word => exact hword
  case records =>
    intro u
    rw [howns]
    exact hrecords u
  case dying =>
    intro u hu
    have hne : u ≠ t := by
      rintro rfl
      rw [halive] at hu
      cases hu
    obtain ⟨b, hb⟩ := h.dying u hu
    refine ⟨b, ?_⟩
    rw [howns, hothers u hne, ← h.own, hb]
  case posting =>
    intro q hq
    obtain ⟨passed, ahead, hw, hrest⟩ := h.posting q hq
    refine ⟨passed, ahead, hw, ?_⟩
    cases hdestroy : q.destroy with
    | true => simpa [hdestroy] using hrest
    | false =>
      simpa [hdestroy, hout q hq hdestroy] using hrest
  case story => exact hstory
  case awake => exact fun u hu ha => hawake (h.awake u hu ha)

theorem Ok.goto (h : Ok piOnce s owner) (halive : s.phase t = .alive)
    (hpend : (s.vutexes.tcb t).pend = false) (hout : Outside s t) {frames : List Frame}
    (hsame : frames.filter Frame.executes = (s.frames t).filter Frame.executes)
    {history : List (Event T)} (hstory : Story (Settled s.once owner) history) :
    Ok piOnce { s.goto t frames with history := history } owner := by
  have hmine : (s.frames t).filter Frame.executes = ownOf owner t := by
    rw [← h.own]
    simp [State.executions, halive, Phase.live]
  apply h.move halive hpend hout (hsame.trans hmine) (fun _ _ => rfl) h.word _ hstory id
  intro u
  change s.records u = _
  rw [h.records, h.own]

theorem Ok.owner_head (h : Ok piOnce s owner) (halive : s.phase t = .alive) {frame : Frame}
    {rest : List Frame} (hframes : s.frames t = frame :: rest) (hexec : frame.executes = true) :
    owner = some (t, frame) ∧ rest.filter Frame.executes = [] := by
  have hmem : frame ∈ s.executions t := by
    simp [State.executions, halive, Phase.live, hframes, hexec]
  have howner := h.owner_of_mem hmem
  refine ⟨howner, ?_⟩
  have hown := h.own t
  rw [howner] at hown
  simpa [State.executions, halive, Phase.live, hframes, hexec, ownOf] using hown

theorem Ok.proceed (h : Ok piOnce s owner) (halive : s.phase t = .alive) {frame frame' : Frame}
    {rest : List Frame} (hframes : s.frames t = frame :: rest) (hexec : frame.executes = true)
    (hexec' : frame'.executes = true) (hposting : frame ≠ .posting) {records : T → ℕ}
    {history : List (Event T)} (hword : Word s.once (some (t, frame')))
    (hrecords : records t = if frame'.recorded then 1 else 0)
    (hothers : ∀ u, u ≠ t → records u = s.records u)
    (hstory : Story (Settled s.once (some (t, frame'))) history) :
    Ok piOnce { s with
      frames := Function.update s.frames t (frame' :: rest)
      records := records
      history := history } (some (t, frame')) := by
  obtain ⟨rfl, hrest⟩ := h.owner_head halive hframes hexec
  have hasleep : frame ≠ .asleep .none := by
    rintro rfl
    cases hexec
  apply h.move halive (h.running (not_head hframes hasleep)) (h.outside (not_head hframes hposting))
  case hown => simp [hexec', hrest, ownOf]
  case hothers =>
    intro u hu
    simp [ownOf, hu]
  case hword => exact hword
  case hrecords =>
    intro u
    by_cases hu : u = t
    · subst hu
      rw [hrecords]
      cases hrec : frame'.recorded <;> simp [ownOf, hrec]
    · rw [hothers u hu, h.records, h.own]
      simp [ownOf, hu]
  case hstory => exact hstory
  case hawake => simp

theorem Ok.quiet (h : Ok piOnce s owner) (halive : s.phase t = .alive) {frame frame' : Frame}
    {rest : List Frame} (hframes : s.frames t = frame :: rest) (hexec : frame.executes = false)
    (hexec' : frame'.executes = false) (hasleep : frame ≠ .asleep .none) :
    Ok piOnce (s.goto t (frame' :: rest)) owner := by
  have hposting : frame ≠ .posting := by
    rintro rfl
    cases hexec
  exact h.goto halive (h.running (not_head hframes hasleep)) (h.outside (not_head hframes hposting))
    (by simp [hframes, hexec, hexec']) h.story

theorem Ok.leave (h : Ok piOnce s owner) (halive : s.phase t = .alive) {rest : List Frame}
    (hframes : s.frames t = .load :: rest) {e : Event T}
    (hstory : Story (Settled s.once owner) (s.history ++ [e])) :
    Ok piOnce ((s.goto t rest).log e) owner :=
  h.goto halive (h.running (not_head hframes (by simp))) (h.outside (not_head hframes (by simp)))
    (by simp [hframes, Frame.executes]) hstory

omit [DecidableEq T] in
theorem Story.failed {settled : Prop} {history : List (Event T)} (h : Story settled history)
    (t : T) : Story settled (history ++ [.failed t]) := by
  constructor
  case done => simpa using h.done
  case once =>
    intro before after u hcut
    rcases cut_append hcut with ⟨-, he⟩ | ⟨rest, hold⟩
    · cases he
    · exact h.once before rest u hold
  case late =>
    intro before after u hcut
    rcases cut_append hcut with ⟨-, he⟩ | ⟨rest, hold⟩
    · cases he
    · exact h.late before rest u hold

omit [DecidableEq T] in
theorem settled_of_down (h : Word statusDown owner) : Settled statusDown owner := by
  cases owner with
  | none => rfl
  | some o =>
    obtain ⟨u, frame⟩ := o
    cases frame with
    | push => simp [Word, statusDown, statusInit] at h
    | routine b => simp [Word, statusDown, statusInit] at h
    | _ => trivial

theorem Ok.advance (h : Ok piOnce s owner) (halive : s.phase t = .alive) {frame : Frame}
    {rest : List Frame} (hframes : s.frames t = frame :: rest) {s' : State T}
    (hstep : advance s t rest frame = some s') : ∃ owner', Ok piOnce s' owner' := by
  unfold ThreadOnce.advance at hstep
  cases frame with
  | load =>
    simp only at hstep
    split at hstep
    case isTrue hdown =>
      cases hstep
      have hsettled : Settled s.once owner := by
        have hword := h.word
        rw [hdown] at hword ⊢
        exact settled_of_down hword
      exact ⟨owner, h.leave halive hframes (h.story.returned hsettled t)⟩
    case isFalse =>
      split at hstep
      case isTrue =>
        cases hstep
        exact ⟨owner, h.quiet halive hframes rfl rfl (by simp)⟩
      case isFalse =>
        split at hstep
        case isTrue =>
          cases hstep
          exact ⟨owner, h.quiet halive hframes rfl rfl (by simp)⟩
        case isFalse =>
          cases hstep
          exact ⟨owner, h.leave halive hframes (h.story.failed t)⟩
  | cas =>
    simp only at hstep
    split at hstep
    case isFalse =>
      cases hstep
      exact ⟨owner, h.quiet halive hframes rfl rfl (by simp)⟩
    case isTrue hnone =>
      cases hstep
      have hword := h.word
      rw [hnone] at hword
      -- nobody executes while the variable is 0
      obtain rfl : owner = none := by
        cases owner with
        | none => rfl
        | some o =>
          obtain ⟨u, frame⟩ := o
          cases frame <;> simp [Word, statusNone, statusDown, statusInit] at hword
      have hrest : rest.filter Frame.executes = [] := by
        have hown := h.own t
        simpa [State.executions, halive, Phase.live, hframes, Frame.executes, ownOf] using hown
      refine ⟨some (t, .push), ?_⟩
      apply h.move halive (h.running (not_head hframes (by simp)))
        (h.outside (not_head hframes (by simp)))
      case hown =>
        rw [List.filter_cons_of_pos rfl, hrest]
        simp [ownOf]
      case hothers =>
        intro u hu
        simp [ownOf, hu]
      case hword => rfl
      case hrecords =>
        intro u
        change s.records u = _
        rw [h.records, h.own]
        by_cases hu : u = t <;> simp [ownOf, hu, Frame.recorded]
      case hstory =>
        have hopen : Settled statusInit (some (t, Frame.push)) = Settled s.once (none : Option (T × Frame)) := by
          simp [Settled, hnone, statusNone, statusDown]
        rw [hopen]
        exact h.story
      case hawake => simp
  | routine bPush =>
    cases hstep
    obtain ⟨rfl, -⟩ := h.owner_head halive hframes rfl
    refine ⟨some (t, .pop bPush), ?_⟩
    have hrecord : s.records t = if (Frame.pop bPush).recorded then 1 else 0 := by
      rw [h.records, h.own]
      cases bPush <;> simp [ownOf, Frame.recorded]
    exact h.proceed halive hframes rfl rfl (by simp) h.word hrecord (fun _ _ => rfl)
      (h.story.finished t)
  | pop bPush =>
    cases hstep
    obtain ⟨rfl, -⟩ := h.owner_head halive hframes rfl
    refine ⟨some (t, .post), ?_⟩
    have hrecord : s.records t = if bPush then 1 else 0 := by
      rw [h.records, h.own]
      cases bPush <;> simp [ownOf, Frame.recorded]
    have hword : Word s.once (some (t, Frame.post)) := h.word
    apply h.proceed halive hframes rfl rfl (by simp) hword
    case hrecords =>
      cases bPush with
      | true => simp [hrecord, Frame.recorded]
      | false => simp [hrecord, Frame.recorded]
    case hothers =>
      intro u hu
      cases bPush <;> simp [hu]
    case hstory => exact h.story
  | pendTest =>
    simp only at hstep
    split at hstep
    · cases hstep
      exact ⟨owner, h.quiet halive hframes rfl rfl (by simp)⟩
    · cases hstep
      exact ⟨owner, h.quiet halive hframes rfl rfl (by simp)⟩
  | push => cases hstep
  | post => cases hstep
  | posting => cases hstep
  | pendEnter => cases hstep
  | asleep r => cases hstep
  | handler r b => cases hstep

theorem Ok.cleanPush (h : Ok piOnce s owner) (halive : s.phase t = .alive) {rest : List Frame}
    (hframes : s.frames t = .push :: rest) (allocated : Bool) :
    Ok piOnce (cleanPush s t rest allocated) (some (t, .routine allocated)) := by
  obtain ⟨rfl, -⟩ := h.owner_head halive hframes rfl
  have hrecord : s.records t = 0 := by
    rw [h.records, h.own]
    simp [ownOf, Frame.recorded]
  have hword : Word s.once (some (t, Frame.routine allocated)) := h.word
  apply h.proceed halive hframes rfl rfl (by simp) hword
  case hrecords => cases allocated <;> simp [hrecord, Frame.recorded]
  case hothers =>
    intro u hu
    cases allocated <;> simp [hu]
  case hstory => exact h.story.began t

theorem Ok.pendEnter (h : Ok piOnce s owner) (hkernel : s.posting = none)
    (halive : s.phase t = .alive) {rest : List Frame} (hframes : s.frames t = .pendEnter :: rest)
    (hfair : s.once ≠ statusNone) : Ok piOnce (pendEnter piOnce s t rest) owner := by
  unfold ThreadOnce.pendEnter
  split
  case isTrue => exact h.quiet halive hframes rfl rfl (by simp)
  case isFalse htest =>
    have hdown : s.once ≠ statusDown := by simpa [vutexWakeIsMatch] using htest
    have howner : owner.isSome = true := by
      cases owner with
      | some o => rfl
      | none => exact absurd h.word (by simp [Word, hfair, hdown])
    have hpend : (s.vutexes.tcb t).pend = false := h.running (not_head hframes (by simp))
    have hsame : ∀ u, (s.goto t (.asleep .none :: rest)).executions u = s.executions u := by
      intro u
      by_cases hu : u = t <;> simp [State.executions, State.goto, hu, hframes, Frame.executes]
    have hnobody : ∀ q, s.posting ≠ some q := by simp [hkernel]
    constructor
    case ok => exact h.ok.vutexWaitQueue hpend _ _ _ _
    case addr =>
      intro u a ha
      by_cases hu : u = t
      · simpa [Vutexes.vutexWaitQueue, hu, eq_comm] using ha
      · exact h.addr u a (by simpa [Vutexes.vutexWaitQueue, hu] using ha)
    case waits =>
      intro u hu
      by_cases hut : u = t
      · simp [State.goto, hut]
      · simpa [State.goto, hut] using
          h.waits u (by simpa [Vutexes.vutexWaitQueue, hut] using hu)
    case own => exact fun u => (hsame u).trans (h.own u)
    case word => exact h.word
    case records => exact fun u => (h.records u).trans (congrArg _ (hsame u).symm)
    case dying =>
      intro u hu
      obtain ⟨b, hb⟩ := h.dying u hu
      exact ⟨b, (hsame u).trans hb⟩
    case posting => exact fun q hq => absurd hq (hnobody q)
    case story => exact h.story
    case awake => exact fun _ _ _ => howner

theorem Ok.lists (h : Ok piOnce s owner) {vutexes : Vutexes T} (hok : vutexes.Ok)
    (hpend : ∀ t, (vutexes.tcb t).pend = true → (s.vutexes.tcb t).pend = true)
    (haddr : ∀ t phyaddr, (vutexes.tcb t).vutex.phyaddr = some phyaddr → phyaddr = piOnce)
    (hwalk : ∀ q, s.posting = some q → ∃ passed ahead,
      vutexes.Walk (vutexHash piOnce) passed ahead ∧ (q.destroy = false → passed = [])) :
    Ok piOnce { s with vutexes := vutexes } owner := by
  constructor
  case ok => exact hok
  case addr => exact haddr
  case waits => exact fun t ht => h.waits t (hpend t ht)
  case own => exact h.own
  case word => exact h.word
  case records => exact h.records
  case dying => exact h.dying
  case posting =>
    intro q hq
    obtain ⟨passed', ahead', -, hrest⟩ := h.posting q hq
    obtain ⟨passed, ahead, hw, hnil⟩ := hwalk q hq
    refine ⟨passed, ahead, hw, ?_⟩
    cases hdestroy : q.destroy with
    | true => simpa [hdestroy] using hrest
    | false =>
      rw [hdestroy] at hrest
      obtain ⟨-, hall, halive, hframes⟩ := hrest
      exact ⟨hnil hdestroy, hall, halive, hframes⟩
  case story => exact h.story
  case awake => exact fun t ht ha => h.awake t (hpend t ht) ha

theorem Ok.postEnter (h : Ok piOnce s owner) (halive : s.phase t = .alive) {rest : List Frame}
    (hframes : s.frames t = .post :: rest) :
    Ok piOnce (postEnter piOnce s t rest) (some (t, .posting)) := by
  obtain ⟨rfl, hrest⟩ := h.owner_head halive hframes rfl
  obtain ⟨hok, hwalk⟩ := h.ok.wakeFirst piOnce
  have howns : ∀ u, (ThreadOnce.postEnter piOnce s t rest).executions u =
      ownOf (some (t, .posting)) u := by
    intro u
    by_cases hu : u = t
    · subst hu
      simp only [ThreadOnce.postEnter, State.executions, State.goto, Function.update_self, halive,
        Phase.live, if_true, ownOf]
      rw [List.filter_cons_of_pos rfl, hrest]
    · have hother := h.own u
      simp only [State.executions] at hother
      simpa [ThreadOnce.postEnter, State.executions, State.goto, ownOf, hu] using hother
  constructor
  case ok => exact hok
  case addr => exact h.addr
  case waits =>
    intro u hu
    have hne : u ≠ t := by
      rintro rfl
      obtain ⟨frames, hasleep⟩ := h.waits u hu
      simp [hframes] at hasleep
    simpa [ThreadOnce.postEnter, State.goto, hne] using h.waits u hu
  case own => exact howns
  case word => rfl
  case records =>
    intro u
    rw [howns]
    change s.records u = _
    rw [h.records, h.own]
    by_cases hu : u = t <;> simp [ownOf, hu, Frame.recorded]
  case dying =>
    intro u hu
    obtain ⟨b, hb⟩ := h.dying u hu
    rw [h.own] at hb
    have hne : u ≠ t := by
      rintro rfl
      simp [ownOf] at hb
    simp [ownOf, hne] at hb
  case posting =>
    intro q hq
    obtain rfl := Option.some.inj hq
    exact ⟨[], _, hwalk, rfl, rfl, halive, rest, by simp [ThreadOnce.postEnter, State.goto]⟩
  case story => exact h.story
  case awake => exact fun _ _ _ => rfl

theorem Ok.phased (h : Ok piOnce s owner) {phase : Phase} (hbefore : (s.phase t).live = false)
    (hafter : phase.live = false) {posting : Option (Posting T)}
    (hposting : ∀ q, posting = some q → ∃ passed ahead,
      s.vutexes.Walk (vutexHash piOnce) passed ahead ∧
        if q.destroy then Function.update s.phase t phase q.thread = .posting
        else
          passed = [] ∧ q.wakeAll = true ∧ Function.update s.phase t phase q.thread = .alive ∧
            ∃ rest, s.frames q.thread = .posting :: rest) :
    Ok piOnce { s with phase := Function.update s.phase t phase, posting := posting } owner := by
  have hsame : ∀ u, ({ s with phase := Function.update s.phase t phase, posting := posting }
      : State T).executions u = s.executions u := by
    intro u
    by_cases hu : u = t
    · simp [State.executions, hu, hbefore, hafter]
    · simp [State.executions, hu]
  constructor
  case ok => exact h.ok
  case addr => exact h.addr
  case waits => exact h.waits
  case own => exact fun u => (hsame u).trans (h.own u)
  case word => exact h.word
  case records => exact fun u => (h.records u).trans (congrArg _ (hsame u).symm)
  case dying =>
    intro u hu
    have hne : u ≠ t := by
      rintro rfl
      simp only [Function.update_self] at hu
      rw [hu] at hafter
      cases hafter
    obtain ⟨b, hb⟩ := h.dying u (by simpa [hne] using hu)
    exact ⟨b, (hsame u).trans hb⟩
  case posting => exact hposting
  case story => exact h.story
  case awake =>
    intro u hu ha
    have hne : u ≠ t := by
      rintro rfl
      simp only [Function.update_self] at ha
      rw [ha] at hafter
      cases hafter
    exact h.awake u hu (by simpa [hne] using ha)

theorem Ok.rephase (h : Ok piOnce s owner) {phase : Phase} (hbefore : (s.phase t).live = false)
    (hafter : phase.live = false) (hwalk : s.phase t ≠ .posting) :
    Ok piOnce { s with phase := Function.update s.phase t phase } owner := by
  have hposting : ∀ q, s.posting = some q → ∃ passed ahead,
      s.vutexes.Walk (vutexHash piOnce) passed ahead ∧
        if q.destroy then Function.update s.phase t phase q.thread = .posting
        else
          passed = [] ∧ q.wakeAll = true ∧ Function.update s.phase t phase q.thread = .alive ∧
            ∃ rest, s.frames q.thread = .posting :: rest := by
    intro q hq
    obtain ⟨passed, ahead, hw, hrest⟩ := h.posting q hq
    refine ⟨passed, ahead, hw, ?_⟩
    have hne : q.thread ≠ t := by
      intro he
      split at hrest
      · rw [he] at hrest
        exact hwalk hrest
      · rw [← he, hrest.2.2.1] at hbefore
        cases hbefore
    simpa [hne] using hrest
  exact h.phased hbefore hafter hposting

theorem Ok.destroyEnter (h : Ok piOnce s owner) (hkernel : s.posting = none)
    (hphase : s.phase t = .postEnter) : Ok piOnce (destroyEnter piOnce s t) owner := by
  have hbefore : (s.phase t).live = false := by simp [hphase, Phase.live]
  unfold ThreadOnce.destroyEnter
  split
  case isTrue =>
    exact h.rephase hbefore rfl (by simp [hphase])
  case isFalse =>
    obtain ⟨hok, hwalk⟩ := h.ok.wakeFirst piOnce
    have hfirst : Ok piOnce { s with vutexes := s.vutexes.wakeFirst piOnce } owner :=
      h.lists hok (fun _ ht => ht) h.addr (by simp [hkernel])
    apply hfirst.phased hbefore rfl
    intro q hq
    obtain rfl := Option.some.inj hq
    exact ⟨[], _, hwalk, by simp⟩

theorem Ok.finish (h : Ok piOnce s owner) {q : Posting T} (hq : s.posting = some q)
    (hdestroy : q.destroy = false) (hop : s.vutexes.op = none) :
    Ok piOnce (({ s with posting := none }.goto q.thread (s.frames q.thread).tail).log
      (.returned q.thread)) none := by
  obtain ⟨passed, ahead, hw, hrest⟩ := h.posting q hq
  rw [hdestroy] at hrest
  obtain ⟨rfl, -, halive, rest, hframes⟩ := hrest
  have hnil : ahead = [] := by rw [← List.head?_eq_none_iff, ← hw.op, hop]
  have hempty : s.vutexes.chain (vutexHash piOnce) = [] := by rw [hw.split, hnil]; rfl
  have hnobody : ∀ u, (s.vutexes.tcb u).pend = false := by
    intro u
    by_contra hpend
    obtain ⟨phyaddr, ha⟩ := h.ok.phyaddr_of_pend (by simpa using hpend)
    obtain rfl := h.addr u phyaddr ha
    have hin : u ∈ s.vutexes.chain (vutexHash phyaddr) := (h.ok.chained _ u).mpr ⟨_, ha, rfl⟩
    rw [hempty] at hin
    cases hin
  obtain ⟨rfl, hother⟩ := h.owner_head halive hframes rfl
  have hdown : s.once = statusDown := h.word
  have howns : ∀ u, (({ s with posting := none }.goto q.thread
      (s.frames q.thread).tail).log (.returned q.thread)).executions u = [] := by
    intro u
    by_cases hu : u = q.thread
    · subst hu
      simp only [State.executions, State.log, State.goto, Function.update_self, hframes,
        List.tail_cons, hother, ite_self]
    · have hown := h.own u
      simp only [State.executions] at hown
      simpa [State.executions, State.log, State.goto, hu, ownOf] using hown
  constructor
  case ok => exact h.ok
  case addr => exact h.addr
  case waits => exact fun u hu => absurd hu (by simp [State.log, State.goto, hnobody])
  case own => exact howns
  case word => exact Or.inr hdown
  case records =>
    intro u
    rw [howns]
    change s.records u = _
    rw [h.records, h.own]
    by_cases hu : u = q.thread <;> simp [ownOf, hu, Frame.recorded]
  case dying =>
    intro u hu
    obtain ⟨b, hb⟩ := h.dying u hu
    rw [h.own] at hb
    have hne : u ≠ q.thread := by
      rintro rfl
      simp [ownOf] at hb
    simp [ownOf, hne] at hb
  case posting => exact fun q hq => nomatch hq
  case story =>
    have hsettled : Settled s.once (none : Option (T × Frame)) =
        Settled s.once (some (q.thread, Frame.posting)) := by
      simp [Settled, hdown]
    change Story (Settled s.once none) (s.history ++ [.returned q.thread])
    rw [hsettled]
    exact h.story.returned trivial q.thread
  case awake => exact fun u hu => absurd hu (by simp [State.log, State.goto, hnobody])

theorem Ok.round (h : Ok piOnce s owner) {q : Posting T} (hq : s.posting = some q) :
    ∃ owner', Ok piOnce (postRound piOnce s q) owner' := by
  obtain ⟨passed, ahead, hw, hrest⟩ := h.posting q hq
  unfold postRound
  split
  case h_1 t hop =>
    refine ⟨owner, ?_⟩
    cases ahead with
    | nil =>
      rw [hw.op] at hop
      cases hop
    | cons u tail =>
      obtain rfl : u = t := by
        rw [hw.op] at hop
        exact Option.some.inj hop
      have hin : u ∈ s.vutexes.chain (vutexHash piOnce) := by simp [hw.split]
      obtain ⟨phyaddr, ha, -⟩ := (h.ok.chained _ u).mp hin
      obtain rfl := h.addr u phyaddr ha
      rcases h.ok.wakeRound hw q.iValue q.wakeAll with
        ⟨-, vutexes, hr, hok, hw', htcb, -⟩ | ⟨hmiss, vutexes, hr, hok, hw', htcb, -⟩
      · rw [hr]
        apply h.lists hok
        · intro v hv
          by_cases hvu : v = u
          · simp [htcb, hvu] at hv
          · simpa [htcb, hvu] using hv
        · intro v a hv
          by_cases hvu : v = u
          · simp [htcb, hvu] at hv
          · exact h.addr v a (by simpa [htcb, hvu] using hv)
        · intro r hposting
          obtain rfl : q = r := Option.some.inj (hq.symm.trans hposting)
          refine ⟨passed, tail, hw', fun hdestroy => ?_⟩
          rw [hdestroy] at hrest
          exact hrest.1
      · rw [hr]
        apply h.lists hok
        · intro v hv
          simpa [htcb] using hv
        · intro v a hv
          exact h.addr v a (by simpa [htcb] using hv)
        · intro r hposting
          obtain rfl : q = r := Option.some.inj (hq.symm.trans hposting)
          refine ⟨passed ++ [u], tail, hw', fun hdestroy => ?_⟩
          rw [hdestroy] at hrest
          exact absurd ⟨ha, Or.inl hrest.2.1⟩ hmiss
  case h_2 hop =>
    split
    case isTrue hdestroy =>
      rw [if_pos hdestroy] at hrest
      exact ⟨owner, h.phased (by simp [hrest, Phase.live]) rfl (by simp)⟩
    case isFalse hdestroy =>
      exact ⟨none, h.finish hq (by simpa using hdestroy) hop⟩

theorem Ok.wake (h : Ok piOnce s owner) (halive : s.phase t = .alive)
    (hpend : (s.vutexes.tcb t).pend = false) {rest : List Frame} {iSchedRet : SchedRet}
    (hframes : s.frames t = .asleep iSchedRet :: rest) :
    Ok piOnce (pendWake s t rest iSchedRet) owner := by
  apply h.goto halive hpend (h.outside (not_head hframes (by simp))) _ h.story
  by_cases hret : iSchedRet = .restart <;> simp [hframes, hret, Frame.executes]

theorem Ok.signal (h : Ok piOnce s owner) (hkernel : s.posting = none)
    (halive : s.phase t = .alive) (saType : SchedRet) :
    Ok piOnce { s.goto t (.handler (s.vutexes.sigMakeReady t saType).1
        ((s.vutexes.sigMakeReady t saType).2.tcb t).timeout :: s.frames t) with
      vutexes := (s.vutexes.sigMakeReady t saType).2 } owner := by
  have hout : Outside s t := fun q hq => absurd hq (by simp [hkernel])
  have hsame : ∀ ret timeout, (Frame.handler ret timeout :: s.frames t).filter Frame.executes =
      (s.frames t).filter Frame.executes := fun _ _ => List.filter_cons_of_neg (by simp [Frame.executes])
  rcases h.ok.sigMakeReady t saType with ⟨hpend, hr⟩ | ⟨hpend, hr⟩
  · rw [hr]
    exact h.goto halive hpend hout (hsame _ _) h.story
  · rw [hr]
    have hleft : Ok piOnce { s with vutexes := s.vutexes.leave t } owner := by
      apply h.lists (h.ok.leave hpend)
      · intro u hu
        by_cases hut : u = t
        · simp [Vutexes.leave, hut] at hu
        · simpa [Vutexes.leave, hut] using hu
      · intro u a hu
        by_cases hut : u = t
        · simp [Vutexes.leave, hut] at hu
        · exact h.addr u a (by simpa [Vutexes.leave, hut] using hu)
      · simp [hkernel]
    exact hleft.goto (t := t) halive (by simp [Vutexes.leave]) hout (hsame _ _) hleft.story

theorem Ok.sigReturn (h : Ok piOnce s owner) (halive : s.phase t = .alive) {ret : SchedRet}
    {timeout : Bool} {rest : List Frame} (hframes : s.frames t = .handler ret timeout :: rest) :
    Ok piOnce { s.goto t (rest.modifyHead (Frame.resumed ret)) with
      vutexes := s.vutexes.restore t timeout } owner := by
  have hpend := h.running (not_head hframes (by simp))
  have hrestored : Ok piOnce { s with vutexes := s.vutexes.restore t timeout } owner := by
    apply h.lists (h.ok.restore hpend timeout)
    · intro u hu
      by_cases hut : u = t <;> simpa [Vutexes.restore, hut] using hu
    · intro u a hu
      apply h.addr u a
      by_cases hut : u = t <;> simpa [Vutexes.restore, hut] using hu
    · intro q hq
      obtain ⟨passed, ahead, hw, hrest⟩ := h.posting q hq
      refine ⟨passed, ahead, ⟨hw.split, hw.op⟩, fun hdestroy => ?_⟩
      rw [hdestroy] at hrest
      exact hrest.1
  have hsame : (rest.modifyHead (Frame.resumed ret)).filter Frame.executes =
      (s.frames t).filter Frame.executes := by
    rw [hframes, List.filter_cons_of_neg (by simp [Frame.executes])]
    cases rest with
    | nil => rfl
    | cons frame rest => cases frame <;> simp [Frame.resumed, Frame.executes]
  exact hrestored.goto (t := t) halive (by simpa [Vutexes.restore] using hpend)
    (h.outside (not_head hframes (by simp))) hsame hrestored.story

theorem Ok.delete (h : Ok piOnce s owner) (hkernel : s.posting = none)
    (halive : s.phase t = .alive)
    (hroutine : .routine true ∈ s.frames t ∨ .routine false ∈ s.frames t) :
    Ok piOnce { s with phase := Function.update s.phase t .dying } owner := by
  have hsame : ∀ u, ({ s with phase := Function.update s.phase t .dying } : State T).executions u =
      s.executions u := by
    intro u
    by_cases hu : u = t
    · simp [State.executions, hu, halive, Phase.live]
    · simp [State.executions, hu]
  have hmem : ∃ b, .routine b ∈ s.executions t := by
    rcases hroutine with hin | hin
    · exact ⟨true, by simp [State.executions, halive, Phase.live, hin, Frame.executes]⟩
    · exact ⟨false, by simp [State.executions, halive, Phase.live, hin, Frame.executes]⟩
  constructor
  case ok => exact h.ok
  case addr => exact h.addr
  case waits => exact h.waits
  case own => exact fun u => (hsame u).trans (h.own u)
  case word => exact h.word
  case records => exact fun u => (h.records u).trans (congrArg _ (hsame u).symm)
  case dying =>
    intro u hu
    rw [hsame]
    by_cases hut : u = t
    · subst hut
      obtain ⟨b, hb⟩ := hmem
      refine ⟨b, ?_⟩
      rw [h.own, h.owner_of_mem hb]
      simp [ownOf]
    · exact h.dying u (by simpa [hut] using hu)
  case posting => exact fun q hq => absurd hq (by simp [hkernel])
  case story => exact h.story
  case awake =>
    intro u hu ha
    by_cases hut : u = t
    · simp [hut] at ha
    · exact h.awake u hu (by simpa [hut] using ha)

theorem Ok.reset (h : Ok piOnce s owner) (hdying : s.phase t = .dying) (hrecord : 0 < s.records t)
    (hnobody : ∀ u ∈ s.vutexes.chain (vutexHash piOnce), s.phase u ≠ .alive) :
    Ok piOnce { s with
      records := Function.update s.records t (s.records t - 1)
      once := statusNone
      phase := Function.update s.phase t .postTest } none := by
  obtain ⟨b, hb⟩ := h.dying t hdying
  have hin : .routine b ∈ s.executions t := by simp [hb]
  obtain rfl := h.owner_of_mem hin
  have howns : ∀ u, ({ s with
      records := Function.update s.records t (s.records t - 1)
      once := statusNone
      phase := Function.update s.phase t .postTest } : State T).executions u = [] := by
    intro u
    by_cases hu : u = t
    · simp [State.executions, hu, Phase.live]
    · have hown := h.own u
      simp only [State.executions] at hown
      simpa [State.executions, hu, ownOf] using hown
  constructor
  case ok => exact h.ok
  case addr => exact h.addr
  case waits => exact h.waits
  case own => exact howns
  case word => exact Or.inl rfl
  case records =>
    intro u
    rw [howns]
    have hold := h.records u
    by_cases hu : u = t
    · subst hu
      rw [hb] at hold
      have hle : s.records u ≤ 1 := by
        rw [hold]
        exact List.countP_le_length
      simp
      omega
    · rw [h.own] at hold
      simpa [hu, ownOf] using hold
  case dying =>
    intro u hu
    have hne : u ≠ t := by
      rintro rfl
      simp at hu
    obtain ⟨c, hc⟩ := h.dying u (by simpa [hne] using hu)
    rw [h.own] at hc
    simp [ownOf, hne] at hc
  case posting =>
    intro q hq
    obtain ⟨passed, ahead, hw, hrest⟩ := h.posting q hq
    refine ⟨passed, ahead, hw, ?_⟩
    have hne : q.thread ≠ t := by
      intro he
      split at hrest
      · rw [he, hdying] at hrest
        cases hrest
      · rw [he, hdying] at hrest
        cases hrest.2.2.1
    simpa [hne] using hrest
  case story =>
    have hopen : Settled statusNone (none : Option (T × Frame)) =
        Settled s.once (some (t, Frame.routine b)) := by
      simp [Settled, statusNone, statusDown]
    rw [hopen]
    exact h.story
  case awake =>
    intro u hu ha
    have hne : u ≠ t := by
      rintro rfl
      simp at ha
    have ha : s.phase u = .alive := by simpa [hne] using ha
    obtain ⟨phyaddr, haddr⟩ := h.ok.phyaddr_of_pend hu
    obtain rfl := h.addr u phyaddr haddr
    exact absurd ha (hnobody u ((h.ok.chained _ u).mpr ⟨_, haddr, rfl⟩))

theorem Ok.destroy (h : Ok piOnce s owner) (hphase : s.phase t = .dying ∨ s.phase t = .destroying)
    (hfair : s.phase t = .dying →
      0 < s.records t ∧ ∀ u ∈ s.vutexes.chain (vutexHash piOnce), s.phase u ≠ .alive) :
    ∃ owner', Ok piOnce (tcbDestroyExt s t) owner' := by
  unfold tcbDestroyExt
  rcases hphase with hdying | hdestroying
  · obtain ⟨hrecord, hnobody⟩ := hfair hdying
    rw [if_neg (by omega)]
    exact ⟨none, h.reset hdying hrecord hnobody⟩
  · have hdead : (s.phase t).live = false := by simp [hdestroying, Phase.live]
    have hnone : s.records t = 0 := by
      rw [h.records]
      simp [State.executions, hdead]
    rw [if_pos hnone]
    exact ⟨owner, h.rephase hdead rfl (by simp [hdestroying])⟩

theorem Ok.remove (h : Ok piOnce s owner) (hkernel : s.posting = none)
    (hdone : s.phase t = .done) : Ok piOnce (threadDelete s t) owner := by
  have hdead : (s.phase t).live = false := by simp [hdone, Phase.live]
  have hother : ∀ u, u ≠ t → (s.vutexes.threadDelete t).tcb u = s.vutexes.tcb u := by
    intro u hu
    unfold Vutexes.threadDelete
    split <;> simp [Vutexes.vutexUnQueue, hu]
  have hself : ((s.vutexes.threadDelete t).tcb t).pend = false := by
    simp [Vutexes.threadDelete]
  have hok := h.ok.threadDelete t
  have hphased : Ok piOnce { s with phase := Function.update s.phase t .gone } owner :=
    h.rephase hdead rfl (by simp [hdone])
  have hsame : ∀ u, (threadDelete s t).executions u = s.executions u := by
    intro u
    by_cases hu : u = t
    · subst hu
      simp only [State.executions, if_neg (by simp [hdead] : ¬ (s.phase u).live = true)]
      simp [threadDelete, Phase.live]
    · simp [threadDelete, State.executions, State.goto, hu]
  constructor
  case ok => exact hok
  case addr =>
    intro u a ha
    by_cases hu : u = t
    · subst hu
      have hnone := hok.waiting u
      rw [hself] at hnone
      rw [show (threadDelete s u).vutexes = s.vutexes.threadDelete u from rfl] at ha
      simp [ha] at hnone
    · exact h.addr u a (by rw [← hother u hu]; exact ha)
  case waits =>
    intro u hu
    have hne : u ≠ t := by
      rintro rfl
      exact absurd hself (by simpa [threadDelete] using hu)
    have hu : (s.vutexes.tcb u).pend = true := by
      rw [← hother u hne]
      exact hu
    simpa [threadDelete, State.goto, hne] using h.waits u hu
  case own => exact fun u => (hsame u).trans (h.own u)
  case word => exact h.word
  case records => exact fun u => (h.records u).trans (congrArg _ (hsame u).symm)
  case dying =>
    intro u hu
    obtain ⟨b, hb⟩ := hphased.dying u hu
    refine ⟨b, (hsame u).trans ?_⟩
    rw [h.own, ← hphased.own, hb]
  case posting => exact fun q hq => absurd hq (by simp [threadDelete, State.goto, hkernel])
  case story => exact h.story
  case awake =>
    intro u hu ha
    have hne : u ≠ t := by
      rintro rfl
      simp [threadDelete] at ha
    have hu : (s.vutexes.tcb u).pend = true := by
      rw [← hother u hne]
      exact hu
    exact h.awake u hu (by simpa [threadDelete, hne] using ha)

theorem Ok.call (h : Ok piOnce s owner) (halive : s.phase t = .alive)
    (hmay : mayCall (s.frames t) = true) :
    Ok piOnce (s.goto t (.load :: s.frames t)) owner := by
  have hhead : (s.frames t).head? ≠ some (.asleep .none) ∧ (s.frames t).head? ≠ some .posting := by
    cases hframes : s.frames t with
    | nil => simp
    | cons frame rest =>
      rw [hframes] at hmay
      cases frame <;> simp [mayCall] at hmay ⊢
  exact h.goto halive (h.running hhead.1) (h.outside hhead.2)
    (List.filter_cons_of_neg (by simp [Frame.executes])) h.story

theorem Ok.step (h : Ok piOnce s owner) {a : Action T} (hfair : Fair piOnce s a) {s' : State T}
    (hstep : ThreadOnce.step piOnce s a = some s') : ∃ owner', Ok piOnce s' owner' := by
  cases a with
  | call t =>
    simp only [ThreadOnce.step] at hstep
    split at hstep
    case isTrue hmay =>
      cases hstep
      exact ⟨owner, h.call hmay.1 hmay.2⟩
    case isFalse => cases hstep
  | next t =>
    simp only [ThreadOnce.step] at hstep
    split at hstep
    case h_1 frame rest halive hframes => exact h.advance halive hframes hstep
    case h_2 hphase =>
      cases hstep
      have hdead : (s.phase t).live = false := by simp [hphase, Phase.live]
      refine ⟨owner, h.rephase hdead ?_ (by simp [hphase])⟩
      split <;> rfl
    case h_3 => cases hstep
  | push t allocated =>
    simp only [ThreadOnce.step] at hstep
    split at hstep
    case h_1 rest halive hframes =>
      cases hstep
      exact ⟨_, h.cleanPush halive hframes allocated⟩
    case h_2 => cases hstep
  | enter t =>
    simp only [ThreadOnce.step] at hstep
    split at hstep
    case h_1 rest hkernel halive hframes =>
      cases hstep
      simp only [Fair, hframes] at hfair
      exact ⟨owner, h.pendEnter hkernel halive hframes hfair⟩
    case h_2 rest hkernel halive hframes =>
      cases hstep
      exact ⟨_, h.postEnter halive hframes⟩
    case h_3 hkernel hphase =>
      cases hstep
      exact ⟨owner, h.destroyEnter hkernel hphase⟩
    case h_4 => cases hstep
  | wake t =>
    simp only [ThreadOnce.step] at hstep
    split at hstep
    case h_1 iSchedRet rest halive hpend hframes =>
      cases hstep
      exact ⟨owner, h.wake halive hpend hframes⟩
    case h_2 => cases hstep
  | round =>
    obtain ⟨q, hq, rfl⟩ := Option.map_eq_some_iff.mp hstep
    exact h.round hq
  | signal t saRestart =>
    simp only [ThreadOnce.step] at hstep
    split at hstep
    case isTrue hmay =>
      cases hstep
      exact ⟨owner, h.signal (by simpa using hmay.1) hmay.2 _⟩
    case isFalse => cases hstep
  | sigReturn t =>
    simp only [ThreadOnce.step] at hstep
    split at hstep
    case h_1 ret timeout rest halive hframes =>
      cases hstep
      exact ⟨owner, h.sigReturn halive hframes⟩
    case h_2 => cases hstep
  | delete t =>
    simp only [ThreadOnce.step] at hstep
    split at hstep
    case isTrue hmay =>
      cases hstep
      exact ⟨owner, h.delete (by simpa using hmay.1) hmay.2.1 hmay.2.2⟩
    case isFalse => cases hstep
  | destroy t =>
    simp only [ThreadOnce.step] at hstep
    split at hstep
    case isTrue hphase =>
      cases hstep
      exact h.destroy hphase hfair
    case isFalse => cases hstep
  | remove t =>
    simp only [ThreadOnce.step] at hstep
    split at hstep
    case isTrue hmay =>
      cases hstep
      exact ⟨owner, h.remove (by simpa using hmay.1) hmay.2⟩
    case isFalse => cases hstep

/-- In every run whose steps meet the condition the routine runs in one thread at a time and never
again behind its end, calls return `ERROR_NONE` behind it, and nobody sleeps while no call
executes. -/
theorem once_safe (piOnce : PhysAddr) {actions : List (Action T)}
    (h : Obeys (ThreadOnce.step piOnce) (Fair piOnce) State.init actions) :
    Visits (ThreadOnce.step piOnce) State.Safe State.init actions := by
  have hvisits : Visits (ThreadOnce.step piOnce) (fun s => ∃ owner, Ok piOnce s owner)
      (State.init : State T) actions := by
    apply visits_of_obeys _ ⟨none, ok_init piOnce⟩ h
    rintro s a s' ⟨owner, hs⟩ hfair hstep
    exact hs.step hfair hstep
  exact hvisits.mono fun s ⟨owner, hs⟩ => hs.safe

/-- The thread that runs the routine is deleted while nobody sleeps, and another one runs it. -/
theorem once_safe_deleted :
    Visits (ThreadOnce.step 0x1000#64) State.Safe (State.init : State Bool)
      [.call true, .next true, .next true, .push true true, .delete true, .destroy true,
        .next true, .enter true, .round, .destroy true, .remove true, .call false, .next false,
        .next false, .push false true] :=
  once_safe 0x1000#64 (by decide)

/-- A thread that sleeps while the one that runs the routine is deleted sleeps on. -/
theorem once_asleep :
    ¬ Visits (ThreadOnce.step 0x1000#64) State.Safe (State.init : State Bool)
      [.call true, .next true, .next true, .push true true, .call false, .next false, .next false,
        .enter false, .delete true, .destroy true, .next true, .enter true, .round, .round,
        .destroy true, .remove true] := by
  intro h
  have hrun : ((run (ThreadOnce.step 0x1000#64) (State.init : State Bool)
      [.call true, .next true, .next true, .push true true, .call false, .next false, .next false,
        .enter false, .delete true, .destroy true, .next true, .enter true, .round, .round,
        .destroy true, .remove true]).map fun s =>
      (s.vutexes.chain (vutexHash 0x1000#64), s.phase false, s.executions false,
        s.executions true)) = some ([false], .alive, [], []) := by decide
  obtain ⟨s', hlast, hstate⟩ := Option.map_eq_some_iff.mp hrun
  simp only [Prod.mk.injEq] at hstate
  obtain ⟨hchain, hphase, hfalse, htrue⟩ := hstate
  obtain ⟨t, ht⟩ := (h.last hlast).awake (vutexHash 0x1000#64) false (by simp [hchain]) hphase
  cases t with
  | false => exact ht hfalse
  | true => exact ht htrue

end SylixOS.ThreadOnce
