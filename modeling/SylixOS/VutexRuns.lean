import SylixOS.Vutex

/-! Waits for variables are exact along every run in which a restarted wait has
time left and no handler waits in front of a wait that has been ended. -/

namespace SylixOS.Vutex
open EventWait (SchedRet Context sigTimeoutRecalc)
open StepRuns VutexLib

variable {T : Type*} [DecidableEq T] {s : State T} {t : T}

def Seen (value : PhysAddr → BitVec 32) (log : List (PhysAddr × BitVec 32)) (c : Call) : Prop :=
  (c.phyaddr, value c.phyaddr) ∈ log.drop c.start

def Ended (log : List (PhysAddr × BitVec 32)) (c : Call) (bWakeAll : Bool) (iSchedRet : SchedRet)
    (timeout : Bool) (hit : Option Bool) : Prop :=
  if iSchedRet = .none ∧ timeout = false then
    hit = some bWakeAll ∧ (bWakeAll = false → Held c (log.drop c.start))
  else hit = none

def FrameOk (value : PhysAddr → BitVec 32) (log : List (PhysAddr × BitVec 32)) (tcb : Tcb) :
    Frame → Prop
  | .again c _ => tcb.pend = false ∧ Seen value log c
  | .enter c _ => tcb.pend = false ∧ Seen value log c
  | .asleep c _ iSchedRet hit =>
    Seen value log c ∧
      if tcb.pend then
        tcb.vutex.phyaddr = some c.phyaddr ∧ tcb.vutex.iCompare = c.iCompare ∧
          tcb.vutex.iDesired = c.iDesired ∧ iSchedRet = .none ∧ hit = none
      else Ended log c tcb.vutex.bWakeAll iSchedRet tcb.timeout hit
  | _ => tcb.pend = false

def SavedOk (value : PhysAddr → BitVec 32) (log : List (PhysAddr × BitVec 32)) (bWakeAll : Bool)
    (ctx : Context Frame) : Prop :=
  match ctx.frame with
  | .again c _ => Seen value log c
  | .enter c _ => Seen value log c
  | .asleep c _ iSchedRet hit =>
    Seen value log c ∧ Ended log c bWakeAll (iSchedRet.set ctx.ret) ctx.timeout hit
  | _ => True

theorem Seen.start_le {value : PhysAddr → BitVec 32} {log : List (PhysAddr × BitVec 32)} {c : Call}
    (h : Seen value log c) : c.start ≤ log.length := by
  unfold Seen at h
  by_contra hlong
  rw [List.drop_eq_nil_of_le (by omega)] at h
  cases h

theorem Seen.log {value value' : PhysAddr → BitVec 32} {log : List (PhysAddr × BitVec 32)}
    {c : Call} (h : Seen value log c) {e : PhysAddr × BitVec 32}
    (hvalue : ∀ a, value' a = value a ∨ (a, value' a) = e) : Seen value' (log ++ [e]) c := by
  have hstart := h.start_le
  unfold Seen at *
  rw [List.drop_append_of_le_length hstart]
  rcases hvalue c.phyaddr with hsame | hposted
  · rw [hsame]
    exact List.mem_append_left _ h
  · rw [hposted]
    exact List.mem_append_right _ (by simp)

theorem Held.log {log : List (PhysAddr × BitVec 32)} {c : Call} (h : Held c (log.drop c.start))
    (e : PhysAddr × BitVec 32) : Held c ((log ++ [e]).drop c.start) := by
  obtain ⟨iValue, hmem, hmatch⟩ := h
  refine ⟨iValue, ?_, hmatch⟩
  rw [List.drop_append]
  exact List.mem_append_left _ hmem

theorem Ended.log {log : List (PhysAddr × BitVec 32)} {c : Call} {bWakeAll timeout : Bool}
    {iSchedRet : SchedRet} {hit : Option Bool} (h : Ended log c bWakeAll iSchedRet timeout hit)
    (e : PhysAddr × BitVec 32) : Ended (log ++ [e]) c bWakeAll iSchedRet timeout hit := by
  unfold Ended at *
  split at h
  case isTrue hret =>
    rw [if_pos hret]
    exact ⟨h.1, fun hmatch => (h.2 hmatch).log e⟩
  case isFalse hret =>
    rw [if_neg hret]
    exact h

theorem FrameOk.log {value value' : PhysAddr → BitVec 32} {log : List (PhysAddr × BitVec 32)}
    {tcb : Tcb} {frame : Frame} (h : FrameOk value log tcb frame) {e : PhysAddr × BitVec 32}
    (hvalue : ∀ a, value' a = value a ∨ (a, value' a) = e) :
    FrameOk value' (log ++ [e]) tcb frame := by
  cases frame with
  | again c ulTimeout => exact ⟨h.1, h.2.log hvalue⟩
  | enter c ulTimeout => exact ⟨h.1, h.2.log hvalue⟩
  | asleep c ulTimeout iSchedRet hit =>
    refine ⟨h.1.log hvalue, ?_⟩
    have hwait := h.2
    split
    case isTrue hpend => simpa [hpend] using hwait
    case isFalse hpend =>
      rw [if_neg hpend] at hwait
      exact hwait.log e
  | idle => exact h
  | postTest p => exact h
  | postEnter p => exact h
  | posting => exact h

theorem SavedOk.log {value value' : PhysAddr → BitVec 32} {log : List (PhysAddr × BitVec 32)}
    {bWakeAll : Bool} {ctx : Context Frame} (h : SavedOk value log bWakeAll ctx)
    {e : PhysAddr × BitVec 32} (hvalue : ∀ a, value' a = value a ∨ (a, value' a) = e) :
    SavedOk value' (log ++ [e]) bWakeAll ctx := by
  unfold SavedOk at *
  split at h
  · exact h.log hvalue
  · exact h.log hvalue
  · exact ⟨h.1.log hvalue, h.2.log e⟩
  · trivial

theorem SavedOk.wakeAll {value : PhysAddr → BitVec 32} {log : List (PhysAddr × BitVec 32)}
    {bWakeAll : Bool} {ctx : Context Frame} (h : SavedOk value log bWakeAll ctx)
    (hctx : ¬ woken ctx) (bWakeAll' : Bool) : SavedOk value log bWakeAll' ctx := by
  unfold SavedOk woken at *
  split at h
  · exact h
  · exact h
  case h_3 c ulTimeout iSchedRet hit hframe =>
    rw [hframe] at hctx
    obtain ⟨hseen, hended⟩ := h
    unfold Ended at *
    rw [if_neg hctx] at hended ⊢
    exact ⟨hseen, hended⟩
  · trivial

structure Ok (s : State T) : Prop where
  ok : s.vutexes.Ok
  frame : ∀ t, FrameOk s.value s.log (s.vutexes.tcb t) (s.frame t)
  saved : ∀ t, ∀ ctx ∈ s.saved t, SavedOk s.value s.log (s.vutexes.tcb t).vutex.bWakeAll ctx
  /-- nobody waits in front of a wait that has been ended -/
  nested : ∀ t, (s.vutexes.tcb t).pend = true → ∀ ctx ∈ s.saved t, ¬ woken ctx
  /-- a post has passed only threads that it does not wake -/
  walk : ∀ q, s.posting = some q → ∃ passed ahead,
    s.vutexes.Walk (vutexHash q.call.phyaddr) passed ahead ∧
      ∀ t ∈ passed, ¬ s.vutexes.Hit t q.call.phyaddr q.call.iValue q.call.wakeAll
  count : ∀ q, s.posting = some q → q.iWakeCnt = q.ended
  poster : ∀ q, s.posting = some q → s.frame q.thread = .posting
  posted : ∀ q, s.posting = some q → q.call.dontSet = false →
    s.value q.call.phyaddr = q.call.iValue
  /-- whoever waits for the variable of a post has seen the posted value -/
  logged : ∀ q, s.posting = some q → ∀ t c ulTimeout iSchedRet hit,
    s.frame t = .asleep c ulTimeout iSchedRet hit → (s.vutexes.tcb t).pend = true →
    c.phyaddr = q.call.phyaddr → (c.phyaddr, q.call.iValue) ∈ s.log.drop c.start
  /-- the condition of a waiting thread does not hold, unless a post has just made it hold -/
  calm : ∀ t phyaddr, (s.vutexes.tcb t).vutex.phyaddr = some phyaddr →
    (∀ q, s.posting = some q → q.call.dontSet = false → q.call.phyaddr ≠ phyaddr) →
    (s.vutexes.tcb t).matches (s.value phyaddr) = false
  returns : ∀ r ∈ s.returns, r.Exact
  posts : ∀ p ∈ s.posts, p.iWakeCnt = p.ended

omit [DecidableEq T] in
theorem ok_init (value : PhysAddr → BitVec 32) : Ok (State.init value : State T) := by
  constructor
  case ok => exact ok_empty
  case frame => exact fun t => rfl
  case saved => exact fun t ctx hctx => nomatch hctx
  case nested => exact fun t _ ctx hctx => nomatch hctx
  case walk => exact fun q hq => nomatch hq
  case count => exact fun q hq => nomatch hq
  case poster => exact fun q hq => nomatch hq
  case posted => exact fun q hq => nomatch hq
  case logged => exact fun q hq => nomatch hq
  case calm => exact fun t a ha => nomatch ha
  case returns => exact fun r hr => nomatch hr
  case posts => exact fun p hp => nomatch hp

omit [DecidableEq T] in
theorem Ok.exact (h : Ok s) : s.Exact := by
  constructor
  case asleep =>
    intro k t ht phyaddr ha hmatch
    by_cases hcause : ∀ q, s.posting = some q → q.call.dontSet = false → q.call.phyaddr ≠ phyaddr
    · rw [h.calm t phyaddr ha hcause] at hmatch
      cases hmatch
    · push Not at hcause
      obtain ⟨q, hq, hset, rfl⟩ := hcause
      obtain ⟨passed, ahead, hw, hpassed⟩ := h.walk q hq
      refine ⟨q, passed, ahead, hq, rfl, hset, hw, ?_⟩
      have hin : t ∈ s.vutexes.chain (vutexHash q.call.phyaddr) :=
        (h.ok.chained _ t).mpr ⟨_, ha, rfl⟩
      rw [hw.split, List.mem_append] at hin
      refine hin.resolve_left fun hbehind => hpassed t hbehind ⟨ha, Or.inr ?_⟩
      rwa [h.posted q hq hset] at hmatch
  case returns => exact h.returns
  case posts => exact h.posts

def Outside (s : State T) (t : T) : Prop := ∀ q, s.posting = some q → q.thread ≠ t

omit [DecidableEq T] in
theorem Ok.outside (h : Ok s) (hframe : s.frame t ≠ .posting) : Outside s t := by
  rintro q hq rfl
  exact hframe (h.poster q hq)

theorem Ok.move (h : Ok s) (hpend : (s.vutexes.tcb t).pend = false) {frame : Frame}
    (hold : Outside s t)
    (hself : FrameOk s.value s.log (s.vutexes.tcb t) frame) : Ok (s.move t frame) := by
  constructor
  case ok => exact h.ok
  case frame =>
    intro u
    by_cases hu : u = t
    · subst hu
      simpa [State.move] using hself
    · simpa [State.move, hu] using h.frame u
  case saved => exact h.saved
  case nested => exact h.nested
  case walk => exact h.walk
  case count => exact h.count
  case poster =>
    intro q hq
    simpa [State.move, hold q hq] using h.poster q hq
  case posted => exact h.posted
  case logged =>
    intro q hq u c ulTimeout iSchedRet hit hf hu
    have hne : u ≠ t := by
      rintro rfl
      rw [show (s.move u frame).vutexes = s.vutexes from rfl, hpend] at hu
      cases hu
    exact h.logged q hq u c ulTimeout iSchedRet hit (by simpa [State.move, hne] using hf) hu
  case calm => exact h.calm
  case returns => exact h.returns
  case posts => exact h.posts

theorem Ok.ret (h : Ok s) (hpend : (s.vutexes.tcb t).pend = false)
    (hold : Outside s t) {c : Call} {result : Result} {hit : Option Bool}
    (hexact : (⟨t, c, result, hit, s.log.drop c.start⟩ : Return T).Exact) :
    Ok (s.ret t c result hit) := by
  have hidle : FrameOk s.value s.log (s.vutexes.tcb t) .idle := hpend
  have hmoved := h.move hpend hold hidle
  exact { hmoved with
    returns := by
      intro r hr
      rcases List.mem_append.mp hr with hr | hr
      · exact h.returns r hr
      · rw [List.mem_singleton.mp hr]
        exact hexact }

theorem Ok.postRet (h : Ok s) (hpend : (s.vutexes.tcb t).pend = false)
    (hold : Outside s t) (p : PostCall) {iWakeCnt ended : ℕ} (hcount : iWakeCnt = ended) :
    Ok (s.postRet t p iWakeCnt ended) := by
  have hidle : FrameOk s.value s.log (s.vutexes.tcb t) .idle := hpend
  have hmoved := h.move hpend hold hidle
  exact { hmoved with
    posts := by
      intro r hr
      rcases List.mem_append.mp hr with hr | hr
      · exact h.posts r hr
      · rw [List.mem_singleton.mp hr]
        exact hcount }

theorem Ok.pend (h : Ok s) (hframe : s.frame t = .idle) (phyaddr : PhysAddr) (iCompare : Compare)
    (iDesired : BitVec 32) (ulTimeout : Option ℕ) :
    Ok (vutexPend s t phyaddr iCompare iDesired ulTimeout) := by
  have hpend : (s.vutexes.tcb t).pend = false := by
    have hself := h.frame t
    rw [hframe] at hself
    exact hself
  have hsame : ∀ a, s.value a = s.value a ∨ (a, s.value a) = (phyaddr, s.value phyaddr) :=
    fun _ => Or.inl rfl
  have hlogged : Ok { s with log := s.log ++ [(phyaddr, s.value phyaddr)] } := by
    constructor
    case ok => exact h.ok
    case frame => exact fun u => (h.frame u).log hsame
    case saved => exact fun u ctx hctx => (h.saved u ctx hctx).log hsame
    case nested => exact h.nested
    case walk => exact h.walk
    case count => exact h.count
    case poster => exact h.poster
    case posted => exact h.posted
    case logged =>
      intro q hq u c n r hit hf hu ha
      dsimp only
      rw [List.drop_append]
      exact List.mem_append_left _ (h.logged q hq u c n r hit hf hu ha)
    case calm => exact h.calm
    case returns => exact h.returns
    case posts => exact h.posts
  exact hlogged.move hpend (hlogged.outside (by simp [hframe])) ⟨hpend, by simp [Seen]⟩

theorem held_of_seen {value : PhysAddr → BitVec 32} {log : List (PhysAddr × BitVec 32)} {c : Call}
    (h : Seen value log c) (hmatch : c.matches (value c.phyaddr) = true) :
    Held c (log.drop c.start) :=
  ⟨_, h, hmatch⟩

theorem Ok.pendTest (h : Ok s) {c : Call} {ulTimeout : Option ℕ}
    (hframe : s.frame t = .again c ulTimeout) : Ok (pendTest s t c ulTimeout) := by
  have hself := h.frame t
  rw [hframe] at hself
  obtain ⟨hpend, hseen⟩ := hself
  have hold := h.outside (t := t) (by simp [hframe])
  unfold Vutex.pendTest
  split
  case isTrue hmatch => exact h.ret hpend hold (held_of_seen hseen hmatch)
  case isFalse =>
    split
    case isTrue => exact h.ret hpend hold rfl
    case isFalse => exact h.move hpend hold ⟨hpend, hseen⟩

theorem Ok.pendEnter (h : Ok s) (hkernel : s.posting = none) {c : Call} {ulTimeout : Option ℕ}
    (hframe : s.frame t = .enter c ulTimeout)
    (hfair : c.matches (s.value c.phyaddr) = true ∨ ∀ ctx ∈ s.saved t, ¬ woken ctx) :
    Ok (pendEnter s t c ulTimeout) := by
  have hself := h.frame t
  rw [hframe] at hself
  obtain ⟨hpend, hseen⟩ := hself
  unfold Vutex.pendEnter
  split
  case isTrue hmatch => exact h.ret hpend (h.outside (by simp [hframe])) (held_of_seen hseen hmatch)
  case isFalse hmatch =>
    have hmatch : c.matches (s.value c.phyaddr) = false := by simpa using hmatch
    have hnested := hfair.resolve_left (by simp [hmatch])
    constructor
    case ok => exact h.ok.vutexWaitQueue hpend _ _ _ _
    case frame =>
      intro u
      by_cases hu : u = t
      · subst hu
        simpa [State.move, Vutexes.vutexWaitQueue, FrameOk] using hseen
      · simpa [State.move, Vutexes.vutexWaitQueue, hu] using h.frame u
    case saved =>
      intro u ctx hctx
      by_cases hu : u = t
      · subst hu
        exact (h.saved u ctx hctx).wakeAll (hnested ctx hctx) _
      · simpa [State.move, Vutexes.vutexWaitQueue, hu] using h.saved u ctx hctx
    case nested =>
      intro u hu ctx hctx
      by_cases hut : u = t
      · subst hut
        exact hnested ctx hctx
      · exact h.nested u (by simpa [State.move, Vutexes.vutexWaitQueue, hut] using hu) ctx hctx
    case walk => exact fun q hq => absurd (hkernel.symm.trans hq) (by simp)
    case count => exact fun q hq => absurd (hkernel.symm.trans hq) (by simp)
    case poster => exact fun q hq => absurd (hkernel.symm.trans hq) (by simp)
    case posted => exact fun q hq => absurd (hkernel.symm.trans hq) (by simp)
    case logged => exact fun q hq => absurd (hkernel.symm.trans hq) (by simp)
    case calm =>
      intro u a ha hcause
      by_cases hu : u = t
      · subst hu
        simp only [Vutexes.vutexWaitQueue, Function.update_self, Option.some.injEq] at ha
        subst ha
        simpa [State.move, Vutexes.vutexWaitQueue, Tcb.matches, Call.matches] using hmatch
      · simp only [Vutexes.vutexWaitQueue, Function.update_of_ne hu] at ha ⊢
        exact h.calm u a ha hcause
    case returns => exact h.returns
    case posts => exact h.posts

theorem Ok.pendWake (h : Ok s) (hpend : (s.vutexes.tcb t).pend = false) {c : Call}
    {ulTimeout : Option ℕ} {iSchedRet : SchedRet} {hit : Option Bool}
    (hframe : s.frame t = .asleep c ulTimeout iSchedRet hit) {elapsed : ℕ}
    (hfair : iSchedRet = .restart → sigTimeoutRecalc elapsed ulTimeout ≠ some 0) :
    Ok (pendWake s t c ulTimeout iSchedRet hit elapsed) := by
  have hself := h.frame t
  rw [hframe] at hself
  obtain ⟨hseen, hended⟩ := hself
  rw [if_neg (by simp [hpend])] at hended
  have hold := h.outside (t := t) (by simp [hframe])
  unfold Vutex.pendWake
  cases iSchedRet with
  | eintr =>
    rw [Ended, if_neg (by simp)] at hended
    exact h.ret hpend hold hended
  | restart =>
    have hleft := hfair rfl
    simp only [if_pos hleft]
    exact h.move hpend hold ⟨hpend, hseen⟩
  | none =>
    dsimp only
    split
    case isTrue htimeout =>
      rw [Ended, if_neg (by simp [htimeout])] at hended
      exact h.ret hpend hold hended
    case isFalse htimeout =>
      rw [Ended, if_pos ⟨rfl, by simpa using htimeout⟩] at hended
      obtain ⟨rfl, hheld⟩ := hended
      apply h.ret hpend hold
      cases hall : (s.vutexes.tcb t).vutex.bWakeAll with
      | true => simp [Return.Exact, State.wakeIsAll, hall]
      | false => simpa [Return.Exact, State.wakeIsAll, hall] using hheld hall

theorem Ok.postTest (h : Ok s) {p : PostCall} (hframe : s.frame t = .postTest p) :
    Ok (postTest s t p) := by
  have hpend : (s.vutexes.tcb t).pend = false := by
    have hself := h.frame t
    rwa [hframe] at hself
  unfold Vutex.postTest
  split
  · exact h.postRet hpend (h.outside (by simp [hframe])) p rfl
  · exact h.move hpend (h.outside (by simp [hframe])) hpend

theorem Ok.postEnter (h : Ok s) (hkernel : s.posting = none) {p : PostCall}
    (hframe : s.frame t = .postEnter p) : Ok (postEnter s t p) := by
  have hpend : (s.vutexes.tcb t).pend = false := by
    have hself := h.frame t
    rwa [hframe] at hself
  have hcalm : ∀ u a, (s.vutexes.tcb u).vutex.phyaddr = some a →
      (s.vutexes.tcb u).matches (s.value a) = false := fun u a ha =>
    h.calm u a ha fun q hq => absurd (hkernel.symm.trans hq) (by simp)
  unfold Vutex.postEnter
  split
  case isTrue => exact h.postRet hpend (h.outside (by simp [hframe])) p rfl
  case isFalse =>
    have hvalue : ∀ a, (if p.dontSet then s.value
          else Function.update s.value p.phyaddr p.iValue) a = s.value a ∨
        (a, (if p.dontSet then s.value
          else Function.update s.value p.phyaddr p.iValue) a) = (p.phyaddr, p.iValue) := by
      intro a
      by_cases hset : p.dontSet = true
      · simp [hset]
      · by_cases ha : a = p.phyaddr <;> simp [hset, ha]
    obtain ⟨hok, hwalk⟩ := h.ok.wakeFirst p.phyaddr
    constructor
    case ok => exact hok
    case frame =>
      intro u
      by_cases hu : u = t
      · subst hu
        simpa [State.move, FrameOk, Vutexes.wakeFirst] using hpend
      · have hother := (h.frame u).log hvalue
        simpa [State.move, Vutexes.wakeFirst, hu] using hother
    case saved => exact fun u ctx hctx => (h.saved u ctx hctx).log hvalue
    case nested => exact h.nested
    case walk =>
      intro q hq
      obtain rfl := Option.some.inj hq
      exact ⟨[], s.vutexes.chain (vutexHash p.phyaddr), hwalk, fun u hu => nomatch hu⟩
    case count =>
      intro q hq
      obtain rfl := Option.some.inj hq
      rfl
    case poster =>
      intro q hq
      obtain rfl := Option.some.inj hq
      simp [State.move]
    case posted =>
      intro q hq hset
      obtain rfl := Option.some.inj hq
      have hset : p.dontSet = false := hset
      simp [hset]
    case logged =>
      intro q hq u c n r hit hf hu ha
      obtain rfl := Option.some.inj hq
      have ha : c.phyaddr = p.phyaddr := ha
      have hne : u ≠ t := by
        rintro rfl
        simp [State.move] at hf
      have hother := h.frame u
      rw [show s.frame u = .asleep c n r hit by simpa [State.move, hne] using hf] at hother
      dsimp only
      rw [List.drop_append_of_le_length hother.1.start_le, ha]
      exact List.mem_append_right _ (by simp)
    case calm =>
      intro u a ha hcause
      have hbefore := hcalm u a ha
      by_cases hset : p.dontSet = true
      · simpa [State.move, Vutexes.wakeFirst, hset] using hbefore
      · have hne : a ≠ p.phyaddr := Ne.symm (hcause ⟨t, p, 0, 0⟩ rfl (by simpa using hset))
        simpa [State.move, Vutexes.wakeFirst, hset, hne] using hbefore
    case returns => exact h.returns
    case posts => exact h.posts

omit [DecidableEq T] in
theorem Ok.pass (h : Ok s) {q : Posting T} (hq : s.posting = some q) {passed rest : List T}
    {vutexes : Vutexes T} (hok : vutexes.Ok)
    (hw : vutexes.Walk (vutexHash q.call.phyaddr) passed rest)
    (hpassed : ∀ u ∈ passed, ¬ s.vutexes.Hit u q.call.phyaddr q.call.iValue q.call.wakeAll)
    (htcb : vutexes.tcb = s.vutexes.tcb) : Ok { s with vutexes := vutexes } := by
  have hhit : ∀ u a v w, vutexes.Hit u a v w ↔ s.vutexes.Hit u a v w := by
    simp [Vutexes.Hit, htcb]
  constructor
  case ok => exact hok
  case frame =>
    rw [htcb]
    exact h.frame
  case saved =>
    rw [htcb]
    exact h.saved
  case nested =>
    rw [htcb]
    exact h.nested
  case walk =>
    intro r hr
    obtain rfl : q = r := Option.some.inj (hq.symm.trans hr)
    exact ⟨passed, rest, hw, fun u hu => by rw [hhit]; exact hpassed u hu⟩
  case count => exact h.count
  case poster => exact h.poster
  case posted => exact h.posted
  case logged =>
    rw [htcb]
    exact h.logged
  case calm =>
    rw [htcb]
    exact h.calm
  case returns => exact h.returns
  case posts => exact h.posts

omit [DecidableEq T] in
theorem Ok.waiting (h : Ok s) (hpend : (s.vutexes.tcb t).pend = true) :
    ∃ c ulTimeout, s.frame t = .asleep c ulTimeout .none none ∧ Seen s.value s.log c ∧
      (s.vutexes.tcb t).vutex.phyaddr = some c.phyaddr ∧
      (s.vutexes.tcb t).vutex.iCompare = c.iCompare ∧
      (s.vutexes.tcb t).vutex.iDesired = c.iDesired := by
  have hself := h.frame t
  cases hf : s.frame t with
  | asleep c n r hit =>
    rw [hf] at hself
    obtain ⟨hseen, hwait⟩ := hself
    rw [if_pos hpend] at hwait
    obtain ⟨ha, hcompare, hdesired, rfl, rfl⟩ := hwait
    exact ⟨c, n, rfl, hseen, ha, hcompare, hdesired⟩
  | idle => simp [hf, FrameOk, hpend] at hself
  | again c n => simp [hf, FrameOk, hpend] at hself
  | enter c n => simp [hf, FrameOk, hpend] at hself
  | postTest p => simp [hf, FrameOk, hpend] at hself
  | postEnter p => simp [hf, FrameOk, hpend] at hself
  | posting => simp [hf, FrameOk, hpend] at hself

theorem Ok.hit (h : Ok s) {q : Posting T} (hq : s.posting = some q) {passed rest : List T}
    {vutexes : Vutexes T} (hok : vutexes.Ok)
    (hw : vutexes.Walk (vutexHash q.call.phyaddr) passed rest)
    (hpassed : ∀ u ∈ passed, ¬ s.vutexes.Hit u q.call.phyaddr q.call.iValue q.call.wakeAll)
    (hpend : (s.vutexes.tcb t).pend = true) (hout : t ∉ passed)
    (hhit : s.vutexes.Hit t q.call.phyaddr q.call.iValue q.call.wakeAll)
    (htcb : vutexes.tcb = Function.update s.vutexes.tcb t
      ⟨false, false, false,
        { (s.vutexes.tcb t).vutex with phyaddr := none, bWakeAll := q.call.wakeAll }⟩) :
    Ok { s.move t ((s.frame t).endWait q.call.wakeAll).1 with
      vutexes := vutexes
      posting := some { q with
        iWakeCnt := q.iWakeCnt + 1
        ended := q.ended + ((s.frame t).endWait q.call.wakeAll).2 } } := by
  obtain ⟨c, ulTimeout, hframe, hseen, ha, hcompare, hdesired⟩ := h.waiting hpend
  obtain ⟨haddr, hcond⟩ := hhit
  have hcq : c.phyaddr = q.call.phyaddr := Option.some.inj (ha.symm.trans haddr)
  rw [hframe]
  dsimp only [Frame.endWait]
  constructor
  case ok => exact hok
  case frame =>
    intro u
    dsimp only [State.move]
    rw [htcb]
    by_cases hu : u = t
    · subst hu
      have hheld : q.call.wakeAll = false → Held c (s.log.drop c.start) := by
        intro hall
        refine ⟨q.call.iValue, h.logged q hq u c ulTimeout .none none hframe hpend hcq, ?_⟩
        rw [hall] at hcond
        simpa [Call.matches, Tcb.matches, hcompare, hdesired] using hcond
      simp only [Function.update_self]
      refine ⟨hseen, ?_⟩
      rw [if_neg (by simp), Ended, if_pos ⟨rfl, rfl⟩]
      exact ⟨rfl, hheld⟩
    · simpa [hu] using h.frame u
  case saved =>
    intro u ctx hctx
    dsimp only [State.move]
    rw [htcb]
    by_cases hu : u = t
    · subst hu
      exact (h.saved u ctx hctx).wakeAll (h.nested u hpend ctx hctx) _
    · simpa [hu] using h.saved u ctx hctx
  case nested =>
    intro u hu ctx hctx
    dsimp only at hu
    rw [htcb] at hu
    by_cases hut : u = t
    · simp [hut] at hu
    · exact h.nested u (by simpa [hut] using hu) ctx hctx
  case walk =>
    intro r hr
    obtain rfl := Option.some.inj hr
    refine ⟨passed, rest, hw, fun u hu => ?_⟩
    have hne : u ≠ t := ne_of_mem_of_not_mem hu hout
    simpa [Vutexes.Hit, htcb, hne] using hpassed u hu
  case count =>
    intro r hr
    obtain rfl := Option.some.inj hr
    rw [h.count q hq]
  case poster =>
    intro r hr
    obtain rfl := Option.some.inj hr
    have hposter := h.poster q hq
    have hne : q.thread ≠ t := by
      rintro he
      rw [he, hframe] at hposter
      cases hposter
    simpa [State.move, hne] using hposter
  case posted =>
    intro r hr
    obtain rfl := Option.some.inj hr
    exact h.posted q hq
  case logged =>
    intro r hr u c' n r' hit hf hu
    obtain rfl := Option.some.inj hr
    dsimp only at hu
    rw [htcb] at hu
    by_cases hut : u = t
    · simp [hut] at hu
    · exact h.logged q hq u c' n r' hit (by simpa [State.move, hut] using hf)
        (by simpa [hut] using hu)
  case calm =>
    intro u a hu hcause
    dsimp only [State.move] at hu ⊢
    rw [htcb] at hu ⊢
    by_cases hut : u = t
    · simp [hut] at hu
    · simp only [Function.update_of_ne hut] at hu ⊢
      apply h.calm u a hu
      intro r hr
      obtain rfl : q = r := Option.some.inj (hq.symm.trans hr)
      exact hcause { q with iWakeCnt := q.iWakeCnt + 1, ended := q.ended + 1 } rfl
  case returns => exact h.returns
  case posts => exact h.posts

theorem Ok.finish (h : Ok s) {q : Posting T} (hq : s.posting = some q)
    (hop : s.vutexes.op = none) :
    Ok ({ s with posting := none }.postRet q.thread q.call q.iWakeCnt q.ended) := by
  obtain ⟨passed, ahead, hw, hpassed⟩ := h.walk q hq
  have hnil : ahead = [] := by
    rw [← List.head?_eq_none_iff, ← hw.op, hop]
  have hleft : Ok { s with posting := none } := by
    constructor
    case ok => exact h.ok
    case frame => exact h.frame
    case saved => exact h.saved
    case nested => exact h.nested
    case walk => exact fun r hr => nomatch hr
    case count => exact fun r hr => nomatch hr
    case poster => exact fun r hr => nomatch hr
    case posted => exact fun r hr => nomatch hr
    case logged => exact fun r hr => nomatch hr
    case calm =>
      intro u a ha _
      by_cases hmine : q.call.dontSet = false ∧ q.call.phyaddr = a
      · obtain ⟨hset, rfl⟩ := hmine
        have hin : u ∈ s.vutexes.chain (vutexHash q.call.phyaddr) :=
          (h.ok.chained _ u).mpr ⟨_, ha, rfl⟩
        rw [hw.split, hnil, List.append_nil] at hin
        have hmiss := hpassed u hin
        dsimp only
        rw [h.posted q hq hset]
        by_contra hmatch
        exact hmiss ⟨ha, Or.inr (by simpa using hmatch)⟩
      · apply h.calm u a ha
        intro r hr hset
        obtain rfl : q = r := Option.some.inj (hq.symm.trans hr)
        exact fun he => hmine ⟨hset, he⟩
    case returns => exact h.returns
    case posts => exact h.posts
  have hframe := h.poster q hq
  have hpend : (s.vutexes.tcb q.thread).pend = false := by
    have hself := h.frame q.thread
    rwa [hframe] at hself
  exact hleft.postRet hpend (fun r hr => nomatch hr) q.call (h.count q hq)

theorem Ok.round (h : Ok s) {q : Posting T} (hq : s.posting = some q) : Ok (postRound s q) := by
  obtain ⟨passed, ahead, hw, hpassed⟩ := h.walk q hq
  unfold postRound
  split
  case h_1 hop => exact h.finish hq hop
  case h_2 t hop =>
    cases ahead with
    | nil =>
      rw [hw.op] at hop
      cases hop
    | cons u rest =>
      obtain rfl : u = t := by
        rw [hw.op] at hop
        exact Option.some.inj hop
      have hin : u ∈ s.vutexes.chain (vutexHash q.call.phyaddr) := by simp [hw.split]
      obtain ⟨-, -, hdisjoint⟩ := h.ok.walk_nodup hw
      have hout : u ∉ passed := fun hu => hdisjoint u hu (by simp)
      rcases h.ok.wakeRound hw q.call.iValue q.call.wakeAll with
        ⟨hhit, vutexes, hr, hok, hw', htcb, -⟩ | ⟨hmiss, vutexes, hr, hok, hw', htcb, -⟩
      · rw [hr]
        exact h.hit hq hok hw' hpassed (h.ok.pend_of_mem hin) hout hhit htcb
      · rw [hr]
        apply h.pass hq hok hw' _ htcb
        intro v hv
        rcases List.mem_append.mp hv with hv | hv
        · exact hpassed v hv
        · rwa [List.mem_singleton.mp hv]

theorem Ok.leave (h : Ok s) (hpend : (s.vutexes.tcb t).pend = true) :
    Ok { s with vutexes := s.vutexes.leave t } := by
  obtain ⟨c, ulTimeout, hframe, hseen, ha, hcompare, hdesired⟩ := h.waiting hpend
  have hother : ∀ u, u ≠ t → (s.vutexes.leave t).tcb u = s.vutexes.tcb u := by
    intro u hu
    simp [Vutexes.leave, hu]
  have hself : (s.vutexes.leave t).tcb t = ⟨false, false, true,
      { (s.vutexes.tcb t).vutex with phyaddr := none, uiHash := 0 }⟩ := by
    simp [Vutexes.leave]
  constructor
  case ok => exact h.ok.leave hpend
  case frame =>
    intro u
    by_cases hu : u = t
    · subst hu
      simp [hframe, FrameOk, hself, hseen, Ended]
    · simpa [hother u hu] using h.frame u
  case saved =>
    intro u ctx hctx
    by_cases hu : u = t
    · subst hu
      simpa [hself] using h.saved u ctx hctx
    · simpa [hother u hu] using h.saved u ctx hctx
  case nested =>
    intro u hu ctx hctx
    by_cases hut : u = t
    · simp [hut, hself] at hu
    · exact h.nested u (by simpa [hother u hut] using hu) ctx hctx
  case walk =>
    intro q hq
    obtain ⟨passed, ahead, hw, hpassed⟩ := h.walk q hq
    refine ⟨passed.erase t, ahead.erase t, hw.leave h.ok hpend, fun u hu => ?_⟩
    by_cases hut : u = t
    · simp [Vutexes.Hit, hut, hself]
    · simpa [Vutexes.Hit, hother u hut] using hpassed u (List.mem_of_mem_erase hu)
  case count => exact h.count
  case poster => exact h.poster
  case posted => exact h.posted
  case logged =>
    intro q hq u c n r hit hf hu
    by_cases hut : u = t
    · simp [hut, hself] at hu
    · exact h.logged q hq u c n r hit hf (by simpa [hother u hut] using hu)
  case calm =>
    intro u a hu hcause
    by_cases hut : u = t
    · simp [hut, hself] at hu
    · simp only [hother u hut] at hu ⊢
      exact h.calm u a hu hcause
  case returns => exact h.returns
  case posts => exact h.posts

theorem Ok.interrupt (h : Ok s) (hpend : (s.vutexes.tcb t).pend = false)
    (hkernel : s.posting = none) {ctx : Context Frame}
    (hctx : SavedOk s.value s.log (s.vutexes.tcb t).vutex.bWakeAll ctx) :
    Ok { s.move t .idle with saved := Function.update s.saved t (ctx :: s.saved t) } := by
  have hold : Outside s t := fun q hq => absurd (hkernel.symm.trans hq) (by simp)
  have hidle : FrameOk s.value s.log (s.vutexes.tcb t) .idle := hpend
  have hmoved := h.move hpend hold hidle
  exact { hmoved with
    saved := by
      intro u ctx' hctx'
      by_cases hu : u = t
      · subst hu
        simp only [Function.update_self, List.mem_cons] at hctx'
        rcases hctx' with rfl | hctx'
        · exact hctx
        · exact h.saved u ctx' hctx'
      · exact h.saved u ctx' (by simpa [hu] using hctx')
    nested := by
      intro u hu ctx' hctx'
      by_cases hut : u = t
      · subst hut
        rw [show (s.move u .idle).vutexes = s.vutexes from rfl, hpend] at hu
        cases hu
      · exact h.nested u hu ctx' (by simpa [hut] using hctx') }

theorem savedOk_of_frame {value : PhysAddr → BitVec 32} {log : List (PhysAddr × BitVec 32)}
    {tcb : Tcb} {frame : Frame} (h : FrameOk value log tcb frame) (hpend : tcb.pend = false) :
    SavedOk value log tcb.vutex.bWakeAll ⟨frame, .none, tcb.timeout⟩ := by
  cases frame with
  | again c n => exact h.2
  | enter c n => exact h.2
  | asleep c n r hit =>
    obtain ⟨hseen, hwait⟩ := h
    rw [if_neg (by simp [hpend])] at hwait
    refine ⟨hseen, ?_⟩
    cases r <;> exact hwait
  | idle => trivial
  | postTest p => trivial
  | postEnter p => trivial
  | posting => trivial

theorem Ok.signal (h : Ok s) (hkernel : s.posting = none) (t : T) (saType : SchedRet) :
    Ok (signalThread s t saType) := by
  unfold signalThread
  rcases h.ok.sigMakeReady t saType with ⟨hpend, hr⟩ | ⟨hpend, hr⟩
  · rw [hr]
    exact h.interrupt hpend hkernel (savedOk_of_frame (h.frame t) hpend)
  · rw [hr]
    obtain ⟨c, ulTimeout, hframe, hseen, -⟩ := h.waiting hpend
    have hleft := h.leave hpend
    have hself : (s.vutexes.leave t).tcb t = ⟨false, false, true,
        { (s.vutexes.tcb t).vutex with phyaddr := none, uiHash := 0 }⟩ := by
      simp [Vutexes.leave]
    have hctx : SavedOk s.value s.log ((s.vutexes.leave t).tcb t).vutex.bWakeAll
        ⟨s.frame t, saType, ((s.vutexes.leave t).tcb t).timeout⟩ := by
      rw [hframe]
      refine ⟨hseen, ?_⟩
      rw [Ended, if_neg (by simp [hself])]
    exact hleft.interrupt (t := t) (by simp [hself]) hkernel hctx

theorem Ok.sigReturn (h : Ok s) (hframe : s.frame t = .idle) {ctx : Context Frame}
    {saved : List (Context Frame)} (hsaved : s.saved t = ctx :: saved) :
    Ok { s.move t (resumed ctx) with
      vutexes := s.vutexes.restore t ctx.timeout
      saved := Function.update s.saved t saved } := by
  have hpend : (s.vutexes.tcb t).pend = false := by
    have hself := h.frame t
    rwa [hframe] at hself
  have hctx := h.saved t ctx (by simp [hsaved])
  have hother : ∀ u, u ≠ t → (s.vutexes.restore t ctx.timeout).tcb u = s.vutexes.tcb u := by
    intro u hu
    simp [Vutexes.restore, hu]
  have hvutex : ∀ u, ((s.vutexes.restore t ctx.timeout).tcb u).vutex =
      (s.vutexes.tcb u).vutex := by
    intro u
    by_cases hu : u = t <;> simp [Vutexes.restore, hu]
  have hpends : ∀ u, ((s.vutexes.restore t ctx.timeout).tcb u).pend =
      (s.vutexes.tcb u).pend := by
    intro u
    by_cases hu : u = t <;> simp [Vutexes.restore, hu]
  have hhit : ∀ u a v w, (s.vutexes.restore t ctx.timeout).Hit u a v w ↔
      s.vutexes.Hit u a v w := by
    intro u a v w
    simp [Vutexes.Hit, Tcb.matches, hvutex]
  constructor
  case ok => exact h.ok.restore hpend ctx.timeout
  case frame =>
    intro u
    by_cases hu : u = t
    · subst hu
      simp only [State.move, Function.update_self, Vutexes.restore]
      unfold SavedOk at hctx
      unfold resumed
      cases hf : ctx.frame with
      | asleep c n r hit =>
        rw [hf] at hctx
        refine ⟨hctx.1, ?_⟩
        rw [if_neg (by simp [hpend])]
        exact hctx.2
      | again c n =>
        rw [hf] at hctx
        exact ⟨hpend, hctx⟩
      | enter c n =>
        rw [hf] at hctx
        exact ⟨hpend, hctx⟩
      | idle => exact hpend
      | postTest p => exact hpend
      | postEnter p => exact hpend
      | posting => exact hpend
    · simpa [State.move, hu, hother u hu] using h.frame u
  case saved =>
    intro u ctx' hctx'
    rw [hvutex]
    by_cases hu : u = t
    · subst hu
      exact h.saved u ctx' (by simpa [hsaved] using Or.inr (by simpa using hctx'))
    · exact h.saved u ctx' (by simpa [hu] using hctx')
  case nested =>
    intro u hu ctx' hctx'
    rw [hpends] at hu
    by_cases hut : u = t
    · subst hut
      simp [hpend] at hu
    · exact h.nested u hu ctx' (by simpa [hut] using hctx')
  case walk =>
    intro q hq
    obtain ⟨passed, ahead, hw, hpassed⟩ := h.walk q hq
    exact ⟨passed, ahead, ⟨hw.split, hw.op⟩, fun u hu => by rw [hhit]; exact hpassed u hu⟩
  case count => exact h.count
  case poster =>
    intro q hq
    have hposter := h.poster q hq
    have hne : q.thread ≠ t := by
      rintro rfl
      rw [hframe] at hposter
      cases hposter
    simpa [State.move, hne] using hposter
  case posted => exact h.posted
  case logged =>
    intro q hq u c n r hit hf hu
    rw [hpends] at hu
    have hne : u ≠ t := by
      rintro rfl
      simp [hpend] at hu
    exact h.logged q hq u c n r hit (by simpa [State.move, hne] using hf) hu
  case calm =>
    intro u a ha hcause
    rw [hvutex] at ha
    have hcalm := h.calm u a ha hcause
    simpa [State.move, Tcb.matches, hvutex] using hcalm
  case returns => exact h.returns
  case posts => exact h.posts

theorem Ok.step (h : Ok s) {a : Action T} (hfair : Fair s a) {s' : State T}
    (hstep : Vutex.step s a = some s') : Ok s' := by
  cases a with
  | pend t phyaddr iCompare iDesired ulTimeout =>
    simp only [Vutex.step] at hstep
    split at hstep
    case h_1 hframe =>
      cases hstep
      exact h.pend hframe phyaddr iCompare iDesired ulTimeout
    case h_2 => cases hstep
  | test t =>
    simp only [Vutex.step] at hstep
    split at hstep
    case h_1 c ulTimeout hframe =>
      cases hstep
      exact h.pendTest hframe
    case h_2 p hframe =>
      cases hstep
      exact h.postTest hframe
    case h_3 => cases hstep
  | enter t =>
    simp only [Vutex.step] at hstep
    split at hstep
    case h_1 c ulTimeout hkernel hframe =>
      cases hstep
      simp only [Fair, hframe] at hfair
      exact h.pendEnter hkernel hframe hfair
    case h_2 p hkernel hframe =>
      cases hstep
      exact h.postEnter hkernel hframe
    case h_3 => cases hstep
  | wake t elapsed =>
    simp only [Vutex.step] at hstep
    split at hstep
    case h_1 c ulTimeout iSchedRet hit hpend hframe =>
      cases hstep
      apply h.pendWake hpend hframe
      rintro rfl
      simpa only [Fair, hframe, Frame.InTime] using hfair
    case h_2 => cases hstep
  | post t p =>
    simp only [Vutex.step] at hstep
    split at hstep
    case h_1 hframe =>
      cases hstep
      have hpend : (s.vutexes.tcb t).pend = false := by
        have hself := h.frame t
        rwa [hframe] at hself
      exact h.move hpend (h.outside (by simp [hframe])) hpend
    case h_2 => cases hstep
  | round =>
    obtain ⟨q, hq, rfl⟩ := Option.map_eq_some_iff.mp hstep
    exact h.round hq
  | tick t =>
    simp only [Vutex.step] at hstep
    split at hstep
    case isTrue hdelay =>
      cases hstep
      obtain ⟨hpend, htick⟩ := h.ok.threadTick hdelay
      rw [htick]
      exact h.leave hpend
    case isFalse => cases hstep
  | signal t saRestart =>
    simp only [Vutex.step] at hstep
    split at hstep
    case h_1 hkernel =>
      cases hstep
      exact h.signal hkernel t _
    case h_2 => cases hstep
  | sigReturn t =>
    simp only [Vutex.step] at hstep
    split at hstep
    case h_1 ctx saved hframe hsaved =>
      cases hstep
      exact h.sigReturn hframe hsaved
    case h_2 => cases hstep

/-- In every run whose steps meet the condition nobody waits while its condition holds, unless a
post is on its way to it; a wait returns as what it was, and a post counts the waits it ends. -/
theorem waits_exact (value : PhysAddr → BitVec 32) {actions : List (Action T)}
    (h : Obeys Vutex.step Fair (State.init value) actions) :
    Visits Vutex.step State.Exact (State.init value) actions := by
  have hvisits : Visits Vutex.step Ok (State.init value : State T) actions :=
    visits_of_obeys (fun s a s' hs hfair hstep => hs.step hfair hstep) (ok_init value) h
  exact hvisits.mono fun s hs => hs.exact

/-- A wait that a signal interrupts is woken after its restart. -/
theorem waits_exact_restart :
    Visits Vutex.step State.Exact (State.init (fun _ => 0) : State Bool)
      [.pend true 0x1000#64 .equ 1 (some 5), .test true, .enter true, .signal true true,
        .sigReturn true, .wake true 2, .test true, .enter true,
        .post false ⟨0x1000#64, 1, false, false, false⟩, .test false, .enter false, .round, .round,
        .wake true 0] :=
  waits_exact (fun _ => 0) (by decide)

/-- A wait for 1 that is restarted when its time has run out returns 0, and the variable has been 0
throughout. -/
theorem wait_restarted_late :
    ¬ Visits Vutex.step State.Exact (State.init (fun _ => 0) : State Bool)
      [.pend true 0x1000#64 .equ 1 (some 5), .test true, .enter true, .signal true true,
        .sigReturn true, .wake true 5] := by
  intro h
  have hrun : ((run Vutex.step (State.init (fun _ => 0) : State Bool)
      [.pend true 0x1000#64 .equ 1 (some 5), .test true, .enter true, .signal true true,
        .sigReturn true, .wake true 5]).map fun s =>
      s.returns.map fun r => (r.result, r.call, r.moments)) =
        some [(.match, ⟨0x1000#64, .equ, 1, 0⟩, [(0x1000#64, 0)])] := by decide
  obtain ⟨s', hlast, hreturns⟩ := Option.map_eq_some_iff.mp hrun
  obtain ⟨r, hr, hreturn⟩ := List.map_eq_singleton_iff.mp hreturns
  simp only [Prod.mk.injEq] at hreturn
  obtain ⟨hresult, hcall, hmoments⟩ := hreturn
  have hexact := (h.last hlast).returns r (by simp [hr])
  simp only [Return.Exact, hresult, hcall, hmoments] at hexact
  obtain ⟨iValue, hmem, hmatch⟩ := hexact
  simp only [List.mem_singleton, Prod.mk.injEq, true_and] at hmem
  subst hmem
  exact absurd hmatch (by decide)

end SylixOS.Vutex
