import SylixOS.TyLib

/-! Readers of a tty device are served along every run that meets the condition: a ring
that is not empty is announced by the token, by a reader that has taken it or by an
interrupt that will post. -/

namespace SylixOS.TyLib
open BinarySemaphore StepRuns Function

variable {T : Type*} [DecidableEq T] {s : State T} {t : T}

def Phase.waits : Phase → Bool
  | .asleep _ => true
  | _ => false

def Phase.locked : Phase → Bool
  | .fetch _ | .xon _ _ | .left _ _ | .post _ _ | .unlock _ | .requestPost | .rflush | .rflushXon
  | .rflushClear | .rflushDone => true
  | _ => false

def Phase.flushes : Phase → Bool
  | .rflush | .rflushXon | .rflushClear | .rflushDone => true
  | _ => false

def Phase.flushed : Phase → Bool
  | .rflushXon | .rflushClear | .rflushDone => true
  | _ => false

theorem locked_of_flushes {phase : Phase} (h : phase.flushes = true) : phase.locked = true := by
  cases phase <;> simp_all [Phase.flushes, Phase.locked]

theorem flushes_of_flushed {phase : Phase} (h : phase.flushed = true) : phase.flushes = true := by
  cases phase <;> simp_all [Phase.flushes, Phase.flushed]

structure Ok (s : State T) : Prop where
  queue : ∀ t, t ∈ s.rdSync.queue ↔ (s.phase t).waits = true
  nodup : s.rdSync.queue.Nodup
  announced : s.dev.rdBuf ≠ [] → s.rdSync.token = true ∨ ∃ t, (s.phase t).brings = true
  held : ∀ t, (s.phase t).locked = true → s.mutex = some t
  flushing : ∀ t, (s.phase t).flushes = true → s.dev.bFlushingRdBuf = true
  flushed : ∀ t, (s.phase t).flushed = true → s.dev.rdBuf = []

omit [DecidableEq T] in
theorem ok_create (dev : Dev) : Ok (State.create dev : State T) := by
  constructor
  case queue => simp [State.create, Phase.waits]
  case nodup => exact List.nodup_nil
  case announced => exact fun hne => absurd rfl hne
  case held => exact fun t ht => nomatch ht
  case flushing => exact fun t ht => nomatch ht
  case flushed => exact fun t ht => nomatch ht

omit [DecidableEq T] in
theorem Ok.served (h : Ok s) : s.Served := by
  intro hnone hne t r hasleep
  rcases h.announced hne with htoken | ⟨u, hu⟩
  · exact Or.inl htoken
  · right
    refine ⟨u, ?_⟩
    have hquiet := hnone u
    cases hp : s.phase u <;> simp [hp, Phase.brings, Phase.reads, Phase.receives] at hu hquiet ⊢

theorem Ok.move (h : Ok s) (hold : (s.phase t).waits = false) {phase : Phase}
    (hnew : phase.waits = false) {dev : Dev} {mutex : Option T}
    (hann : dev.rdBuf ≠ [] → s.rdSync.token = true ∨ phase.brings = true ∨
      ∃ u, u ≠ t ∧ (s.phase u).brings = true)
    (hself : phase.locked = true → mutex = some t)
    (hothers : ∀ u, u ≠ t → (s.phase u).locked = true → mutex = some u)
    (hflushing : ∀ u, u ≠ t → (s.phase u).flushes = true → dev.bFlushingRdBuf = true)
    (hflushed : ∀ u, u ≠ t → (s.phase u).flushed = true → dev.rdBuf = [])
    (hflush : phase.flushes = true → dev.bFlushingRdBuf = true)
    (hempty : phase.flushed = true → dev.rdBuf = []) :
    Ok { s.goto t phase with dev := dev, mutex := mutex } := by
  have hother : ∀ u, u ≠ t → (s.goto t phase).phase u = s.phase u := fun u hu =>
    update_of_ne hu _ _
  have hmoved : (s.goto t phase).phase t = phase := update_self _ _ _
  constructor
  case queue =>
    intro u
    change u ∈ s.rdSync.queue ↔ ((s.goto t phase).phase u).waits = true
    by_cases hu : u = t
    · rw [hu, hmoved, hnew, ← hold]
      exact h.queue t
    · rw [hother u hu]
      exact h.queue u
  case nodup => exact h.nodup
  case announced =>
    intro hne
    rcases hann hne with htoken | hbrings | ⟨u, hu, hbrings⟩
    · exact Or.inl htoken
    · exact Or.inr ⟨t, (congrArg Phase.brings hmoved).trans hbrings⟩
    · exact Or.inr ⟨u, (congrArg Phase.brings (hother u hu)).trans hbrings⟩
  case held =>
    intro u hlocked
    change ((s.goto t phase).phase u).locked = true at hlocked
    by_cases hu : u = t
    · rw [hu, hmoved] at hlocked
      rw [hu]
      exact hself hlocked
    · rw [hother u hu] at hlocked
      exact hothers u hu hlocked
  case flushing =>
    intro u hflushes
    change ((s.goto t phase).phase u).flushes = true at hflushes
    by_cases hu : u = t
    · rw [hu, hmoved] at hflushes
      exact hflush hflushes
    · rw [hother u hu] at hflushes
      exact hflushing u hu hflushes
  case flushed =>
    intro u hf
    change ((s.goto t phase).phase u).flushed = true at hf
    by_cases hu : u = t
    · rw [hu, hmoved] at hf
      exact hempty hf
    · rw [hother u hu] at hf
      exact hflushed u hu hf

omit [DecidableEq T] in
theorem Ok.alone (h : Ok s) (ht : (s.phase t).locked = true) {u : T}
    (hu : (s.phase u).locked = true) : u = t := by
  have hboth := (h.held u hu).symm.trans (h.held t ht)
  exact Option.some.inj hboth

omit [DecidableEq T] in
theorem Ok.free (h : Ok s) (hmutex : s.mutex = none) (u : T) : (s.phase u).locked = false := by
  by_contra hlocked
  have hheld := h.held u (by simpa using hlocked)
  rw [hmutex] at hheld
  cases hheld

theorem Ok.goto (h : Ok s) (hold : (s.phase t).waits = false) {phase : Phase}
    (hnew : phase.waits = false) (hlocked : phase.locked = true → (s.phase t).locked = true)
    (hflushes : phase.flushes = true → (s.phase t).flushes = true)
    (hflushed : phase.flushed = true → (s.phase t).flushed = true)
    (hbrings : (s.phase t).brings = true → phase.brings = true ∨ Spared s t) :
    Ok (s.goto t phase) := by
  have hann : s.dev.rdBuf ≠ [] → s.rdSync.token = true ∨ phase.brings = true ∨
      ∃ u, u ≠ t ∧ (s.phase u).brings = true := by
    intro hne
    rcases h.announced hne with htoken | ⟨u, hu⟩
    · exact Or.inl htoken
    · by_cases hut : u = t
      · rw [hut] at hu
        rcases hbrings hu with hnew' | hempty | htoken | hother
        · exact Or.inr (Or.inl hnew')
        · exact absurd hempty hne
        · exact Or.inl htoken
        · exact Or.inr (Or.inr hother)
      · exact Or.inr (Or.inr ⟨u, hut, hu⟩)
  exact h.move hold hnew hann (fun hl => h.held t (hlocked hl)) (fun u _ hu => h.held u hu)
    (fun u _ hu => h.flushing u hu) (fun u _ hu => h.flushed u hu)
    (fun hf => h.flushing t (hflushes hf)) (fun hf => h.flushed t (hflushed hf))

theorem Ok.stroll (h : Ok s) (hold : (s.phase t).waits = false)
    (hidle : (s.phase t).brings = false) {phase : Phase} (hnew : phase.waits = false)
    (hlocked : phase.locked = false) : Ok (s.goto t phase) := by
  have hflushes : phase.flushes = true → (s.phase t).flushes = true := fun hf => by
    rw [locked_of_flushes hf] at hlocked
    cases hlocked
  refine h.goto hold hnew (fun hl => ?_) hflushes (fun hf => ?_) (fun hb => ?_)
  · rw [hlocked] at hl
    cases hl
  · rw [locked_of_flushes (flushes_of_flushed hf)] at hlocked
    cases hlocked
  · rw [hidle] at hb
    cases hb

theorem Ok.tyRead (h : Ok s) (hphase : s.phase t = .idle) (stMaxBytes : ℕ) :
    Ok (tyRead s t stMaxBytes) := by
  have hold : (s.phase t).waits = false := by rw [hphase]; rfl
  have hidle : (s.phase t).brings = false := by rw [hphase]; rfl
  have hback : Ok (s.goto t .idle) := h.stroll hold hidle rfl rfl
  unfold TyLib.tyRead
  dsimp only
  split
  · exact { hback with }
  · split
    · exact { hback with }
    · exact h.stroll hold hidle rfl rfl

theorem Ok.readPend (h : Ok s) {r : Read} (hphase : s.phase t = .pend r) :
    Ok (readPend s t r) := by
  have hold : (s.phase t).waits = false := by rw [hphase]; rfl
  have hidle : (s.phase t).brings = false := by rw [hphase]; rfl
  unfold TyLib.readPend
  split
  case isTrue htoken =>
    have hlock : Ok (s.goto t (.lock r)) := h.stroll hold hidle rfl rfl
    have hpend : (s.rdSync.pend t).2 = ⟨false, s.rdSync.queue⟩ := by simp [Sem.pend, htoken]
    rw [hpend]
    exact { hlock with
      announced := fun _ => Or.inr ⟨t, by simp [State.goto, Phase.brings]⟩ }
  case isFalse htoken =>
    split
    case isTrue =>
      have hback : Ok (s.goto t .idle) := h.stroll hold hidle rfl rfl
      exact { hback with }
    case isFalse =>
      have hout : t ∉ s.rdSync.queue := by
        rw [h.queue, hold]
        simp
      have hpend : (s.rdSync.pend t).2 = ⟨s.rdSync.token, s.rdSync.queue ++ [t]⟩ := by
        simp [Sem.pend, htoken]
      rw [hpend]
      have hother : ∀ u, u ≠ t → (s.goto t (.asleep r)).phase u = s.phase u := fun u hu =>
        update_of_ne hu _ _
      have hself : (s.goto t (.asleep r)).phase t = .asleep r := update_self _ _ _
      have hstays : ∀ (f : Phase → Bool) (u : T), f (.asleep r) = false →
          f ((s.goto t (.asleep r)).phase u) = true → f (s.phase u) = true := by
        intro f u hasleep hu
        by_cases hut : u = t
        · rw [hut, hself, hasleep] at hu
          cases hu
        · rwa [hother u hut] at hu
      constructor
      case queue =>
        intro u
        change u ∈ s.rdSync.queue ++ [t] ↔ ((s.goto t (.asleep r)).phase u).waits = true
        by_cases hu : u = t
        · rw [hu, hself]
          simp [Phase.waits]
        · rw [hother u hu, ← h.queue]
          simp [hu]
      case nodup => simpa using h.nodup.concat hout
      case announced =>
        intro hne
        rcases h.announced hne with htrue | ⟨u, hu⟩
        · exact absurd htrue htoken
        · have hut : u ≠ t := by
            rintro rfl
            rw [hidle] at hu
            cases hu
          exact Or.inr ⟨u, (congrArg Phase.brings (hother u hut)).trans hu⟩
      case held => exact fun u hu => h.held u (hstays Phase.locked u rfl hu)
      case flushing => exact fun u hu => h.flushing u (hstays Phase.flushes u rfl hu)
      case flushed => exact fun u hu => h.flushed u (hstays Phase.flushed u rfl hu)

theorem Ok.enter (h : Ok s) (hold : (s.phase t).waits = false) (hmutex : s.mutex = none)
    {phase : Phase} {dev : Dev} (hnew : phase.waits = false) (hflushed : phase.flushed = false)
    (hflushes : phase.flushes = true → dev.bFlushingRdBuf = true)
    (hann : dev.rdBuf ≠ [] → s.rdSync.token = true ∨ phase.brings = true ∨
      ∃ u, u ≠ t ∧ (s.phase u).brings = true) :
    Ok { s.goto t phase with dev := dev, mutex := some t } := by
  have hfree := h.free hmutex
  apply h.move hold hnew hann
  case hself => exact fun _ => rfl
  case hothers =>
    intro u _ hu
    rw [hfree u] at hu
    cases hu
  case hflushing =>
    intro u _ hu
    have hlocked := locked_of_flushes hu
    rw [hfree u] at hlocked
    cases hlocked
  case hflushed =>
    intro u _ hu
    have hlocked := locked_of_flushes (flushes_of_flushed hu)
    rw [hfree u] at hlocked
    cases hlocked
  case hflush => exact hflushes
  case hempty =>
    intro hf
    rw [hflushed] at hf
    cases hf

theorem Ok.readLock (h : Ok s) {r : Read} (hphase : s.phase t = .lock r)
    (hmutex : s.mutex = none) (hfair : MayReturn s t (s.phase t)) : Ok (readLock s t r) := by
  have hold : (s.phase t).waits = false := by rw [hphase]; rfl
  rw [hphase] at hfair
  have hspared : s.dev.abortFlag = true ∨ s.dev.bCanceled = true → s.dev.rdBuf ≠ [] →
      s.rdSync.token = true ∨ (Phase.unlock .idle).brings = true ∨
        ∃ u, u ≠ t ∧ (s.phase u).brings = true := by
    intro hflag hne
    rcases hfair hflag with hempty | htoken | hother
    · exact absurd hempty hne
    · exact Or.inl htoken
    · exact Or.inr (Or.inr hother)
  unfold TyLib.readLock
  dsimp only
  split
  case isTrue habort =>
    have hleft : Ok { s.goto t (.unlock .idle) with
        dev := { s.dev with abortFlag := false }, mutex := some t } :=
      h.enter hold hmutex rfl rfl (fun hf => nomatch hf) (hspared (Or.inl habort))
    exact { hleft with }
  case isFalse =>
    split
    case isTrue hcancel =>
      have hleft : Ok { s.goto t (.unlock .idle) with
          dev := { s.dev with bCanceled := false }, mutex := some t } :=
        h.enter hold hmutex rfl rfl (fun hf => nomatch hf) (hspared (Or.inr hcancel))
      exact { hleft with }
    case isFalse =>
      exact h.enter hold hmutex rfl rfl (fun hf => nomatch hf) fun _ => Or.inr (Or.inl rfl)

theorem Ok.tyIoctl (h : Ok s) {iRequest : Request} (hphase : s.phase t = .request iRequest)
    (hmutex : s.mutex = none) : Ok (tyIoctl s t iRequest) := by
  have hold : (s.phase t).waits = false := by rw [hphase]; rfl
  have hann : ∀ phase : Phase, s.dev.rdBuf ≠ [] → s.rdSync.token = true ∨ phase.brings = true ∨
      ∃ u, u ≠ t ∧ (s.phase u).brings = true := by
    intro phase hne
    rcases h.announced hne with htoken | ⟨u, hu⟩
    · exact Or.inl htoken
    · refine Or.inr (Or.inr ⟨u, ?_, hu⟩)
      rintro rfl
      rw [hphase] at hu
      cases hu
  cases iRequest with
  | cancel => exact h.enter hold hmutex rfl rfl (fun hf => nomatch hf) (hann _)
  | waitAbort =>
    unfold TyLib.tyIoctl
    dsimp only
    split
    · exact h.enter hold hmutex rfl rfl (fun hf => nomatch hf) (hann _)
    · exact h.enter hold hmutex rfl rfl (fun hf => nomatch hf) (hann _)
  | rflush => exact h.enter hold hmutex rfl rfl (fun _ => rfl) (hann _)

theorem Ok.readLeft (h : Ok s) (hlocked : (s.phase t).locked = true)
    (hold : (s.phase t).waits = false) (r : Read) (sstNBytes : ℕ) : Ok (readLeft s t r sstNBytes) := by
  unfold TyLib.readLeft
  split
  case isTrue =>
    exact h.goto hold rfl (fun _ => hlocked) (fun hf => nomatch hf) (fun hf => nomatch hf)
      fun _ => Or.inl rfl
  case isFalse hempty =>
    have hbuf : s.dev.rdBuf = [] := by simpa using hempty
    exact h.goto hold rfl (fun _ => hlocked) (fun hf => nomatch hf) (fun hf => nomatch hf)
      fun _ => Or.inr (Or.inl hbuf)

omit [DecidableEq T] in
theorem Ok.taken (h : Ok s) {r : Read} (hphase : s.phase t = .fetch r) :
    Ok { s with dev := (s.dev.take r.stMaxBytes).2.2 } := by
  have hlocked : (s.phase t).locked = true := by rw [hphase]; rfl
  have hbrings : (s.phase t).brings = true := by rw [hphase]; rfl
  exact { h with
    announced := fun _ => Or.inr ⟨t, hbrings⟩
    flushing := by
      intro u hu
      rw [take_flushing]
      exact h.flushing u hu
    flushed := by
      intro u hu
      have hut := h.alone hlocked (locked_of_flushes (flushes_of_flushed hu))
      rw [hut, hphase] at hu
      cases hu }

theorem Ok.readFetch (h : Ok s) {r : Read} (hphase : s.phase t = .fetch r) :
    Ok (readFetch s t r) := by
  have hold : (s.phase t).waits = false := by rw [hphase]; rfl
  have hlocked : (s.phase t).locked = true := by rw [hphase]; rfl
  unfold TyLib.readFetch
  split
  case isTrue hempty =>
    exact h.goto hold rfl (fun _ => hlocked) (fun hf => nomatch hf) (fun hf => nomatch hf)
      fun _ => Or.inr (Or.inl hempty)
  case isFalse =>
    have htaken := h.taken hphase
    dsimp only
    split
    · exact htaken.goto hold rfl (fun _ => hlocked) (fun hf => nomatch hf)
        (fun hf => nomatch hf) fun _ => Or.inl rfl
    · exact htaken.readLeft hlocked hold _ _

omit [DecidableEq T] in
theorem Ok.flow (h : Ok s) (bXoff : Bool) : Ok { s with dev := s.dev.tyRdXoff bXoff } := by
  obtain ⟨hbuf, hflush⟩ := tyRdXoff_rdBuf (d := s.dev) bXoff
  exact { h with
    announced := by
      rw [hbuf]
      exact h.announced
    flushing := by
      rw [hflush]
      exact h.flushing
    flushed := by
      rw [hbuf]
      exact h.flushed }

theorem Ok.unlock (h : Ok s) {after : After} (hphase : s.phase t = .unlock after) :
    Ok (s.unlock t after) := by
  have hold : (s.phase t).waits = false := by rw [hphase]; rfl
  have hlocked : (s.phase t).locked = true := by rw [hphase]; rfl
  have hann : ∀ phase : Phase, s.dev.rdBuf ≠ [] → s.rdSync.token = true ∨ phase.brings = true ∨
      ∃ u, u ≠ t ∧ (s.phase u).brings = true := by
    intro phase hne
    rcases h.announced hne with htoken | ⟨u, hu⟩
    · exact Or.inl htoken
    · refine Or.inr (Or.inr ⟨u, ?_, hu⟩)
      rintro rfl
      rw [hphase] at hu
      cases hu
  have hmove : ∀ phase : Phase, phase.waits = false → phase.locked = false →
      Ok { s.goto t phase with dev := s.dev, mutex := none } := by
    intro phase hnew hunlocked
    apply h.move hold hnew (hann phase)
    case hself =>
      intro hl
      rw [hunlocked] at hl
      cases hl
    case hothers =>
      intro u hut hu
      exact absurd (h.alone hlocked hu) hut
    case hflushing => exact fun u _ hu => h.flushing u hu
    case hflushed => exact fun u _ hu => h.flushed u hu
    case hflush =>
      intro hf
      rw [locked_of_flushes hf] at hunlocked
      cases hunlocked
    case hempty =>
      intro hf
      rw [locked_of_flushes (flushes_of_flushed hf)] at hunlocked
      cases hunlocked
  cases after with
  | idle => exact hmove .idle rfl rfl
  | again r => exact hmove (.pend r) rfl rfl
  | fetched r sstNBytes =>
    unfold State.unlock
    dsimp only
    split
    · exact hmove _ rfl rfl
    · have hback := hmove .idle rfl rfl
      exact { hback with }

theorem woken_of_waits {phase : Phase} (h : phase.waits = true) :
    ∃ r, phase = .asleep r ∧ phase.woken = .lock r := by
  cases phase with
  | asleep r => exact ⟨r, rfl, rfl⟩
  | _ => cases h

theorem Ok.rdSyncPost (h : Ok s) (hold : (s.phase t).waits = false) (i : ℕ) :
    Ok (rdSyncPost s i) ∧ (rdSyncPost s i).phase t = s.phase t ∧
      (rdSyncPost s i).dev = s.dev ∧ (rdSyncPost s i).mutex = s.mutex ∧
      Spared (rdSyncPost s i) t := by
  unfold TyLib.rdSyncPost
  rcases post_cases h.nodup i with ⟨hqueue, hpost⟩ | ⟨u, hu, hpost⟩
  · rw [hpost]
    refine ⟨{ h with queue := ?_, nodup := List.nodup_nil, announced := fun _ => Or.inl rfl },
      rfl, rfl, rfl, Or.inr (Or.inl rfl)⟩
    intro u
    rw [← hqueue]
    exact h.queue u
  · have hwaits := (h.queue u).mp hu
    obtain ⟨r, hasleep, hwoken⟩ := woken_of_waits hwaits
    have hut : u ≠ t := by
      rintro rfl
      rw [hold] at hwaits
      cases hwaits
    rw [hpost]
    dsimp only
    rw [hwoken]
    have hother : ∀ v, v ≠ u → (s.goto u (.lock r)).phase v = s.phase v := fun v hv =>
      update_of_ne hv _ _
    have hself : (s.goto u (.lock r)).phase u = .lock r := update_self _ _ _
    have hstays : ∀ (f : Phase → Bool) (v : T), f (.lock r) = false →
        f ((s.goto u (.lock r)).phase v) = true → f (s.phase v) = true := by
      intro f v hlock hv
      by_cases hvu : v = u
      · rw [hvu, hself, hlock] at hv
        cases hv
      · rwa [hother v hvu] at hv
    refine ⟨?_, hother t (Ne.symm hut), rfl, rfl,
      Or.inr (Or.inr ⟨u, hut, congrArg Phase.brings hself⟩)⟩
    constructor
    case queue =>
      intro v
      change v ∈ s.rdSync.queue.erase u ↔ ((s.goto u (.lock r)).phase v).waits = true
      by_cases hv : v = u
      · rw [hv, hself, h.nodup.mem_erase_iff]
        simp [Phase.waits]
      · rw [hother v hv, ← h.queue, h.nodup.mem_erase_iff]
        simp [hv]
    case nodup => exact h.nodup.erase u
    case announced => exact fun _ => Or.inr ⟨u, congrArg Phase.brings hself⟩
    case held => exact fun v hv => h.held v (hstays Phase.locked v rfl hv)
    case flushing => exact fun v hv => h.flushing v (hstays Phase.flushes v rfl hv)
    case flushed => exact fun v hv => h.flushed v (hstays Phase.flushed v rfl hv)

theorem Ok.posted (h : Ok s) (hold : (s.phase t).waits = false) {phase : Phase}
    (hnew : phase.waits = false) (hlocked : phase.locked = true → (s.phase t).locked = true)
    (hflushes : phase.flushes = false) (i : ℕ) :
    Ok ((TyLib.rdSyncPost s i).goto t phase) := by
  obtain ⟨hok, hphase, -, -, hspared⟩ := h.rdSyncPost hold i
  apply hok.goto (by rw [hphase]; exact hold) hnew
  · rw [hphase]
    exact hlocked
  · intro hf
    rw [hflushes] at hf
    cases hf
  · intro hf
    rw [flushes_of_flushed hf] at hflushes
    cases hflushes
  · exact fun _ => Or.inr hspared

theorem Ok.rngFlush (h : Ok s) (hphase : s.phase t = .rflush) :
    Ok ({ s with dev := s.dev.rngFlush }.goto t .rflushXon) := by
  have hflush : Ok { s with dev := s.dev.rngFlush } :=
    { h with
      announced := fun hne => absurd rfl hne
      flushed := fun _ _ => rfl }
  have hold : (s.phase t).waits = false := by rw [hphase]; rfl
  refine hflush.move hold rfl (fun hne => absurd rfl hne) (fun _ => h.held t (by rw [hphase]; rfl))
    (fun u _ hu => h.held u hu) (fun u _ hu => h.flushing u hu) (fun _ _ _ => rfl)
    (fun _ => h.flushing t (by rw [hphase]; rfl)) (fun _ => rfl)

theorem Ok.rflushClear (h : Ok s) (hphase : s.phase t = .rflushClear) :
    Ok ({ s with rdSync := s.rdSync.clear }.goto t .rflushDone) := by
  have hempty := h.flushed t (by rw [hphase]; rfl)
  have hclear : Ok { s with rdSync := s.rdSync.clear } :=
    { h with announced := fun hne => absurd hempty hne }
  exact hclear.goto (by rw [hphase]; rfl) rfl (fun _ => by rw [hphase]; rfl)
    (fun _ => by rw [hphase]; rfl) (fun _ => by rw [hphase]; rfl) fun _ => Or.inr (Or.inl hempty)

theorem Ok.rflushDone (h : Ok s) (hphase : s.phase t = .rflushDone) :
    Ok ({ s with dev := { s.dev with bFlushingRdBuf := false } }.goto t (.unlock .idle)) := by
  have hlocked : (s.phase t).locked = true := by rw [hphase]; rfl
  have hempty := h.flushed t (by rw [hphase]; rfl)
  refine h.move (by rw [hphase]; rfl) rfl (fun hne => absurd hempty hne) (fun _ => h.held t hlocked)
    (fun u _ hu => h.held u hu) (fun u hut hu => ?_) (fun u _ hu => h.flushed u hu)
    (fun hf => nomatch hf) (fun hf => nomatch hf)
  exact absurd (h.alone hlocked (locked_of_flushes hu)) hut

theorem Ok.received (h : Ok s) (hold : (s.phase t).waits = false)
    (hspared : (s.phase t).brings = true → Spared s t) (iStatus : Bool) :
    Ok (s.received t iStatus) := by
  have hback : Ok (s.goto t .idle) := h.goto hold rfl (fun hl => nomatch hl) (fun hf => nomatch hf)
    (fun hf => nomatch hf) fun hb => Or.inr (hspared hb)
  exact { hback with }

theorem Ok.tyIRd (h : Ok s) (hphase : s.phase t = .idle) (cInchar : BitVec 8) :
    Ok (tyIRd s t cInchar) := by
  have hold : (s.phase t).waits = false := by rw [hphase]; rfl
  have hbrings : (s.phase t).brings = false := by rw [hphase]; rfl
  have hflushing := tyIRd_flushing (d := s.dev) cInchar
  -- the interrupt moves to a phase that says what it has put
  have hmove : ∀ phase : Phase, phase.waits = false → phase.locked = false →
      (∀ tandem iStatus, (s.dev.tyIRd cInchar).2 = .rest true tandem iStatus →
        phase.brings = true) →
      Ok { s.goto t phase with dev := (s.dev.tyIRd cInchar).1, mutex := s.mutex } := by
    intro phase hnew hlocked hrest
    apply h.move hold hnew
    case hann =>
      intro hne
      have hold_ann : s.dev.rdBuf ≠ [] → s.rdSync.token = true ∨ phase.brings = true ∨
          ∃ u, u ≠ t ∧ (s.phase u).brings = true := by
        intro hused
        rcases h.announced hused with htoken | ⟨u, hu⟩
        · exact Or.inl htoken
        · refine Or.inr (Or.inr ⟨u, ?_, hu⟩)
          rintro rfl
          rw [hbrings] at hu
          cases hu
      rcases tyIRd_announced (d := s.dev) cInchar with hsame | ⟨-, hbuf | hused | ⟨_, _, hr⟩⟩
      · rw [hsame] at hne
        exact hold_ann hne
      · rw [hbuf] at hne
        exact hold_ann hne
      · exact hold_ann hused
      · exact Or.inr (Or.inl (hrest _ _ hr))
    case hself =>
      intro hl
      rw [hlocked] at hl
      cases hl
    case hothers => exact fun u _ hu => h.held u hu
    case hflushing =>
      intro u _ hu
      rw [hflushing]
      exact h.flushing u hu
    case hflushed =>
      intro u _ hu
      have hempty := h.flushed u hu
      rcases tyIRd_announced (d := s.dev) cInchar with hsame | ⟨hoff, -⟩
      · rw [hsame]
        exact hempty
      · -- nobody flushes while characters are taken
        rw [h.flushing u (flushes_of_flushed hu)] at hoff
        cases hoff
    case hflush =>
      intro hf
      rw [locked_of_flushes hf] at hlocked
      cases hlocked
    case hempty =>
      intro hf
      rw [locked_of_flushes (flushes_of_flushed hf)] at hlocked
      cases hlocked
  unfold TyLib.tyIRd
  dsimp only
  split
  case h_1 iStatus hdone =>
    have hback := hmove .idle rfl rfl fun _ _ hr => by
      rw [hdone] at hr
      cases hr
    exact { hback with }
  case h_2 bReleaseTaskLevel tandem iStatus hrest =>
    split
    · exact hmove (.irdTandem bReleaseTaskLevel iStatus) rfl rfl fun _ _ hr => by
        rw [hrest] at hr
        cases hr
        rfl
    · unfold irdRelease
      split
      · exact hmove (.irdPost iStatus) rfl rfl fun _ _ _ => rfl
      case isFalse hrelease =>
        have hback := hmove .idle rfl rfl fun _ _ hr => by
          rw [hrest] at hr
          cases hr
          exact absurd rfl hrelease
        exact { hback with }

theorem Ok.irdTandem (h : Ok s) {bReleaseTaskLevel iStatus : Bool}
    (hphase : s.phase t = .irdTandem bReleaseTaskLevel iStatus)
    (hfair : MayReturn s t (s.phase t)) : Ok (irdTandem s t bReleaseTaskLevel iStatus) := by
  have hold : (s.phase t).waits = false := by rw [hphase]; rfl
  unfold TyLib.irdTandem
  split
  case isTrue hflushing =>
    rw [hphase] at hfair
    exact h.received hold (fun _ => hfair hflushing) false
  case isFalse =>
    obtain ⟨hbuf, hflush⟩ := irdTandem_rdBuf (d := s.dev)
    have hflow : Ok { s with dev := s.dev.irdTandem.2 } :=
      { h with
        announced := by
          rw [hbuf]
          exact h.announced
        flushing := by
          rw [hflush]
          exact h.flushing
        flushed := by
          rw [hbuf]
          exact h.flushed }
    dsimp only
    unfold irdRelease
    split
    case isTrue =>
      exact hflow.goto hold rfl (fun hl => nomatch hl) (fun hf => nomatch hf)
        (fun hf => nomatch hf) fun _ => Or.inl rfl
    case isFalse hrelease =>
      refine hflow.received hold (fun hb => ?_) iStatus
      rw [show State.phase _ t = _ from hphase] at hb
      have hlevel : bReleaseTaskLevel = true := hb
      rw [hlevel] at hrelease
      exact absurd rfl hrelease

theorem Ok.leave (h : Ok s) {r : Read} (hphase : s.phase t = .asleep r) {phase : Phase}
    (hnew : phase.waits = false) (hlocked : phase.locked = false) :
    Ok ({ s with rdSync := s.rdSync.leave t }.goto t phase) := by
  have hother : ∀ u, u ≠ t → (s.goto t phase).phase u = s.phase u := fun u hu =>
    update_of_ne hu _ _
  have hself : (s.goto t phase).phase t = phase := update_self _ _ _
  have hstays : ∀ (f : Phase → Bool) (u : T), f phase = false →
      f ((s.goto t phase).phase u) = true → f (s.phase u) = true := by
    intro f u hf hu
    by_cases hut : u = t
    · rw [hut, hself, hf] at hu
      cases hu
    · rwa [hother u hut] at hu
  have hflushes : phase.flushes = false := by
    by_contra hf
    rw [locked_of_flushes (by simpa using hf)] at hlocked
    cases hlocked
  have hflushed : phase.flushed = false := by
    by_contra hf
    rw [flushes_of_flushed (by simpa using hf)] at hflushes
    cases hflushes
  constructor
  case queue =>
    intro u
    change u ∈ s.rdSync.queue.erase t ↔ ((s.goto t phase).phase u).waits = true
    by_cases hu : u = t
    · rw [hu, hself, h.nodup.mem_erase_iff, hnew]
      simp
    · rw [hother u hu, ← h.queue, h.nodup.mem_erase_iff]
      simp [hu]
  case nodup => exact h.nodup.erase t
  case announced =>
    intro hne
    rcases h.announced hne with htoken | ⟨u, hu⟩
    · exact Or.inl htoken
    · have hut : u ≠ t := by
        rintro rfl
        rw [hphase] at hu
        cases hu
      exact Or.inr ⟨u, (congrArg Phase.brings (hother u hut)).trans hu⟩
  case held => exact fun u hu => h.held u (hstays Phase.locked u hlocked hu)
  case flushing => exact fun u hu => h.flushing u (hstays Phase.flushes u hflushes hu)
  case flushed => exact fun u hu => h.flushed u (hstays Phase.flushed u hflushed hu)

theorem Ok.next (h : Ok s) {i : ℕ} {s' : State T} (hfair : MayReturn s t (s.phase t))
    (hnext : next s t i = some s') : Ok s' := by
  unfold TyLib.next at hnext
  split at hnext
  case h_1 => cases hnext
  case h_2 => cases hnext
  case h_3 r hphase =>
    obtain rfl := Option.some.inj hnext
    exact h.readPend hphase
  case h_4 r hphase =>
    simp only [Option.ite_none_right_eq_some, Option.some.injEq] at hnext
    obtain ⟨hmutex, rfl⟩ := hnext
    exact h.readLock hphase hmutex hfair
  case h_5 r hphase =>
    obtain rfl := Option.some.inj hnext
    exact h.readFetch hphase
  case h_6 r sstNBytes hphase =>
    obtain rfl := Option.some.inj hnext
    exact (h.flow false).goto (by rw [hphase]; rfl) rfl (fun _ => by rw [hphase]; rfl)
      (fun hf => nomatch hf) (fun hf => nomatch hf) fun _ => Or.inl rfl
  case h_7 r sstNBytes hphase =>
    obtain rfl := Option.some.inj hnext
    exact h.readLeft (by rw [hphase]; rfl) (by rw [hphase]; rfl) r sstNBytes
  case h_8 r sstNBytes hphase =>
    obtain rfl := Option.some.inj hnext
    exact h.posted (by rw [hphase]; rfl) rfl (fun _ => by rw [hphase]; rfl) rfl i
  case h_9 after hphase =>
    obtain rfl := Option.some.inj hnext
    exact h.unlock hphase
  case h_10 iRequest hphase =>
    simp only [Option.ite_none_right_eq_some, Option.some.injEq] at hnext
    obtain ⟨hmutex, rfl⟩ := hnext
    exact h.tyIoctl hphase hmutex
  case h_11 hphase =>
    obtain rfl := Option.some.inj hnext
    exact h.posted (by rw [hphase]; rfl) rfl (fun _ => by rw [hphase]; rfl) rfl i
  case h_12 hphase =>
    obtain rfl := Option.some.inj hnext
    exact h.rngFlush hphase
  case h_13 hphase =>
    obtain rfl := Option.some.inj hnext
    exact (h.flow false).goto (by rw [hphase]; rfl) rfl (fun _ => by rw [hphase]; rfl)
      (fun _ => by rw [hphase]; rfl) (fun _ => by rw [hphase]; rfl)
      fun hb => by rw [hphase] at hb; cases hb
  case h_14 hphase =>
    obtain rfl := Option.some.inj hnext
    exact h.rflushClear hphase
  case h_15 hphase =>
    obtain rfl := Option.some.inj hnext
    exact h.rflushDone hphase
  case h_16 bReleaseTaskLevel iStatus hphase =>
    obtain rfl := Option.some.inj hnext
    exact h.irdTandem hphase hfair
  case h_17 iStatus hphase =>
    obtain rfl := Option.some.inj hnext
    have hback : Ok ((TyLib.rdSyncPost s i).goto t .idle) :=
      h.posted (by rw [hphase]; rfl) rfl (fun hl => by cases hl) rfl i
    exact { hback with }

theorem Ok.step (h : Ok s) {a : Action T} {s' : State T} (hfair : Fair s a)
    (hstep : step s a = some s') : Ok s' := by
  cases a with
  | read t stMaxBytes =>
    simp only [TyLib.step] at hstep
    split at hstep
    case h_2 => cases hstep
    case h_1 hphase =>
      obtain rfl := Option.some.inj hstep
      exact h.tyRead hphase stMaxBytes
  | ioctl t iRequest =>
    simp only [TyLib.step] at hstep
    split at hstep
    case h_2 => cases hstep
    case h_1 hphase =>
      obtain rfl := Option.some.inj hstep
      exact h.stroll (by rw [hphase]; rfl) (by rw [hphase]; rfl) rfl rfl
  | receive t cInchar =>
    simp only [TyLib.step] at hstep
    split at hstep
    case h_2 => cases hstep
    case h_1 hphase =>
      obtain rfl := Option.some.inj hstep
      exact h.tyIRd hphase cInchar
  | next t i => exact h.next hfair hstep
  | timeout t =>
    simp only [TyLib.step] at hstep
    split at hstep
    case h_2 => cases hstep
    case h_1 r hphase =>
      simp only [Option.ite_none_right_eq_some, Option.some.injEq] at hstep
      obtain ⟨-, rfl⟩ := hstep
      have hback : Ok (State.goto _ t .idle) := h.leave hphase rfl rfl
      exact { hback with }
  | signal t ulTimeout =>
    simp only [TyLib.step] at hstep
    split at hstep
    case h_2 => cases hstep
    case h_1 r hphase =>
      split at hstep
      case isFalse => cases hstep
      case isTrue =>
        split at hstep
        case isTrue =>
          obtain rfl := Option.some.inj hstep
          have hback : Ok (State.goto _ t .idle) := h.leave hphase rfl rfl
          exact { hback with }
        case isFalse =>
          obtain rfl := Option.some.inj hstep
          exact h.leave hphase rfl rfl

/-- Along every run in which a call that returns without its post is not needed, no reader is left
asleep in front of a ring with something in it. -/
theorem readers_served (dev : Dev) (actions : List (Action T))
    (hfair : Obeys step Fair (State.create dev) actions) :
    Visits step State.Served (State.create dev) actions :=
  (visits_of_obeys (fun _ _ _ h hf hstep => Ok.step h hf hstep) (ok_create dev)
    hfair).mono fun _ h => h.served

def Dev.plain : Dev where
  iOpt := optRaw
  cc := ⟨1, 0, 3, 24, 19, 17, 8, 21, 4⟩
  abortFunc := false
  ulRTimeout := none
  tickHz := 1000
  size := 16
  rdBuf := []
  ahead := fun _ => 0
  ucInNBytes := 0
  ucInBytesLeft := 0
  bXoff := false
  bPending := false
  bCanceled := false
  bFlushingRdBuf := false
  cLastRecv := 0
  abortFlag := false

/-- A reader sleeps, two bytes arrive, and another reader gets the one that is left. -/
theorem readers_served_raw :
    Visits step State.Served (State.create Dev.plain : State (Fin 3))
      [.read 0 1, .next 0 0, .receive 2 65, .next 2 0, .receive 2 66, .read 1 1, .next 1 0,
        .next 0 0, .next 0 0, .next 0 0, .next 0 0, .next 1 0, .next 1 0, .next 1 0] :=
  readers_served Dev.plain _ (by decide)

/-- A cancel with nobody asleep: the next reader takes the only token, and leaves the byte. -/
theorem reader_stranded :
    ¬Visits step State.Served (State.create Dev.plain : State (Fin 3))
      [.receive 2 65, .next 2 0, .ioctl 0 .cancel, .next 0 0, .next 0 0, .next 0 0, .read 0 1,
        .next 0 0, .next 0 0, .next 0 0, .read 1 1, .next 1 0] := by
  intro h
  have hrun : (run step (State.create Dev.plain : State (Fin 3))
      [.receive 2 65, .next 2 0, .ioctl 0 .cancel, .next 0 0, .next 0 0, .next 0 0, .read 0 1,
        .next 0 0, .next 0 0, .next 0 0, .read 1 1, .next 1 0]).map
        (fun s => (s.dev.rdBuf, s.rdSync, (s.phase 1).waits,
          decide (∀ u, (s.phase u).receives = false ∧ (s.phase u).reads = false))) =
      some ([65], ⟨false, [1]⟩, true, true) := by
    decide
  obtain ⟨s', hlast, hvalues⟩ := Option.map_eq_some_iff.mp hrun
  simp only [Prod.mk.injEq, decide_eq_true_eq] at hvalues
  obtain ⟨hbuf, hsem, hwaits, hquiet⟩ := hvalues
  obtain ⟨r, hasleep, -⟩ := woken_of_waits hwaits
  rcases h.last hlast (fun u => (hquiet u).1) (by simp [hbuf]) 1 r hasleep with htoken | ⟨u, hu⟩
  · rw [hsem] at htoken
    cases htoken
  · rw [(hquiet u).2] at hu
    cases hu

end SylixOS.TyLib
