import SylixOS.JobQueueRuns
import Mathlib.Logic.Relation

/-! Calls of `_jobQueueExec`: a queue that has jobs is seen to, a call by itself
empties the queue, and the jobs are run once each and in order. -/

namespace SylixOS.Jobs
open RingBuffer BinarySemaphore StepRuns Function

variable {E F A : Type*} [DecidableEq E] {w : ℕ} {s : State E F A w}

structure Sync (s : State E F A w) : Prop where
  nodup : ∀ sem, s.ulSync = some sem → sem.queue.Nodup
  asleep : ∀ sem, s.ulSync = some sem → ∀ e, e ∈ sem.queue ↔ s.frame e = .asleep
  awake : ∀ sem, s.ulSync = some sem → s.jobq.uiCnt ≠ 0 →
    sem.token = true ∨ s.posting ≠ 0 ∨ s.flushing ≠ 0 ∨ ∃ e, (s.frame e).active = true

theorem Sync.move (h : Sync s) {s' : State E F A w} {e : E} {f : Frame F A}
    (hframe : s'.frame = update s.frame e f) (hsync : s'.ulSync = s.ulSync)
    (hposting : s'.posting = s.posting) (hflushing : s'.flushing = s.flushing)
    (hold : s.frame e ≠ .asleep) (hnew : f ≠ .asleep)
    (hcnt : s'.jobq.uiCnt ≠ 0 → s.jobq.uiCnt ≠ 0)
    (hactive : (s.frame e).active = true → s'.jobq.uiCnt ≠ 0 → f.active = true) : Sync s' := by
  constructor
  case nodup => rw [hsync]; exact h.nodup
  case asleep =>
    intro sem hsem e'
    rw [hsync] at hsem
    rw [h.asleep sem hsem, hframe]
    by_cases hee : e' = e
    · subst hee
      rw [update_self]
      exact iff_of_false hold hnew
    · rw [update_of_ne hee]
  case awake =>
    intro sem hsem hne
    rw [hsync] at hsem
    rw [hposting, hflushing, hframe]
    refine (h.awake sem hsem (hcnt hne)).imp_right (Or.imp_right (Or.imp_right ?_))
    rintro ⟨e', he'⟩
    by_cases hee : e' = e
    · subst hee
      exact ⟨e', by rw [update_self]; exact hactive he' hne⟩
    · exact ⟨e', by rw [update_of_ne hee]; exact he'⟩

theorem Sync.pend (h : Sync s) {e : E} {sem : Sem E} (he : s.frame e = .pending)
    (hsem : s.ulSync = some sem) : Sync (pend s e sem) := by
  have hout : e ∉ sem.queue := by
    rw [h.asleep sem hsem, he]
    intro hpending
    cases hpending
  by_cases htoken : sem.token = true
  · have hpend : Jobs.pend s e sem =
        { s.goto e .entering with ulSync := some { sem with token := false } } := by
      simp only [Jobs.pend, Sem.pend, if_pos htoken]
    rw [hpend]
    constructor
    case nodup =>
      rintro _ ⟨⟩
      exact h.nodup sem hsem
    case asleep =>
      rintro _ ⟨⟩ e'
      rw [h.asleep sem hsem]
      by_cases hee : e' = e
      · subst hee
        simp [State.goto, he]
      · simp [State.goto, hee]
    case awake =>
      rintro _ ⟨⟩ _
      exact Or.inr (Or.inr (Or.inr ⟨e, by simp [State.goto, Frame.active]⟩))
  · have hpend : Jobs.pend s e sem =
        { s.goto e .asleep with ulSync := some { sem with queue := sem.queue ++ [e] } } := by
      simp only [Jobs.pend, Sem.pend, if_neg htoken]
    rw [hpend]
    constructor
    case nodup =>
      rintro _ ⟨⟩
      exact List.nodup_append.mpr ⟨h.nodup sem hsem, List.nodup_singleton e, fun a ha b hb hab =>
        hout (List.mem_singleton.mp hb ▸ hab ▸ ha)⟩
    case asleep =>
      rintro _ ⟨⟩ e'
      rw [List.mem_append, h.asleep sem hsem, List.mem_singleton]
      by_cases hee : e' = e
      · subst hee
        simp [State.goto]
      · simp [State.goto, hee]
    case awake =>
      rintro _ ⟨⟩ hcnt
      refine (h.awake sem hsem hcnt).imp_right (Or.imp_right (Or.imp_right ?_))
      rintro ⟨e', he'⟩
      have hee : e' ≠ e := by
        rintro rfl
        rw [he] at he'
        cases he'
      exact ⟨e', by simp only [State.goto, update_of_ne hee]; exact he'⟩

theorem Sync.leave (h : Sync s) {e : E} {sem : Sem E} {f : Frame F A} (hsem : s.ulSync = some sem)
    (he : s.frame e = .asleep) (hf : f ≠ .asleep) {n : ℕ}
    (hawake : s.posting ≠ 0 → n ≠ 0 ∨ f.active = true) :
    Sync { s.goto e f with ulSync := some (sem.leave e), posting := n } := by
  constructor
  case nodup =>
    rintro _ ⟨⟩
    exact (h.nodup sem hsem).erase e
  case asleep =>
    rintro _ ⟨⟩ e'
    rw [Sem.leave, (h.nodup sem hsem).mem_erase_iff, h.asleep sem hsem]
    by_cases hee : e' = e
    · subst hee
      simp [State.goto, hf]
    · simp [State.goto, hee]
  case awake =>
    rintro _ ⟨⟩ hcnt
    rcases h.awake sem hsem hcnt with hold | hold | hold | ⟨e', hold⟩
    · exact Or.inl hold
    · rcases hawake hold with hn | hactive
      · exact Or.inr (Or.inl hn)
      · exact Or.inr (Or.inr (Or.inr ⟨e, by simpa [State.goto] using hactive⟩))
    · exact Or.inr (Or.inr (Or.inl hold))
    · have hee : e' ≠ e := by
        rintro rfl
        rw [he] at hold
        cases hold
      exact Or.inr (Or.inr (Or.inr ⟨e', by
        simp only [State.goto, update_of_ne hee]; exact hold⟩))

theorem Sync.post (h : Sync s) {sem : Sem E} (hsem : s.ulSync = some sem) (i : ℕ) :
    Sync (post s sem i) := by
  rcases post_cases (h.nodup sem hsem) i with ⟨hempty, hpost⟩ | ⟨e, he, hpost⟩
  · simp only [Jobs.post, hpost, State.wake]
    constructor
    case nodup =>
      rintro _ ⟨⟩
      exact List.nodup_nil
    case asleep =>
      rintro _ ⟨⟩ e'
      rw [← h.asleep sem hsem, hempty]
    case awake =>
      rintro _ ⟨⟩ _
      exact Or.inl rfl
  · have hentering : (Frame.entering : Frame F A) ≠ .asleep := nofun
    simp only [Jobs.post, hpost, State.wake]
    exact h.leave hsem ((h.asleep sem hsem e).mp he) hentering fun _ => Or.inr rfl

omit [DecidableEq E] in
theorem Sync.add (h : Sync s) (job : JobMsg F A) : Sync (add s job) := by
  by_cases hfull : s.jobq.uiCnt = s.jobq.uiSize
  · simp only [Jobs.add, add_full job hfull]
    exact ⟨h.nodup, h.asleep, h.awake⟩
  · have hok : (jobQueueAdd s.jobq job).1 = true := by rw [jobQueueAdd, if_neg hfull]
    simp only [Jobs.add, if_pos hok]
    refine ⟨h.nodup, h.asleep, fun sem hsem _ => Or.inr (Or.inl ?_)⟩
    have hsem' : s.ulSync = some sem := hsem
    simp [hsem']

omit [DecidableEq E] in
theorem Sync.clear (h : Sync s) : Sync (clear s) := by
  constructor
  case nodup =>
    intro sem hsem
    obtain ⟨old, hold, rfl⟩ := Option.map_eq_some_iff.mp hsem
    exact h.nodup old hold
  case asleep =>
    intro sem hsem
    obtain ⟨old, hold, rfl⟩ := Option.map_eq_some_iff.mp hsem
    exact h.asleep old hold
  case awake => exact fun _ _ _ => Or.inr (Or.inr (Or.inl (Nat.succ_ne_zero _)))

omit [DecidableEq E] in
theorem Sync.flush (h : Sync s) : Sync (flush s) :=
  ⟨h.nodup, h.asleep, fun _ _ hcnt => absurd rfl hcnt⟩

omit [DecidableEq E] in
theorem Sync.del [DecidableEq F] [DecidableEq A] (h : Sync s) (n : ℕ) (pfunc : Option F)
    (pvArg : Fin 6 → A) : Sync (del s n pfunc pvArg) :=
  ⟨h.nodup, h.asleep, h.awake⟩

structure Ok (s : State E F A w) : Prop where
  ledger : Ledger s
  sync : Sync s

theorem Ok.goto (h : Ok s) {e : E} {f : Frame F A} (hold : (s.frame e).holds = false)
    (hnew : f.holds = false) (hasleep : s.frame e ≠ .asleep) (hf : f ≠ .asleep)
    (hactive : (s.frame e).active = true → s.jobq.uiCnt ≠ 0 → f.active = true) :
    Ok (s.goto e f) where
  ledger := h.ledger.goto hold hnew
  sync := h.sync.move rfl rfl rfl rfl hasleep hf id hactive

theorem Ok.turn (h : Ok s) {e : E} (hold : (s.frame e).holds = false)
    (hasleep : s.frame e ≠ .asleep) (hcnt : s.jobq.uiCnt ≠ 0) : Ok (take s e) where
  ledger := h.ledger.take hold hcnt
  sync := by
    have hframe : (Jobs.take s e).frame = update s.frame e _ := rfl
    apply h.sync.move hframe rfl rfl rfl hasleep
    · split <;> exact nofun
    · exact fun _ => hcnt
    · intro _ _
      split <;> rfl

theorem Ok.lock (h : Ok s) {e : E} {f : Frame F A} (he : s.frame e = .entering ∨ s.frame e = .looping)
    (hnew : f.holds = false) (hf : f ≠ .asleep) :
    Ok (if s.jobq.uiCnt = 0 then s.goto e f else Jobs.take s e) := by
  have hold : (s.frame e).holds = false := by rcases he with he | he <;> rw [he] <;> rfl
  have hasleep : s.frame e ≠ .asleep := by rcases he with he | he <;> rw [he] <;> exact nofun
  by_cases hcnt : s.jobq.uiCnt = 0
  · rw [if_pos hcnt]
    exact h.goto hold hnew hasleep hf fun _ hne => absurd hcnt hne
  · rw [if_neg hcnt]
    exact h.turn hold hasleep hcnt

theorem Ok.posted (h : Ok s) {sem : Sem E} (hsem : s.ulSync = some sem) (i : ℕ) :
    Ok (post s sem i) where
  ledger := by
    rcases post_cases (h.sync.nodup sem hsem) i with ⟨-, hpost⟩ | ⟨e, he, hpost⟩
    · simp only [Jobs.post, hpost, State.wake]
      exact h.ledger.congr rfl (fun _ _ _ => Iff.rfl) rfl rfl rfl rfl
    · have hasleep := (h.sync.asleep sem hsem e).mp he
      simp only [Jobs.post, hpost, State.wake]
      refine h.ledger.congr rfl (goto_taken ?_ rfl) rfl rfl rfl rfl
      rw [hasleep]
      rfl
  sync := h.sync.post hsem i

variable [DecidableEq F] [DecidableEq A]

theorem Ok.next {a : Action E F A} {s' : State E F A w} (h : Ok s) (hstep : step s a = some s') :
    Ok s' := by
  cases step_cases hstep with
  | exec e he =>
    have hidle : (s.frame e).active = false := by rw [he]; rfl
    apply h.goto
    · rw [he]; rfl
    · split <;> rfl
    · rw [he]; exact nofun
    · split <;> exact nofun
    · intro hactive
      rw [hidle] at hactive
      exact nomatch hactive
  | pend e sem he hsem =>
    refine ⟨h.ledger.congr rfl ?_ rfl rfl rfl rfl, h.sync.pend he hsem⟩
    apply goto_taken
    · rw [he]; rfl
    · split <;> rfl
  | timeOut e sem he hsem =>
    have hidle : (Frame.idle : Frame F A) ≠ .asleep := nofun
    refine ⟨h.ledger.congr rfl ?_ rfl rfl rfl rfl, h.sync.leave hsem he hidle Or.inl⟩
    apply goto_taken
    · rw [he]; rfl
    · rfl
  | enter e he => exact h.lock (Or.inl he) rfl nofun
  | turn e he => exact h.lock (Or.inr he) rfl nofun
  | call e k job he =>
    refine ⟨h.ledger.call he, h.sync.move rfl rfl rfl rfl ?_ nofun id fun _ _ => rfl⟩
    rw [he]
    exact nofun
  | ret e he =>
    apply h.goto
    · rw [he]; rfl
    · rfl
    · rw [he]; exact nofun
    · exact nofun
    · exact fun _ _ => rfl
  | add job => exact ⟨h.ledger.add job, h.sync.add job⟩
  | post i sem hsem => exact h.posted hsem i
  | del n pfunc pvArg => exact ⟨h.ledger.del n pfunc pvArg, h.sync.del n pfunc pvArg⟩
  | clear => exact ⟨h.ledger.congr rfl (fun _ _ _ => Iff.rfl) rfl rfl rfl rfl, h.sync.clear⟩
  | flush => exact ⟨h.ledger.flush, h.sync.flush⟩

omit [DecidableEq F] [DecidableEq A] in
theorem jobs_post (sem : Sem E) (i : ℕ) : (post s sem i).jobq = s.jobq := by
  simp only [post]
  cases (sem.post i).1 <;> rfl

theorem Ok.refines {a : Action E F A} {s' : State E F A w} (h : Ok s)
    (hstep : step s a = some s') :
    Fifo s.jobq.uiSize s.jobq.jobs (event s a) s'.jobq.jobs ∧ s'.jobq.uiSize = s.jobq.uiSize := by
  have hbounded := h.ledger.bounded
  have hlock : ∀ (e : E) (f : Frame F A),
      Fifo s.jobq.uiSize s.jobq.jobs (event s (.lock e : Action E F A))
        (if s.jobq.uiCnt = 0 then s.goto e f else take s e).jobq.jobs ∧
      (if s.jobq.uiCnt = 0 then s.goto e f else take s e).jobq.uiSize = s.jobq.uiSize := by
    intro e f
    by_cases hcnt : s.jobq.uiCnt = 0
    · simp only [event, if_pos hcnt]
      exact ⟨rfl, rfl⟩
    · simp only [event, if_neg hcnt]
      exact ⟨jobs_take hbounded hcnt, rfl⟩
  cases step_cases hstep with
  | exec e | pend e | timeOut e | call e | ret e | clear | flush => exact ⟨rfl, rfl⟩
  | enter e => exact hlock e .pending
  | turn e => exact hlock e .idle
  | add job =>
    by_cases hfull : s.jobq.uiCnt = s.jobq.uiSize
    · simp only [event, add, add_full job hfull]
      exact ⟨⟨length_jobs.trans hfull, rfl⟩, rfl⟩
    · have hok : (jobQueueAdd s.jobq job).1 = true := by rw [jobQueueAdd, if_neg hfull]
      have hsize : (jobQueueAdd s.jobq job).2.uiSize = s.jobq.uiSize := by
        rw [jobQueueAdd, if_neg hfull]
      simp only [event, add, if_pos hok]
      refine ⟨⟨?_, jobs_add hbounded job hfull⟩, hsize⟩
      rw [length_jobs]
      exact Nat.lt_of_le_of_ne hbounded.cnt_le hfull
  | post i sem =>
    rw [jobs_post]
    exact ⟨rfl, rfl⟩
  | del n pfunc pvArg =>
    refine ⟨?_, rfl⟩
    simp only [event, Fifo, del, jobs_del hbounded]
    exact List.map_congr_left fun job _ => cancel_eq n pfunc pvArg job

def OwnStep (e : E) (s s' : State E F A w) : Prop :=
  ∃ a : Action E F A, a.OwnOf e ∧ step s a = some s'

theorem OwnStep.others {e : E} {s' : State E F A w} (h : OwnStep e s s') :
    (∀ e', e' ≠ e → s'.frame e' = s.frame e') ∧ s'.accepted = s.accepted ∧
      s'.cancelled = s.cancelled := by
  obtain ⟨a, ha, hstep⟩ := h
  cases step_cases hstep with
  | enter | turn =>
    obtain ha | ha | ha := ha <;> cases ha
    split <;> exact ⟨fun e' hee => update_of_ne hee _ _, rfl, rfl⟩
  | call | ret =>
    obtain ha | ha | ha := ha <;> cases ha
    exact ⟨fun e' hee => update_of_ne hee _ _, rfl, rfl⟩
  | exec | pend | timeOut | add | post | del | clear | flush =>
    obtain ha | ha | ha := ha <;> cases ha

def Frame.work : Frame F A → ℕ
  | .taken .. => 3
  | .running => 2
  | _ => 1

theorem Ok.step_held {a : Action E F A} {s' : State E F A w} (h : Ok s)
    (hstep : step s a = some s') :
    (∃ e, a = .lock e ∧ (s.frame e).holds = false ∧ s.jobq.uiCnt ≠ 0 ∧ s' = take s e) ∨
    (∃ e k job, a = .call e ∧ s.frame e = .taken k job ∧ s' = call s e k job) ∨
    (s'.started = s.started ∧
      ∀ e k job, s'.frame e = .taken k job ↔ s.frame e = .taken k job) := by
  have hsame : ∀ (e : E) (f : Frame F A), (s.frame e).holds = false → f.holds = false →
      ∀ e' k job, (s.goto e f).frame e' = .taken k job ↔ s.frame e' = .taken k job :=
    fun _ _ hold hnew => goto_taken hold hnew
  have hlock : ∀ (e : E) (f : Frame F A), (s.frame e).holds = false → f.holds = false →
      (s.jobq.uiCnt ≠ 0 ∧ (if s.jobq.uiCnt = 0 then s.goto e f else take s e) = take s e) ∨
      ((if s.jobq.uiCnt = 0 then s.goto e f else take s e).started = s.started ∧
        ∀ e' k job, (if s.jobq.uiCnt = 0 then s.goto e f else take s e).frame e' = .taken k job ↔
          s.frame e' = .taken k job) := by
    intro e f hold hnew
    by_cases hcnt : s.jobq.uiCnt = 0
    · rw [if_pos hcnt]
      exact Or.inr ⟨rfl, hsame e f hold hnew⟩
    · rw [if_neg hcnt]
      exact Or.inl ⟨hcnt, rfl⟩
  cases step_cases hstep with
  | exec e he =>
    refine Or.inr (Or.inr ⟨rfl, hsame e _ ?_ ?_⟩)
    · rw [he]; rfl
    · split <;> rfl
  | pend e sem he =>
    refine Or.inr (Or.inr ⟨rfl, hsame e (if sem.token then .entering else .asleep) ?_ ?_⟩)
    · rw [he]; rfl
    · split <;> rfl
  | timeOut e sem he =>
    refine Or.inr (Or.inr ⟨rfl, hsame e .idle ?_ rfl⟩)
    rw [he]
    rfl
  | enter e he =>
    have hold : (s.frame e).holds = false := by rw [he]; rfl
    rcases hlock e .pending hold rfl with ⟨hcnt, htake⟩ | hrest
    · exact Or.inl ⟨e, rfl, hold, hcnt, htake⟩
    · exact Or.inr (Or.inr hrest)
  | turn e he =>
    have hold : (s.frame e).holds = false := by rw [he]; rfl
    rcases hlock e .idle hold rfl with ⟨hcnt, htake⟩ | hrest
    · exact Or.inl ⟨e, rfl, hold, hcnt, htake⟩
    · exact Or.inr (Or.inr hrest)
  | call e k job he => exact Or.inr (Or.inl ⟨e, k, job, rfl, he, rfl⟩)
  | ret e he =>
    refine Or.inr (Or.inr ⟨rfl, hsame e .looping ?_ rfl⟩)
    rw [he]
    rfl
  | add job =>
    have hadd : (add s job).started = s.started ∧ (add s job).frame = s.frame := by
      unfold add
      by_cases hok : (jobQueueAdd s.jobq job).1 = true
      · rw [if_pos hok]
        exact ⟨rfl, rfl⟩
      · rw [if_neg hok]
        exact ⟨rfl, rfl⟩
    refine Or.inr (Or.inr ⟨hadd.1, fun e k job' => ?_⟩)
    rw [hadd.2]
  | post i sem hsem =>
    right; right
    rcases post_cases (h.sync.nodup sem hsem) i with ⟨-, hpost⟩ | ⟨e, he, hpost⟩
    · simp only [post, hpost, State.wake, implies_true, and_self]
    · have hasleep := (h.sync.asleep sem hsem e).mp he
      simp only [post, hpost, State.wake]
      refine ⟨rfl, hsame e .entering ?_ rfl⟩
      rw [hasleep]
      rfl
  | del | clear | flush => exact Or.inr (Or.inr ⟨rfl, fun _ _ _ => Iff.rfl⟩)

structure Ordered (s : State E F A w) : Prop where
  started : s.StartsInOrder
  after : ∀ e k job, s.frame e = .taken k job → ∀ k' ∈ s.started.map Prod.fst, k' < k
  single : ∀ e e' k k' job job', s.frame e = .taken k job → s.frame e' = .taken k' job' → e = e'

theorem Ordered.next {a : Action E F A} {s' : State E F A w} (h : Ordered s) (hok : Ok s)
    (ha : OneAtATime s a) (hstep : step s a = some s') : Ordered s' := by
  rcases hok.step_held hstep with ⟨e, rfl, -, -, rfl⟩ | ⟨e, k, job, rfl, he, rfl⟩ | ⟨hstarted, hframe⟩
  · -- nobody else holds a job, and all that were called had been taken before
    have hone : ∀ e' k job, (take s e).frame e' = .taken k job → e' = e ∧ k = s.first := by
      intro e' k job he'
      by_cases hee : e' = e
      · subst hee
        simp only [take, State.goto, update_self] at he'
        split at he'
        next => exact ⟨rfl, (Frame.taken.inj he').1.symm⟩
        next => cases he'
      · simp only [take, State.goto, update_of_ne hee] at he'
        have hnot := ha e'
        rw [he'] at hnot
        cases hnot
    constructor
    case started => exact h.started
    case after =>
      intro e' k job he' k' hk'
      obtain ⟨⟨k'', job'⟩, hmem, rfl⟩ := List.mem_map.mp hk'
      rw [(hone e' k job he').2]
      exact hok.ledger.before _ (hok.ledger.started _ _ hmem).2
    case single =>
      intro e₁ e₂ k k' job job' h₁ h₂
      rw [(hone e₁ k job h₁).1, (hone e₂ k' job' h₂).1]
  · have hnone : ∀ e' k' job', (call s e k job).frame e' ≠ .taken k' job' := by
      intro e' k' job' he'
      by_cases hee : e' = e
      · subst hee
        simp [call, State.goto] at he'
      · simp only [call, State.goto, update_of_ne hee] at he'
        exact hee (h.single e' e k' k job' job he' he)
    constructor
    case started =>
      rw [State.StartsInOrder, show (call s e k job).started = s.started ++ [(k, job)] from rfl,
        List.map_append, List.pairwise_append]
      refine ⟨h.started, List.pairwise_singleton _ _, fun a ha' b hb => ?_⟩
      obtain rfl : b = k := by simpa using hb
      exact h.after e b job he a ha'
    case after => exact fun e' k' job' he' => absurd he' (hnone e' k' job')
    case single => exact fun e₁ _ k' _ job' _ h₁ => absurd h₁ (hnone e₁ k' job')
  · constructor
    case started => rw [State.StartsInOrder, hstarted]; exact h.started
    case after => simpa only [hframe, hstarted] using h.after
    case single => simpa only [hframe] using h.single

omit [DecidableEq E] [DecidableEq F] [DecidableEq A] in
theorem ok_create (pjobmsg : ℕ → JobMsg F A) (uiQueueSize : ℕ) (bNonBlock : Bool) :
    Ok (State.create pjobmsg uiQueueSize bNonBlock : State E F A w) where
  ledger :=
    { bounded := bounded_init pjobmsg uiQueueSize
      enough := Nat.zero_le _
      entries := fun k hk => absurd hk (Nat.not_lt_zero k)
      cancelled := nofun
      inOrder := List.Pairwise.nil
      before := nofun
      held := nofun
      one := nofun
      started := nofun
      nodup := List.nodup_nil
      done := fun k _ _ hk => absurd hk (Nat.not_lt_zero k) }
  sync :=
    { nodup := by
        intro sem hsem
        cases bNonBlock with
        | true => exact nomatch hsem
        | false =>
          obtain rfl := Option.some.inj hsem
          exact List.nodup_nil
      asleep := by
        intro sem hsem e
        cases bNonBlock with
        | true => exact nomatch hsem
        | false =>
          obtain rfl := Option.some.inj hsem
          exact iff_of_false List.not_mem_nil nofun
      awake := fun _ _ hcnt => absurd rfl hcnt }

def Holds (n : ℕ) (s : State E F A w) (q : List (JobMsg F A)) : Prop :=
  Ok s ∧ s.jobq.uiSize = n ∧ q = s.jobq.jobs

omit [DecidableEq E] [DecidableEq F] [DecidableEq A] in
theorem Holds.create (pjobmsg : ℕ → JobMsg F A) (uiQueueSize : ℕ) (bNonBlock : Bool) :
    Holds uiQueueSize (State.create pjobmsg uiQueueSize bNonBlock : State E F A w) [] :=
  ⟨ok_create pjobmsg uiQueueSize bNonBlock, rfl, rfl⟩

theorem Holds.next {n : ℕ} {q : List (JobMsg F A)} {a : Action E F A} {s' : State E F A w}
    (h : Holds n s q) (hstep : step s a = some s') :
    ∃ q', Fifo n q (event s a) q' ∧ Holds n s' q' := by
  obtain ⟨hok, rfl, rfl⟩ := h
  obtain ⟨hfifo, hsize⟩ := hok.refines hstep
  exact ⟨s'.jobq.jobs, hfifo, hok.next hstep, hsize, rfl⟩

end SylixOS.Jobs
