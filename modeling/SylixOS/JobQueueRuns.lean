import SylixOS.JobQueue
import Mathlib.Data.Fintype.Basic

/-! Runs of a job queue: any number of calls of `_jobQueueExec`, and jobs that
are added, cancelled and flushed between their sections under the lock, by a
job as well as by anybody else. -/

namespace SylixOS.Jobs
open RingBuffer BinarySemaphore StepRuns Function

variable {E F A : Type*} [DecidableEq E] [DecidableEq F] [DecidableEq A] {w : ℕ}

/-- Where a call of `_jobQueueExec` is: not begun or over; in front of `API_SemaphoreBPend` or
asleep in it; in front of the lock, with the token or in the loop; with a copied job that it has
still to call, or inside that job. -/
inductive Frame (F A : Type*) where
  | idle
  | pending
  | asleep
  | entering
  | looping
  | taken (k : ℕ) (job : JobMsg F A)
  | running

def Frame.active : Frame F A → Bool
  | .entering | .looping | .taken .. | .running => true
  | _ => false

def Frame.holds : Frame F A → Bool
  | .taken .. => true
  | _ => false

structure State (E F A : Type*) (w : ℕ) where
  jobq : JobQueue F A w
  /-- `JOBQ_ulSync`, unless the queue was made with `bNonBlock` -/
  ulSync : Option (Sem E)
  frame : E → Frame F A
  /-- Calls of `_jobQueueAdd` in front of their post, and of `_jobQueueFlush` in front of the
  lock. -/
  posting : ℕ
  flushing : ℕ
  /-- The jobs that were accepted, and which of these were cancelled by a later call that asks for
  it; the jobs that were taken out of the queue, and those whose function was called (ghost). -/
  accepted : List (JobMsg F A)
  cancelled : ℕ → Bool
  taken : List ℕ
  started : List (ℕ × JobMsg F A)

/-- `_jobQueueCreate`. With `bNonBlock` there is no semaphore; `_jobQueueInit` leaves `JOBQ_ulSync` as it
finds it then. -/
def State.create (pjobmsg : ℕ → JobMsg F A) (uiQueueSize : ℕ) (bNonBlock : Bool) :
    State E F A w where
  jobq := jobQueueInit pjobmsg uiQueueSize
  ulSync := if bNonBlock then none else some ⟨false, []⟩
  frame := fun _ => .idle
  posting := 0
  flushing := 0
  accepted := []
  cancelled := fun _ => false
  taken := []
  started := []

variable (s : State E F A w)

def State.first : ℕ := s.accepted.length - s.jobq.uiCnt

def State.Queued (k : ℕ) : Prop := s.first ≤ k ∧ k < s.accepted.length

instance (k : ℕ) : Decidable (s.Queued k) := inferInstanceAs (Decidable (_ ∧ _))

def State.goto (e : E) (frame : Frame F A) : State E F A w :=
  { s with frame := update s.frame e frame }

def pend (e : E) (sem : Sem E) : State E F A w :=
  { s.goto e (if sem.token then .entering else .asleep) with ulSync := some (sem.pend e).2 }

def timeOut (e : E) (sem : Sem E) : State E F A w :=
  { s.goto e .idle with ulSync := some (sem.leave e) }

def take (e : E) : State E F A w :=
  let r := jobQueueTake s.jobq
  { s.goto e (if r.1.pfuncFunc.isSome then .taken s.first r.1 else .looping) with
    jobq := r.2
    taken := s.taken ++ [s.first] }

def call (e : E) (k : ℕ) (job : JobMsg F A) : State E F A w :=
  { s.goto e .running with started := s.started ++ [(k, job)] }

def add (job : JobMsg F A) : State E F A w :=
  let r := jobQueueAdd s.jobq job
  if r.1 then
    { s with
      jobq := r.2
      posting := s.posting + if s.ulSync.isSome then 1 else 0
      accepted := s.accepted ++ [job] }
  else { s with jobq := r.2 }

def State.wake : Option E → State E F A w
  | none => s
  | some e => s.goto e .entering

def post (sem : Sem E) (i : ℕ) : State E F A w :=
  let r := sem.post i
  { s.wake r.1 with
    ulSync := some r.2
    posting := s.posting - 1 }

def del (uiMatchArgNum : ℕ) (pfunc : Option F) (pvArg : Fin 6 → A) : State E F A w :=
  { s with
    jobq := jobQueueDel s.jobq uiMatchArgNum pfunc pvArg
    cancelled := fun k => s.cancelled k ||
      (decide (s.Queued k) &&
        (s.accepted[k]?).any fun job => decide (Matches uiMatchArgNum pfunc pvArg job)) }

def clear : State E F A w :=
  { s with
    ulSync := s.ulSync.map Sem.clear
    flushing := s.flushing + 1 }

def flush : State E F A w :=
  { s with
    jobq := jobQueueFlush s.jobq
    flushing := s.flushing - 1
    cancelled := fun k => s.cancelled k || decide (s.Queued k) }

inductive Action (E F A : Type*) where
  | exec (e : E)
  | pend (e : E)
  | timeOut (e : E)
  | lock (e : E)
  | call (e : E)
  | ret (e : E)
  | add (job : JobMsg F A)
  | post (i : ℕ)
  | del (uiMatchArgNum : ℕ) (pfunc : Option F) (pvArg : Fin 6 → A)
  | clear
  | flush

def step : Action E F A → Option (State E F A w)
  | .exec e =>
    match s.frame e with
    | .idle => some (s.goto e (if s.ulSync.isSome then .pending else .looping))
    | _ => none
  | .pend e =>
    match s.frame e, s.ulSync with
    | .pending, some sem => some (pend s e sem)
    | _, _ => none
  | .timeOut e =>
    match s.frame e, s.ulSync with
    | .asleep, some sem => some (timeOut s e sem)
    | _, _ => none
  | .lock e =>
    match s.frame e with
    | .entering => some (if s.jobq.uiCnt = 0 then s.goto e .pending else take s e)
    | .looping => some (if s.jobq.uiCnt = 0 then s.goto e .idle else take s e)
    | _ => none
  | .call e =>
    match s.frame e with
    | .taken k job => some (call s e k job)
    | _ => none
  | .ret e =>
    match s.frame e with
    | .running => some (s.goto e .looping)
    | _ => none
  | .add job => some (add s job)
  | .post i =>
    match s.posting, s.ulSync with
    | _ + 1, some sem => some (post s sem i)
    | _, _ => none
  | .del n pfunc pvArg => some (del s n pfunc pvArg)
  | .clear => some (clear s)
  | .flush => if s.flushing = 0 then none else some (flush s)

/-- What a step does, and where it is enabled. -/
inductive Steps : Action E F A → State E F A w → Prop where
  | exec (e : E) (he : s.frame e = .idle) :
      Steps (.exec e) (s.goto e (if s.ulSync.isSome then .pending else .looping))
  | pend (e : E) (sem : Sem E) (he : s.frame e = .pending) (hsem : s.ulSync = some sem) :
      Steps (.pend e) (pend s e sem)
  | timeOut (e : E) (sem : Sem E) (he : s.frame e = .asleep) (hsem : s.ulSync = some sem) :
      Steps (.timeOut e) (timeOut s e sem)
  | enter (e : E) (he : s.frame e = .entering) :
      Steps (.lock e) (if s.jobq.uiCnt = 0 then s.goto e .pending else take s e)
  | turn (e : E) (he : s.frame e = .looping) :
      Steps (.lock e) (if s.jobq.uiCnt = 0 then s.goto e .idle else take s e)
  | call (e : E) (k : ℕ) (job : JobMsg F A) (he : s.frame e = .taken k job) :
      Steps (.call e) (call s e k job)
  | ret (e : E) (he : s.frame e = .running) : Steps (.ret e) (s.goto e .looping)
  | add (job : JobMsg F A) : Steps (.add job) (add s job)
  | post (i : ℕ) (sem : Sem E) (hsem : s.ulSync = some sem) : Steps (.post i) (post s sem i)
  | del (n : ℕ) (pfunc : Option F) (pvArg : Fin 6 → A) :
      Steps (.del n pfunc pvArg) (del s n pfunc pvArg)
  | clear : Steps .clear (clear s)
  | flush : Steps .flush (flush s)

variable {s} in
theorem step_cases {a : Action E F A} {s' : State E F A w} (hstep : step s a = some s') :
    Steps s a s' := by
  cases a with
  | add job | del n pfunc pvArg | clear =>
    cases hstep
    constructor
  | exec e | pend e | timeOut e | lock e | call e | ret e | post i | flush =>
    simp only [step] at hstep
    split at hstep <;> cases hstep <;> constructor <;> assumption

inductive Event (F A : Type*) where
  | accept (job : JobMsg F A)
  | refuse (job : JobMsg F A)
  | cancel (uiMatchArgNum : ℕ) (pfunc : Option F) (pvArg : Fin 6 → A)
  | empty
  | take (job : JobMsg F A)
  | none

/-- A list of at most `n` jobs, first in, first out, with cancelled jobs left in their place. -/
def Fifo (n : ℕ) (jobs : List (JobMsg F A)) : Event F A → List (JobMsg F A) → Prop
  | .accept job, jobs' => jobs.length < n ∧ jobs' = jobs ++ [job]
  | .refuse _, jobs' => jobs.length = n ∧ jobs' = jobs
  | .cancel k pfunc pvArg, jobs' =>
    jobs' = jobs.map fun job => if Matches k pfunc pvArg job then job.clear else job
  | .empty, jobs' => jobs' = []
  | .take job, jobs' => jobs = job :: jobs'
  | .none, jobs' => jobs' = jobs

def event : Action E F A → Event F A
  | .add job => if (jobQueueAdd s.jobq job).1 then .accept job else .refuse job
  | .del n pfunc pvArg => .cancel n pfunc pvArg
  | .flush => .empty
  | .lock _ => if s.jobq.uiCnt = 0 then .none else .take (jobQueueTake s.jobq).1
  | _ => .none

variable {s}

def State.Live (s : State E F A w) (k : ℕ) (job : JobMsg F A) : Prop :=
  s.accepted[k]? = some job ∧ job.pfuncFunc ≠ none ∧ s.cancelled k = false

/-- Exactly one of: the job is queued; one call has it and will call its function; its function
was called, once. -/
inductive State.Once (s : State E F A w) (k : ℕ) (job : JobMsg F A) : Prop where
  | queued (hqueued : s.Queued k) (hheld : ∀ e job', s.frame e ≠ .taken k job')
      (hstarted : (s.started.map Prod.fst).count k = 0)
  | held (hqueued : ¬s.Queued k) (hheld : ∃ e, ∀ e' job', s.frame e' = .taken k job' ↔
      e' = e ∧ job' = job) (hstarted : (s.started.map Prod.fst).count k = 0)
  | started (hqueued : ¬s.Queued k) (hheld : ∀ e job', s.frame e ≠ .taken k job')
      (hstarted : (s.started.map Prod.fst).count k = 1) (hjob : (k, job) ∈ s.started)

def Action.OwnOf (e : E) (a : Action E F A) : Prop := a = .lock e ∨ a = .call e ∨ a = .ret e

def State.StartsInOrder (s : State E F A w) : Prop := (s.started.map Prod.fst).Pairwise (· < ·)

/-- No call takes a job while another one has still to call its own. -/
def OneAtATime (s : State E F A w) : Action E F A → Prop
  | .lock _ => ∀ e, (s.frame e).holds = false
  | _ => True

instance [Fintype E] (s : State E F A w) : ∀ a, Decidable (OneAtATime s a)
  | .lock _ => inferInstanceAs (Decidable (∀ e, (s.frame e).holds = false))
  | .exec _ | .pend _ | .timeOut _ | .call _ | .ret _ | .add _ | .post _ | .del .. | .clear
  | .flush => isTrue trivial

def State.entry (s : State E F A w) (k : ℕ) : Option (JobMsg F A) :=
  (s.accepted[k]?).map fun job => if s.cancelled k then job.clear else job

structure Ledger (s : State E F A w) : Prop where
  bounded : s.jobq.Bounded
  enough : s.jobq.uiCnt ≤ s.accepted.length
  entries : ∀ k, k < s.jobq.uiCnt → s.jobq.jobs[k]? = s.entry (s.first + k)
  cancelled : ∀ k, s.cancelled k = true → k < s.accepted.length
  inOrder : s.taken.Pairwise (· < ·)
  before : ∀ k ∈ s.taken, k < s.first
  held : ∀ e k job, s.frame e = .taken k job → s.Live k job ∧ k ∈ s.taken ∧
    k ∉ s.started.map Prod.fst
  one : ∀ e e' k job job', s.frame e = .taken k job → s.frame e' = .taken k job' → e = e'
  started : ∀ k job, (k, job) ∈ s.started → s.Live k job ∧ k ∈ s.taken
  nodup : (s.started.map Prod.fst).Nodup
  done : ∀ k job, s.Live k job → k < s.first →
    (∃ e, s.frame e = .taken k job) ∨ (k, job) ∈ s.started

omit [DecidableEq E] [DecidableEq F] [DecidableEq A]

theorem State.Live.unique {k : ℕ} {job job' : JobMsg F A} (h : s.Live k job)
    (h' : s.Live k job') : job' = job :=
  Option.some.inj (h'.1.symm.trans h.1)

theorem Ledger.congr {s' : State E F A w} (h : Ledger s) (hjobq : s'.jobq = s.jobq)
    (hframe : ∀ e k job, s'.frame e = .taken k job ↔ s.frame e = .taken k job)
    (haccepted : s'.accepted = s.accepted) (hcancelled : s'.cancelled = s.cancelled)
    (htaken : s'.taken = s.taken) (hstarted : s'.started = s.started) : Ledger s' := by
  have hfirst : s'.first = s.first := by rw [State.first, State.first, haccepted, hjobq]
  have hlive : ∀ k job, s'.Live k job ↔ s.Live k job := by
    intro k job
    rw [State.Live, State.Live, haccepted, hcancelled]
  have hentry : ∀ k, s'.entry k = s.entry k := by
    intro k
    rw [State.entry, State.entry, haccepted, hcancelled]
  constructor
  case bounded => simpa only [hjobq] using h.bounded
  case enough => simpa only [hjobq, haccepted] using h.enough
  case entries => simpa only [hjobq, hfirst, hentry] using h.entries
  case cancelled => simpa only [haccepted, hcancelled] using h.cancelled
  case inOrder => simpa only [htaken] using h.inOrder
  case before => simpa only [htaken, hfirst] using h.before
  case held => simpa only [hframe, hlive, htaken, hstarted] using h.held
  case one => simpa only [hframe] using h.one
  case started => simpa only [hlive, htaken, hstarted] using h.started
  case nodup => simpa only [hstarted] using h.nodup
  case done => simpa only [hframe, hlive, hfirst, hstarted] using h.done

theorem Ledger.once (h : Ledger s) {k : ℕ} {job : JobMsg F A} (hlive : s.Live k job) :
    s.Once k job := by
  have hlen : k < s.accepted.length := (List.getElem?_eq_some_iff.mp hlive.1).1
  by_cases hq : s.Queued k
  · have hnot : k ∉ s.taken := fun hmem => absurd (h.before k hmem) (Nat.not_lt.mpr hq.1)
    apply State.Once.queued hq
    · intro e job' he
      exact hnot (h.held e k job' he).2.1
    · rw [List.count_eq_zero]
      intro hmem
      obtain ⟨⟨k', job'⟩, hstarted, rfl⟩ := List.mem_map.mp hmem
      exact hnot (h.started _ _ hstarted).2
  · have hlt : k < s.first := by
      by_contra hle
      exact hq ⟨Nat.not_lt.mp hle, hlen⟩
    rcases h.done k job hlive hlt with ⟨e, he⟩ | hmem
    · apply State.Once.held hq ⟨e, ?_⟩
      · rw [List.count_eq_zero]
        exact (h.held e k job he).2.2
      · intro e' job'
        constructor
        · intro he'
          exact ⟨h.one e' e k job' job he' he, hlive.unique (h.held e' k job' he').1⟩
        · rintro ⟨rfl, rfl⟩
          exact he
    · have hfst : k ∈ s.started.map Prod.fst := List.mem_map.mpr ⟨(k, job), hmem, rfl⟩
      apply State.Once.started hq _ (List.count_eq_one_of_mem h.nodup hfst) hmem
      intro e job' he
      exact (h.held e k job' he).2.2 hfst

theorem Ledger.front (h : Ledger s) (hcnt : s.jobq.uiCnt ≠ 0) :
    some (jobQueueTake s.jobq).1 = s.entry s.first := by
  have hentry := h.entries 0 (Nat.pos_of_ne_zero hcnt)
  rw [jobs_take h.bounded hcnt, Nat.add_zero] at hentry
  exact hentry

theorem Ledger.front_live (h : Ledger s) (hcnt : s.jobq.uiCnt ≠ 0) {job : JobMsg F A} :
    s.Live s.first job ↔ (jobQueueTake s.jobq).1.pfuncFunc.isSome ∧ (jobQueueTake s.jobq).1 = job := by
  have hfront := h.front hcnt
  generalize (jobQueueTake s.jobq).1 = m at hfront
  rw [State.entry] at hfront
  obtain ⟨job', hjob', hm⟩ := Option.map_eq_some_iff.mp hfront.symm
  unfold State.Live
  by_cases hc : s.cancelled s.first = true
  · rw [if_pos hc] at hm
    simp [hc, ← hm, JobMsg.clear]
  · rw [if_neg hc] at hm
    rw [hjob', ← hm]
    simp only [hc, Option.some.injEq, Option.isSome_iff_ne_none]
    constructor
    · rintro ⟨rfl, hfunc, -⟩
      exact ⟨hfunc, rfl⟩
    · rintro ⟨hfunc, rfl⟩
      exact ⟨rfl, hfunc, by simp⟩

variable [DecidableEq E]

theorem goto_taken {e : E} {f : Frame F A} (hold : (s.frame e).holds = false)
    (hnew : f.holds = false) (e' : E) (k : ℕ) (job : JobMsg F A) :
    (s.goto e f).frame e' = .taken k job ↔ s.frame e' = .taken k job := by
  by_cases he : e' = e
  · subst he
    simp only [State.goto, update_self]
    constructor
    · intro hf
      rw [hf] at hnew
      exact nomatch hnew
    · intro hf
      rw [hf] at hold
      exact nomatch hold
  · simp only [State.goto, update_of_ne he]

theorem Ledger.goto (h : Ledger s) {e : E} {f : Frame F A} (hold : (s.frame e).holds = false)
    (hnew : f.holds = false) : Ledger (s.goto e f) :=
  h.congr rfl (goto_taken hold hnew) rfl rfl rfl rfl

omit [DecidableEq E] in
theorem Ledger.not_started (h : Ledger s) {k : ℕ} (hk : k ∉ s.taken) :
    k ∉ s.started.map Prod.fst := by
  intro hmem
  obtain ⟨⟨k', job⟩, hstarted, rfl⟩ := List.mem_map.mp hmem
  exact hk (h.started _ _ hstarted).2

theorem Ledger.take (h : Ledger s) {e : E} (hold : (s.frame e).holds = false)
    (hcnt : s.jobq.uiCnt ≠ 0) : Ledger (take s e) := by
  have henough := h.enough
  have hfirst : (Jobs.take s e).first = s.first + 1 := by
    simp only [State.first, Jobs.take, jobQueueTake, State.goto]
    omega
  have hnew : s.first ∉ s.taken := fun hmem => absurd (h.before _ hmem) (Nat.lt_irrefl _)
  have hframe : ∀ e' k job, (Jobs.take s e).frame e' = .taken k job →
      s.frame e' = .taken k job ∨ e' = e ∧ k = s.first ∧ s.Live k job := by
    intro e' k job he
    by_cases hee : e' = e
    · subst hee
      simp only [Jobs.take, State.goto, update_self] at he
      split at he
      next hsome =>
        obtain ⟨rfl, rfl⟩ := Frame.taken.inj he
        exact Or.inr ⟨rfl, rfl, (h.front_live hcnt).mpr ⟨hsome, rfl⟩⟩
      next => cases he
    · simp only [Jobs.take, State.goto, update_of_ne hee] at he
      exact Or.inl he
  have hkeep : ∀ e' k job, s.frame e' = .taken k job → (Jobs.take s e).frame e' = .taken k job := by
    intro e' k job he
    have hee : e' ≠ e := by
      rintro rfl
      rw [he] at hold
      cases hold
    simp only [Jobs.take, State.goto, update_of_ne hee]
    exact he
  constructor
  case bounded => exact h.bounded.take hcnt
  case enough =>
    simp only [Jobs.take, jobQueueTake, State.goto]
    omega
  case entries =>
    intro k hk
    have hlt : k + 1 < s.jobq.uiCnt := by
      simp only [Jobs.take, jobQueueTake] at hk
      omega
    have hentry := h.entries (k + 1) hlt
    rw [jobs_take h.bounded hcnt, List.getElem?_cons_succ] at hentry
    rw [hfirst, Nat.add_right_comm, Nat.add_assoc]
    exact hentry
  case cancelled => exact h.cancelled
  case inOrder =>
    rw [show (Jobs.take s e).taken = s.taken ++ [s.first] from rfl, List.pairwise_append]
    refine ⟨h.inOrder, List.pairwise_singleton _ _, fun k hk k' hk' => ?_⟩
    rw [List.mem_singleton.mp hk']
    exact h.before k hk
  case before =>
    intro k hk
    rw [hfirst]
    rcases List.mem_append.mp hk with hk | hk
    · exact Nat.lt_succ_of_lt (h.before k hk)
    · rw [List.mem_singleton.mp hk]
      exact Nat.lt_succ_self _
  case held =>
    intro e' k job he
    rcases hframe e' k job he with he | ⟨-, rfl, hlive⟩
    · obtain ⟨hlive, htaken, hstarted⟩ := h.held e' k job he
      exact ⟨hlive, List.mem_append_left _ htaken, hstarted⟩
    · exact ⟨hlive, List.mem_append_right _ (List.mem_singleton_self _), h.not_started hnew⟩
  case one =>
    intro e₁ e₂ k job job' h₁ h₂
    rcases hframe e₁ k job h₁ with hold₁ | ⟨rfl, rfl, -⟩
    · rcases hframe e₂ k job' h₂ with hold₂ | ⟨rfl, rfl, -⟩
      · exact h.one e₁ e₂ k job job' hold₁ hold₂
      · exact absurd (h.held e₁ _ job hold₁).2.1 hnew
    · rcases hframe e₂ _ job' h₂ with hold₂ | ⟨rfl, -, -⟩
      · exact absurd (h.held e₂ _ job' hold₂).2.1 hnew
      · rfl
  case started =>
    intro k job hmem
    obtain ⟨hlive, htaken⟩ := h.started k job hmem
    exact ⟨hlive, List.mem_append_left _ htaken⟩
  case nodup => exact h.nodup
  case done =>
    intro k job hlive hlt
    rw [hfirst] at hlt
    rcases Nat.lt_succ_iff_lt_or_eq.mp hlt with hlt | rfl
    · rcases h.done k job hlive hlt with ⟨e', he'⟩ | hmem
      · exact Or.inl ⟨e', hkeep e' k job he'⟩
      · exact Or.inr hmem
    · obtain ⟨hsome, rfl⟩ := (h.front_live hcnt).mp hlive
      left
      refine ⟨e, ?_⟩
      simp only [Jobs.take, State.goto, update_self, if_pos hsome]

theorem Ledger.call (h : Ledger s) {e : E} {k : ℕ} {job : JobMsg F A}
    (he : s.frame e = .taken k job) : Ledger (call s e k job) := by
  obtain ⟨hlive, htaken, hstarted⟩ := h.held e k job he
  have hframe : ∀ e' k' job', (Jobs.call s e k job).frame e' = .taken k' job' ↔
      e' ≠ e ∧ s.frame e' = .taken k' job' := by
    intro e' k' job'
    by_cases hee : e' = e
    · subst hee
      simp [Jobs.call, State.goto]
    · simp [Jobs.call, State.goto, hee]
  constructor
  case bounded => exact h.bounded
  case enough => exact h.enough
  case entries => exact h.entries
  case cancelled => exact h.cancelled
  case inOrder => exact h.inOrder
  case before => exact h.before
  case held =>
    intro e' k' job' he'
    obtain ⟨hee, hold⟩ := (hframe e' k' job').mp he'
    obtain ⟨hlive', htaken', hstarted'⟩ := h.held e' k' job' hold
    refine ⟨hlive', htaken', ?_⟩
    rw [show (Jobs.call s e k job).started = s.started ++ [(k, job)] from rfl, List.map_append,
      List.mem_append]
    rintro (hmem | hmem)
    · exact hstarted' hmem
    · obtain rfl : k' = k := by simpa using hmem
      exact hee (h.one e' e k' job' job hold he)
  case one =>
    intro e₁ e₂ k' job₁ job₂ h₁ h₂
    exact h.one e₁ e₂ k' job₁ job₂ ((hframe e₁ k' job₁).mp h₁).2 ((hframe e₂ k' job₂).mp h₂).2
  case started =>
    intro k' job' hmem
    rcases List.mem_append.mp hmem with hmem | hmem
    · exact h.started k' job' hmem
    · obtain ⟨rfl, rfl⟩ := Prod.mk.inj (List.mem_singleton.mp hmem)
      exact ⟨hlive, htaken⟩
  case nodup =>
    rw [show (Jobs.call s e k job).started = s.started ++ [(k, job)] from rfl, List.map_append,
      List.nodup_append]
    refine ⟨h.nodup, List.nodup_singleton _, fun a ha b hb hab => ?_⟩
    obtain rfl : b = k := by simpa using hb
    exact hstarted (hab ▸ ha)
  case done =>
    intro k' job' hlive' hlt
    rcases h.done k' job' hlive' hlt with ⟨e', he'⟩ | hmem
    · by_cases hee : e' = e
      · subst hee
        obtain ⟨rfl, rfl⟩ := Frame.taken.inj (he.symm.trans he')
        exact Or.inr (List.mem_append_right _ (List.mem_singleton_self _))
      · exact Or.inl ⟨e', (hframe e' k' job').mpr ⟨hee, he'⟩⟩
    · exact Or.inr (List.mem_append_left _ hmem)

omit [DecidableEq E] in
theorem Ledger.requeue (h : Ledger s) {s' : State E F A w} (hbounded : s'.jobq.Bounded)
    (henough : s'.jobq.uiCnt ≤ s'.accepted.length)
    (hentries : ∀ k, k < s'.jobq.uiCnt → s'.jobq.jobs[k]? = s'.entry (s'.first + k))
    (hcancelled : ∀ k, s'.cancelled k = true → k < s'.accepted.length)
    (hfirst : s.first ≤ s'.first)
    (hlive : ∀ k job, k < s'.first → (s'.Live k job ↔ s.Live k job ∧ k < s.first))
    (hframe : s'.frame = s.frame) (htaken : s'.taken = s.taken)
    (hstarted : s'.started = s.started) : Ledger s' := by
  have hleft : ∀ k job, s.Live k job → k ∈ s.taken → s'.Live k job := by
    intro k job hold hmem
    have hlt := h.before k hmem
    exact (hlive k job (Nat.lt_of_lt_of_le hlt hfirst)).mpr ⟨hold, hlt⟩
  constructor
  case bounded => exact hbounded
  case enough => exact henough
  case entries => exact hentries
  case cancelled => exact hcancelled
  case inOrder => rw [htaken]; exact h.inOrder
  case before =>
    intro k hk
    rw [htaken] at hk
    exact Nat.lt_of_lt_of_le (h.before k hk) hfirst
  case held =>
    intro e k job he
    rw [hframe] at he
    obtain ⟨hold, hmem, hnot⟩ := h.held e k job he
    rw [htaken, hstarted]
    exact ⟨hleft k job hold hmem, hmem, hnot⟩
  case one => rw [hframe]; exact h.one
  case started =>
    intro k job hmem
    rw [hstarted] at hmem
    obtain ⟨hold, hmem⟩ := h.started k job hmem
    rw [htaken]
    exact ⟨hleft k job hold hmem, hmem⟩
  case nodup => rw [hstarted]; exact h.nodup
  case done =>
    intro k job hnew hlt
    obtain ⟨hold, hlt⟩ := (hlive k job hlt).mp hnew
    rw [hframe, hstarted]
    exact h.done k job hold hlt

omit [DecidableEq E] in
theorem Ledger.lost (h : Ledger s) (lost : BitVec w) :
    Ledger { s with jobq := { s.jobq with ulLost := lost } } :=
  h.requeue (h.bounded.lost lost) h.enough h.entries h.cancelled (Nat.le_refl _)
    (fun _ _ hlt => ⟨fun hlive => ⟨hlive, hlt⟩, And.left⟩) rfl rfl rfl

omit [DecidableEq E] in
theorem Ledger.add (h : Ledger s) (job : JobMsg F A) : Ledger (add s job) := by
  by_cases hfull : s.jobq.uiCnt = s.jobq.uiSize
  · simp only [Jobs.add, add_full job hfull]
    exact h.lost _
  have henough := h.enough
  have hcnt : (jobQueueAdd s.jobq job).2.uiCnt = s.jobq.uiCnt + 1 := by
    rw [jobQueueAdd, if_neg hfull]
  have hok : (jobQueueAdd s.jobq job).1 = true := by rw [jobQueueAdd, if_neg hfull]
  have hjobs := jobs_add h.bounded job hfull
  have hbounded := h.bounded.add job
  simp only [Jobs.add, if_pos hok]
  generalize (jobQueueAdd s.jobq job).2 = jobq at hcnt hjobs hbounded
  have hfresh : s.cancelled s.accepted.length = false := by
    by_contra hc
    exact Nat.lt_irrefl _ (h.cancelled _ (Bool.of_not_eq_false hc))
  have hfirst : ∀ n, State.first
      { s with jobq := jobq, posting := n, accepted := s.accepted ++ [job] } = s.first := by
    intro n
    simp only [State.first, hcnt, List.length_append, List.length_singleton,
      Nat.add_sub_add_right]
  have hsum : s.first + s.jobq.uiCnt = s.accepted.length := Nat.sub_add_cancel henough
  apply h.requeue hbounded
  · simp only [hcnt, List.length_append, List.length_singleton]
    omega
  · intro k hk
    simp only [hcnt] at hk
    simp only [hjobs, State.entry, hfirst]
    rcases Nat.lt_succ_iff_lt_or_eq.mp hk with hlt | rfl
    · rw [List.getElem?_append_left (by simpa using hlt), h.entries k hlt,
        List.getElem?_append_left (by omega), State.entry]
    · rw [List.getElem?_append_right (by simp), hsum, List.getElem?_append_right (Nat.le_refl _)]
      simp [hfresh]
  · intro k hc
    rw [List.length_append]
    exact Nat.lt_add_right _ (h.cancelled k hc)
  · exact Nat.le_of_eq (hfirst _).symm
  · intro k job' hlt
    rw [hfirst] at hlt
    simp only [State.Live, List.getElem?_append_left (show k < s.accepted.length by omega)]
    exact ⟨fun hlive => ⟨hlive, hlt⟩, And.left⟩
  · rfl
  · rfl
  · rfl

omit [DecidableEq E] in
theorem Ledger.flush (h : Ledger s) : Ledger (flush s) := by
  have hfirst : (Jobs.flush s).first = s.accepted.length := Nat.sub_zero _
  apply h.requeue JobQueue.Bounded.flush
  · exact Nat.zero_le _
  · exact fun k hk => absurd hk (Nat.not_lt_zero k)
  · intro k hc
    rcases Bool.or_eq_true_iff.mp hc with hc | hq
    · exact h.cancelled k hc
    · exact (of_decide_eq_true hq).2
  · rw [hfirst]
    exact Nat.sub_le _ _
  · intro k job hlt
    rw [hfirst] at hlt
    have hqueued : s.Queued k ↔ ¬k < s.first := by
      rw [State.Queued, Nat.not_lt]
      exact and_iff_left hlt
    simp only [State.Live, Jobs.flush, Bool.or_eq_false_iff, decide_eq_false_iff_not, hqueued,
      not_not]
    tauto
  · rfl
  · rfl
  · rfl

variable [DecidableEq F] [DecidableEq A]

theorem cancel_eq (n : ℕ) (pfunc : Option F) (pvArg : Fin 6 → A) (job : JobMsg F A) :
    cancel n pfunc pvArg job = if Matches n pfunc pvArg job then job.clear else job := by
  simp only [cancel, matchArgs_iff]

omit [DecidableEq E] in
theorem Ledger.del (h : Ledger s) (n : ℕ) (pfunc : Option F) (pvArg : Fin 6 → A) :
    Ledger (del s n pfunc pvArg) := by
  have hsum : s.first + s.jobq.uiCnt = s.accepted.length := Nat.sub_add_cancel h.enough
  apply h.requeue (h.bounded.del n pfunc pvArg)
  · exact h.enough
  · intro k hk
    have hlt : k < s.jobq.uiCnt := hk
    have hq : s.Queued (s.first + k) := ⟨Nat.le_add_right _ _, by omega⟩
    have hentry := h.entries k hlt
    rw [show (Jobs.del s n pfunc pvArg).first = s.first from rfl]
    simp only [Jobs.del, jobs_del h.bounded, List.getElem?_map, hentry, State.entry]
    obtain ⟨job, hjob⟩ : ∃ job, s.accepted[s.first + k]? = some job :=
      ⟨_, List.getElem?_eq_getElem hq.2⟩
    simp only [hjob, Option.map_some, Option.any_some, hq, decide_true, Bool.true_and, cancel_eq]
    by_cases hc : s.cancelled (s.first + k) = true
    · simp [hc, JobMsg.clear]
    · simp [hc]
  · intro k hc
    rcases Bool.or_eq_true_iff.mp hc with hc | hq
    · exact h.cancelled k hc
    · exact (of_decide_eq_true (Bool.and_eq_true_iff.mp hq).1).2
  · exact Nat.le_refl _
  · intro k job hlt
    have hlt' : k < s.first := hlt
    have hq : ¬s.Queued k := fun hq => absurd hq.1 (Nat.not_le.mpr hlt')
    simp only [State.Live, Jobs.del, hq, decide_false, Bool.false_and, Bool.or_false]
    exact ⟨fun hlive => ⟨hlive, hlt'⟩, And.left⟩
  · rfl
  · rfl
  · rfl

end SylixOS.Jobs
