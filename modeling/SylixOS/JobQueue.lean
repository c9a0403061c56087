import SylixOS.RingBuffer
import SylixOS.BinarySemaphore
import SylixOS.StepRuns

/-! Job queues (_JobQueue.c): a ring of jobs between those who add or cancel
jobs and the calls of `_jobQueueExec`, which take the jobs out one after the
other and call them outside the lock. -/

namespace SylixOS.Jobs
open RingBuffer BinarySemaphore StepRuns

variable {F A : Type*}

structure JobMsg (F A : Type*) where
  pfuncFunc : Option F
  pvArg : Fin 6 → A

structure JobQueue (F A : Type*) (w : ℕ) where
  pjobmsgQueue : ℕ → JobMsg F A
  uiIn : ℕ
  uiOut : ℕ
  uiCnt : ℕ
  uiSize : ℕ
  ulLost : BitVec w

variable {w : ℕ} (jobq : JobQueue F A w)

/-- What `_jobQueueCreate` and `_jobQueueInit` set alike; what the buffer holds does not matter. -/
def jobQueueInit (pjobmsg : ℕ → JobMsg F A) (uiQueueSize : ℕ) : JobQueue F A w where
  pjobmsgQueue := pjobmsg
  uiIn := 0
  uiOut := 0
  uiCnt := 0
  uiSize := uiQueueSize
  ulLost := 0

def jobQueueFlush : JobQueue F A w := { jobq with uiIn := 0, uiOut := 0, uiCnt := 0 }

/-- The section of `_jobQueueAdd` under the lock; `false` is `ENOSPC`. -/
def jobQueueAdd (job : JobMsg F A) : Bool × JobQueue F A w :=
  if jobq.uiCnt = jobq.uiSize then (false, { jobq with ulLost := jobq.ulLost + 1 })
  else
    (true,
      { jobq with
        pjobmsgQueue := Function.update jobq.pjobmsgQueue jobq.uiIn job
        uiIn := next jobq.uiSize jobq.uiIn
        uiCnt := jobq.uiCnt + 1 })

def jobQueueTake : JobMsg F A × JobQueue F A w :=
  (jobq.pjobmsgQueue jobq.uiOut,
    { jobq with uiOut := next jobq.uiSize jobq.uiOut, uiCnt := jobq.uiCnt - 1 })

variable [DecidableEq F] [DecidableEq A]

def matchArgs (uiMatchArgNum : ℕ) (pfunc : Option F) (pvArg : Fin 6 → A) (job : JobMsg F A) :
    Bool :=
  let sameFunc := job.pfuncFunc = pfunc ∨ pfunc = none
  match uiMatchArgNum with
  | 0 => sameFunc
  | 1 => sameFunc ∧ job.pvArg 0 = pvArg 0
  | 2 => sameFunc ∧ job.pvArg 0 = pvArg 0 ∧ job.pvArg 1 = pvArg 1
  | 3 => sameFunc ∧ job.pvArg 0 = pvArg 0 ∧ job.pvArg 1 = pvArg 1 ∧ job.pvArg 2 = pvArg 2
  | 4 =>
    sameFunc ∧ job.pvArg 0 = pvArg 0 ∧ job.pvArg 1 = pvArg 1 ∧ job.pvArg 2 = pvArg 2 ∧
      job.pvArg 3 = pvArg 3
  | 5 =>
    sameFunc ∧ job.pvArg 0 = pvArg 0 ∧ job.pvArg 1 = pvArg 1 ∧ job.pvArg 2 = pvArg 2 ∧
      job.pvArg 3 = pvArg 3 ∧ job.pvArg 4 = pvArg 4
  | 6 =>
    sameFunc ∧ job.pvArg 0 = pvArg 0 ∧ job.pvArg 1 = pvArg 1 ∧ job.pvArg 2 = pvArg 2 ∧
      job.pvArg 3 = pvArg 3 ∧ job.pvArg 4 = pvArg 4 ∧ job.pvArg 5 = pvArg 5
  | _ => false

def JobMsg.clear (job : JobMsg F A) : JobMsg F A := { job with pfuncFunc := none }

def cancel (uiMatchArgNum : ℕ) (pfunc : Option F) (pvArg : Fin 6 → A) (job : JobMsg F A) :
    JobMsg F A :=
  if matchArgs uiMatchArgNum pfunc pvArg job then job.clear else job

def jobQueueDel (uiMatchArgNum : ℕ) (pfunc : Option F) (pvArg : Fin 6 → A) : JobQueue F A w :=
  { jobq with
    pjobmsgQueue := mapRing (cancel uiMatchArgNum pfunc pvArg) jobq.uiSize jobq.uiCnt jobq.uiOut
      jobq.pjobmsgQueue }

def Matches (n : ℕ) (pfunc : Option F) (pvArg : Fin 6 → A) (job : JobMsg F A) : Prop :=
  n ≤ 6 ∧ (pfunc = none ∨ job.pfuncFunc = pfunc) ∧ ∀ i : Fin 6, i.val < n → job.pvArg i = pvArg i

instance (n : ℕ) (pfunc : Option F) (pvArg : Fin 6 → A) (job : JobMsg F A) :
    Decidable (Matches n pfunc pvArg job) :=
  inferInstanceAs (Decidable (_ ∧ _ ∧ _))

theorem matchArgs_iff (n : ℕ) (pfunc : Option F) (pvArg : Fin 6 → A) (job : JobMsg F A) :
    matchArgs n pfunc pvArg job = true ↔ Matches n pfunc pvArg job := by
  unfold Matches
  match n with
  | 0 | 1 | 2 | 3 | 4 | 5 | 6 =>
    simp [matchArgs, Fin.forall_fin_succ, or_comm]
  | n + 7 => simp [matchArgs]

variable {jobq}

omit [DecidableEq F] [DecidableEq A]

def JobQueue.jobs (jobq : JobQueue F A w) : List (JobMsg F A) :=
  content jobq.pjobmsgQueue jobq.uiSize jobq.uiOut jobq.uiCnt

structure JobQueue.Bounded (jobq : JobQueue F A w) : Prop where
  cnt_le : jobq.uiCnt ≤ jobq.uiSize
  in_eq : jobq.uiIn = (jobq.uiOut + jobq.uiCnt) % jobq.uiSize
  out_lt : jobq.uiOut < jobq.uiSize ∨ jobq.uiOut = 0

@[simp] theorem length_jobs : jobq.jobs.length = jobq.uiCnt := length_content

theorem jobs_getElem? (k : ℕ) : jobq.jobs[k]? =
    if k < jobq.uiCnt then some (jobq.pjobmsgQueue ((jobq.uiOut + k) % jobq.uiSize)) else none := by
  by_cases hk : k < jobq.uiCnt
  · rw [if_pos hk, List.getElem?_eq_getElem (by simpa using hk)]
    simp [JobQueue.jobs, content]
  · rw [if_neg hk, List.getElem?_eq_none (by simpa using hk)]

theorem bounded_init (pjobmsg : ℕ → JobMsg F A) (n : ℕ) :
    (jobQueueInit pjobmsg n : JobQueue F A w).Bounded where
  cnt_le := Nat.zero_le n
  in_eq := (Nat.zero_mod n).symm
  out_lt := Or.inr rfl

theorem JobQueue.Bounded.flush : (jobQueueFlush jobq).Bounded where
  cnt_le := Nat.zero_le _
  in_eq := (Nat.zero_mod _).symm
  out_lt := Or.inr rfl

theorem JobQueue.Bounded.out_inside (h : jobq.Bounded) (hsize : 0 < jobq.uiSize) :
    jobq.uiOut < jobq.uiSize := by
  rcases h.out_lt with hlt | hzero
  · exact hlt
  · omega

theorem add_full (job : JobMsg F A) (hfull : jobq.uiCnt = jobq.uiSize) :
    jobQueueAdd jobq job = (false, { jobq with ulLost := jobq.ulLost + 1 }) := if_pos hfull

theorem JobQueue.Bounded.lost (h : jobq.Bounded) (lost : BitVec w) :
    ({ jobq with ulLost := lost } : JobQueue F A w).Bounded where
  cnt_le := h.cnt_le
  in_eq := h.in_eq
  out_lt := h.out_lt

theorem jobs_add (h : jobq.Bounded) (job : JobMsg F A) (hroom : jobq.uiCnt ≠ jobq.uiSize) :
    (jobQueueAdd jobq job).2.jobs = jobq.jobs ++ [job] := by
  have hlt : jobq.uiCnt < jobq.uiSize := Nat.lt_of_le_of_ne h.cnt_le hroom
  rw [jobQueueAdd, if_neg hroom]
  apply List.ext_getElem?
  intro k
  rw [jobs_getElem?]
  simp only
  rcases Nat.lt_trichotomy k jobq.uiCnt with hk | rfl | hk
  · -- an old job is not at the input place
    have hne : (jobq.uiOut + k) % jobq.uiSize ≠ (jobq.uiOut + jobq.uiCnt) % jobq.uiSize :=
      place_ne hk hlt
    rw [← h.in_eq] at hne
    rw [if_pos (by omega), Function.update_of_ne hne, List.getElem?_append_left (by simpa using hk),
      jobs_getElem?, if_pos hk]
  · rw [if_pos (by omega), ← h.in_eq, Function.update_self, List.getElem?_append_right (by simp)]
    simp
  · rw [if_neg (by omega), List.getElem?_eq_none]
    simp only [List.length_append, length_jobs, List.length_singleton]
    omega

theorem JobQueue.Bounded.add (h : jobq.Bounded) (job : JobMsg F A) :
    (jobQueueAdd jobq job).2.Bounded := by
  by_cases hfull : jobq.uiCnt = jobq.uiSize
  · rw [add_full job hfull]
    exact h.lost _
  have hcnt := h.cnt_le
  have hsize : 0 < jobq.uiSize := by omega
  rw [jobQueueAdd, if_neg hfull]
  refine ⟨by simp only; omega, ?_, h.out_lt⟩
  simp only
  have hin : jobq.uiIn < jobq.uiSize := by
    rw [h.in_eq]
    exact Nat.mod_lt _ hsize
  rw [next_eq hin, h.in_eq, Nat.mod_add_mod, Nat.add_assoc]

theorem jobs_take (h : jobq.Bounded) (hcnt : jobq.uiCnt ≠ 0) :
    jobq.jobs = (jobQueueTake jobq).1 :: (jobQueueTake jobq).2.jobs := by
  have hsize : 0 < jobq.uiSize := by
    have := h.cnt_le
    omega
  have hout := h.out_inside hsize
  obtain ⟨n, hn⟩ := Nat.exists_eq_succ_of_ne_zero hcnt
  have happend : content jobq.pjobmsgQueue jobq.uiSize jobq.uiOut (1 + n) =
      content jobq.pjobmsgQueue jobq.uiSize jobq.uiOut 1 ++
        content jobq.pjobmsgQueue jobq.uiSize ((jobq.uiOut + 1) % jobq.uiSize) n :=
    content_append 1 n
  rw [JobQueue.jobs, hn, Nat.succ_eq_add_one, Nat.add_comm n 1, happend]
  simp only [JobQueue.jobs, jobQueueTake, next_eq hout, hn, Nat.succ_sub_one]
  simp [content, Nat.mod_eq_of_lt hout]

theorem JobQueue.Bounded.take (h : jobq.Bounded) (hcnt : jobq.uiCnt ≠ 0) :
    (jobQueueTake jobq).2.Bounded := by
  have hle := h.cnt_le
  have hout := h.out_inside (by omega)
  refine ⟨by simp only [jobQueueTake]; omega, ?_, Or.inl (next_lt hout)⟩
  simp only [jobQueueTake]
  rw [next_eq hout, Nat.mod_add_mod, h.in_eq]
  congr 1
  omega

variable [DecidableEq F] [DecidableEq A]

theorem jobs_del (h : jobq.Bounded) (n : ℕ) (pfunc : Option F) (pvArg : Fin 6 → A) :
    (jobQueueDel jobq n pfunc pvArg).jobs = jobq.jobs.map (cancel n pfunc pvArg) := by
  apply List.ext_getElem?
  intro k
  have hcnt : (jobQueueDel jobq n pfunc pvArg).uiCnt = jobq.uiCnt := rfl
  rw [List.getElem?_map, jobs_getElem?, jobs_getElem?, hcnt]
  by_cases hk : k < jobq.uiCnt
  · have hle := h.cnt_le
    rw [if_pos hk, if_pos hk, Option.map_some]
    simp only [jobQueueDel]
    rw [mapRing_place _ (h.out_inside (by omega)) hle, if_pos ⟨k, hk, rfl⟩]
  · rw [if_neg hk, if_neg hk, Option.map_none]

theorem JobQueue.Bounded.del (h : jobq.Bounded) (n : ℕ) (pfunc : Option F) (pvArg : Fin 6 → A) :
    (jobQueueDel jobq n pfunc pvArg).Bounded where
  cnt_le := h.cnt_le
  in_eq := h.in_eq
  out_lt := h.out_lt

end SylixOS.Jobs
