import Mathlib.Data.List.Nodup

/-! Binary semaphores: a token and a queue of waiting threads. Whoever posts
hands the token to a waiting thread, and leaves it in the semaphore only when
nobody waits. -/

namespace SylixOS.BinarySemaphore

structure Sem (T : Type*) where
  token : Bool
  queue : List T
  deriving DecidableEq, Repr

variable {T : Type*}

/-- `API_SemaphoreBPend` without a time limit: whether the thread has the token, and the
semaphore; else the thread waits in it. -/
def Sem.pend (s : Sem T) (t : T) : Bool × Sem T :=
  if s.token then (true, { s with token := false })
  else (false, { s with queue := s.queue ++ [t] })

/-- `API_SemaphoreBRelease` of a semaphore whose queue is first in, first out: the threads that
are woken, and the semaphore. A second token does not fit, and ends the loop. -/
def Sem.release : Sem T → ℕ → List T × Sem T
  | s, 0 => ([], s)
  | ⟨token, t :: queue⟩, n + 1 =>
    let r := Sem.release ⟨token, queue⟩ n
    (t :: r.1, r.2)
  | ⟨false, []⟩, n + 1 => Sem.release ⟨true, []⟩ n
  | ⟨true, []⟩, _ + 1 => ([], ⟨true, []⟩)

theorem release_full (n : ℕ) : Sem.release (⟨true, []⟩ : Sem T) n = ([], ⟨true, []⟩) := by
  cases n <;> rfl

theorem release_eq (s : Sem T) (n : ℕ) :
    s.release n = (s.queue.take n, ⟨s.token || decide (s.queue.length < n), s.queue.drop n⟩) := by
  obtain ⟨token, queue⟩ := s
  induction queue generalizing n with
  | nil =>
    cases n with
    | zero => simp [Sem.release]
    | succ n => cases token <;> simp [Sem.release, release_full]
  | cons t queue ih =>
    cases n with
    | zero => simp [Sem.release]
    | succ n =>
      rw [Sem.release, ih n]
      simp

theorem pend_token {s : Sem T} (htoken : ¬s.token = true) (t : T) :
    (s.pend t).2.token = s.token := by
  rw [Sem.pend, if_neg htoken]

/-- `API_SemaphoreBPost`: the thread that is woken, and the semaphore. `i` says which of the waiting
threads the queue discipline picks. -/
def Sem.post (s : Sem T) (i : ℕ) : Option T × Sem T :=
  match s.queue with
  | [] => (none, { s with token := true })
  | t :: queue =>
    ((t :: queue)[i % (queue.length + 1)]?,
      { s with queue := (t :: queue).eraseIdx (i % (queue.length + 1)) })

def Sem.clear (s : Sem T) : Sem T := { s with token := false }

def Sem.leave [DecidableEq T] (s : Sem T) (t : T) : Sem T := { s with queue := s.queue.erase t }

def Sem.Fair (s : Sem T) : Prop := s.token = true → s.queue = []

@[simp] theorem clear_queue (s : Sem T) : s.clear.queue = s.queue := rfl

theorem post_length (s : Sem T) (i : ℕ) : (s.post i).2.queue.length = s.queue.length - 1 := by
  obtain ⟨token, queue⟩ := s
  cases queue with
  | nil => rfl
  | cons t queue =>
    have hlt : i % (queue.length + 1) < (t :: queue).length := Nat.mod_lt _ (Nat.succ_pos _)
    simp only [Sem.post, List.length_eraseIdx_of_lt hlt]

theorem post_cases [DecidableEq T] {s : Sem T} (hnodup : s.queue.Nodup) (i : ℕ) :
    (s.queue = [] ∧ s.post i = (none, ⟨true, []⟩)) ∨
      ∃ t ∈ s.queue, s.post i = (some t, s.leave t) := by
  obtain ⟨token, queue⟩ := s
  cases queue with
  | nil => exact Or.inl ⟨rfl, rfl⟩
  | cons t queue =>
    have hlt : i % (queue.length + 1) < (t :: queue).length := Nat.mod_lt _ (Nat.succ_pos _)
    right
    refine ⟨(t :: queue)[i % (queue.length + 1)], List.getElem_mem hlt, ?_⟩
    have herase := List.Nodup.erase_getElem hnodup (i % (queue.length + 1)) hlt
    simp only [Sem.post, Sem.leave, herase, List.getElem?_eq_getElem hlt]

theorem Sem.Fair.post {s : Sem T} (h : s.Fair) (i : ℕ) : (s.post i).2.Fair := by
  obtain ⟨token, queue⟩ := s
  cases queue with
  | nil => exact fun _ => rfl
  | cons t queue => exact fun htoken => absurd (h htoken) (List.cons_ne_nil t queue)

theorem Sem.Fair.pend (s : Sem T) (t : T) : (s.pend t).2.Fair := by
  unfold Sem.pend
  by_cases htoken : s.token = true
  · rw [if_pos htoken]
    exact fun hfalse => nomatch hfalse
  · rw [if_neg htoken]
    exact fun htrue => absurd htrue htoken

theorem Sem.Fair.clear (s : Sem T) : s.clear.Fair := fun hfalse => nomatch hfalse

theorem Sem.Fair.leave [DecidableEq T] {s : Sem T} (h : s.Fair) (t : T) : (s.leave t).Fair := by
  intro htoken
  simp [Sem.leave, h htoken]

end SylixOS.BinarySemaphore
