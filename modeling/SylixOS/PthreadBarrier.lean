import Mathlib.Data.Nat.Count
import Mathlib.Logic.Function.Basic
import SylixOS.BinarySemaphore
import SylixOS.StepRuns

/-! Barriers: `pthread_barrier_wait`. A call first counts itself, and then, in a step of
its own, waits on the semaphore or releases those that wait on it. Calls are numbered as
they count themselves; with a barrier of `n` the round of call `k` is `k / n`, and the
last call of a round has `k % n = n - 1`. -/

namespace SylixOS.PthreadBarrier
open StepRuns BinarySemaphore Function

inductive Ret where
  | serialThread
  | none
  deriving DecidableEq, Repr

inductive Phase where
  /-- not yet called -/
  | absent
  /-- counted, and about to call `API_SemaphoreBPend` -/
  | counted
  /-- counted as the last one, and about to call `API_SemaphoreBRelease` -/
  | releasing
  | asleep
  | returned (ret : Ret)
  deriving DecidableEq, Repr

structure State where
  counter : ℕ
  initValue : ℕ
  sync : Sem ℕ
  arrived : ℕ
  phase : ℕ → Phase

def pthreadBarrierInit (count : ℕ) : Option State :=
  if count = 0 then none
  else some
    { counter := count
      initValue := count
      sync := ⟨false, []⟩
      arrived := 0
      phase := fun _ => .absent }

/-- The section of `pthread_barrier_wait` under the atomic lock. With no thread to release the call
returns at once. -/
def count (s : State) : State :=
  let k := s.arrived
  let counter := s.counter - 1
  if counter = 0 then
    { s with
      counter := s.initValue
      arrived := k + 1
      phase := update s.phase k
        (if s.initValue - 1 ≠ 0 then .releasing else .returned .serialThread) }
  else
    { s with
      counter := counter
      arrived := k + 1
      phase := update s.phase k .counted }

def pend (s : State) (k : ℕ) : State :=
  let r := s.sync.pend k
  { s with
    sync := r.2
    phase := update s.phase k (if r.1 then .returned .none else .asleep) }

def release (s : State) (k : ℕ) : State :=
  let r := s.sync.release (s.initValue - 1)
  { s with
    sync := r.2
    phase := fun j =>
      if j = k then .returned .serialThread
      else if j ∈ r.1 then .returned .none else s.phase j }

inductive Act where
  | count
  | pend (k : ℕ)
  | release (k : ℕ)
  deriving DecidableEq, Repr

def step (s : State) : Act → Option State
  | .count => some (count s)
  | .pend k => if s.phase k = .counted then some (pend s k) else none
  | .release k => if s.phase k = .releasing then some (release s k) else none

def State.round (s : State) (k : ℕ) : ℕ := k / s.initValue

def State.IsLast (s : State) (k : ℕ) : Prop := k % s.initValue = s.initValue - 1

def State.roundArrivals (s : State) (k : ℕ) : ℕ :=
  (List.range s.arrived).countP fun j => s.round j = s.round k

def State.Returned (s : State) (k : ℕ) : Prop := ∃ ret, s.phase k = .returned ret

structure Promise (s : State) : Prop where
  /-- a call returns only after all of its round have arrived -/
  complete : ∀ k, s.Returned k → s.initValue ≤ s.roundArrivals k
  /-- no two calls of a round return `PTHREAD_BARRIER_SERIAL_THREAD` -/
  serial_unique : ∀ j k, s.round j = s.round k → s.phase j = .returned .serialThread →
    s.phase k = .returned .serialThread → j = k
  /-- when all of a round have returned, one of them has returned it -/
  serial_exists : ∀ k, (∀ j, s.round j = s.round k → s.Returned j) →
    ∃ j, s.round j = s.round k ∧ s.phase j = .returned .serialThread
  /-- when the last of a round has returned nobody of the round is asleep -/
  awake : ∀ l k, s.IsLast l → s.round l = s.round k → s.Returned l → s.phase k ≠ .asleep

/-- The condition on a step. A call that waits finds the token when its round is complete, or no
token when the last of its round has not released yet. The last of a round releases when its
queued fellows are among the first `n - 1`, and all these are of complete rounds. -/
def Timely (s : State) : Act → Prop
  | .count => True
  | .pend k =>
    if s.sync.token then s.initValue ≤ s.roundArrivals k
    else ∀ l, s.IsLast l → s.round l = s.round k → ¬ s.Returned l
  | .release l =>
    (∀ k ∈ s.sync.queue.take (s.initValue - 1), s.initValue ≤ s.roundArrivals k) ∧
      ∀ k ∈ s.sync.queue, s.round k = s.round l → k ∈ s.sync.queue.take (s.initValue - 1)

def Phase.Fits (last : Prop) : Phase → Prop
  | .absent => True
  | .counted => ¬ last
  | .releasing => last
  | .asleep => ¬ last
  | .returned .serialThread => last
  | .returned .none => ¬ last

structure Shape (s : State) : Prop where
  pos : 0 < s.initValue
  counter : s.counter + s.arrived % s.initValue = s.initValue
  absent : ∀ k, s.arrived ≤ k → s.phase k = .absent
  role : ∀ k, (s.phase k).Fits (s.IsLast k)
  queue : ∀ k, k ∈ s.sync.queue ↔ s.phase k = .asleep
  nodup : s.sync.queue.Nodup

theorem countP_round {n : ℕ} (hpos : 0 < n) (m r : ℕ) :
    (List.range m).countP (fun j => j / n = r) = min m ((r + 1) * n) - r * n := by
  induction m with
  | zero => simp
  | succ m ih =>
    have hround : (r + 1) * n = r * n + n := Nat.succ_mul r n
    have hmem : m / n = r ↔ r * n ≤ m ∧ m < (r + 1) * n := by
      rw [Nat.div_eq_iff hpos]
      omega
    rw [List.range_succ, List.countP_append, ih]
    by_cases hm : m / n = r
    · have := hmem.mp hm
      simp only [List.countP_singleton, hm, decide_true, if_true]
      omega
    · have := mt hmem.mpr hm
      simp only [List.countP_singleton, hm, decide_false]
      simp only [Bool.false_eq_true, if_false]
      omega

theorem complete_iff {s : State} (hpos : 0 < s.initValue) (k : ℕ) :
    s.initValue ≤ s.roundArrivals k ↔ (s.round k + 1) * s.initValue ≤ s.arrived := by
  unfold State.roundArrivals State.round
  rw [countP_round hpos]
  have hround : (k / s.initValue + 1) * s.initValue =
      k / s.initValue * s.initValue + s.initValue := Nat.succ_mul _ _
  omega

theorem last_eq {s : State} (hpos : 0 < s.initValue) {l : ℕ} (hl : s.IsLast l) :
    l + 1 = (s.round l + 1) * s.initValue := by
  have hdiv := Nat.div_add_mod l s.initValue
  have hround : (l / s.initValue + 1) * s.initValue =
      s.initValue * (l / s.initValue) + s.initValue := by
    rw [Nat.succ_mul, Nat.mul_comm]
  unfold State.IsLast at hl
  unfold State.round
  omega

theorem exists_last {s : State} (hpos : 0 < s.initValue) (k : ℕ) :
    ∃ l, s.IsLast l ∧ s.round l = s.round k := by
  refine ⟨k / s.initValue * s.initValue + (s.initValue - 1), ?_, ?_⟩
  · unfold State.IsLast
    rw [Nat.mul_add_mod_self_right, Nat.mod_eq_of_lt (by omega)]
  · unfold State.round
    have hzero : (s.initValue - 1) / s.initValue = 0 := Nat.div_eq_of_lt (by omega)
    rw [Nat.mul_comm, Nat.mul_add_div hpos, hzero, Nat.add_zero]

theorem last_unique {s : State} (hpos : 0 < s.initValue) {j k : ℕ} (hj : s.IsLast j)
    (hk : s.IsLast k) (hround : s.round j = s.round k) : j = k := by
  have h1 := last_eq hpos hj
  have h2 := last_eq hpos hk
  rw [hround] at h1
  omega

theorem Shape.complete_last {s : State} (h : Shape s) {l : ℕ} (hl : s.IsLast l)
    (hphase : s.phase l ≠ .absent) : (s.round l + 1) * s.initValue ≤ s.arrived := by
  have hlt : l < s.arrived := by
    by_contra hge
    exact hphase (h.absent l (by omega))
  have := last_eq h.pos hl
  omega

theorem Shape.last_of_serial {s : State} (h : Shape s) {k : ℕ}
    (hk : s.phase k = .returned .serialThread) : s.IsLast k := by
  have hrole := h.role k
  rwa [hk] at hrole

def Complete (n m : ℕ) (phase : ℕ → Phase) : Prop :=
  ∀ k ret, phase k = .returned ret → (k / n + 1) * n ≤ m

def Awake (n : ℕ) (phase : ℕ → Phase) : Prop :=
  ∀ l k ret, l % n = n - 1 → l / n = k / n → phase l = .returned ret → phase k ≠ .asleep

theorem Shape.promise_iff {s : State} (h : Shape s) :
    Promise s ↔ Complete s.initValue s.arrived s.phase ∧ Awake s.initValue s.phase := by
  constructor
  · intro hp
    refine ⟨fun k ret hk => ?_, fun l k ret hl hround hret => ?_⟩
    · exact (complete_iff h.pos k).mp (hp.complete k ⟨ret, hk⟩)
    · exact hp.awake l k hl hround ⟨ret, hret⟩
  · rintro ⟨hcomplete, hawake⟩
    refine ⟨?_, ?_, ?_, ?_⟩
    · rintro k ⟨ret, hk⟩
      exact (complete_iff h.pos k).mpr (hcomplete k ret hk)
    · intro j k hround hj hk
      exact last_unique h.pos (h.last_of_serial hj) (h.last_of_serial hk) hround
    · intro k hall
      obtain ⟨l, hl, hround⟩ := exists_last h.pos k
      obtain ⟨ret, hret⟩ := hall l hround
      have hrole := h.role l
      refine ⟨l, hround, ?_⟩
      cases ret with
      | serialThread => exact hret
      | none =>
        rw [hret] at hrole
        exact absurd hl hrole
    · rintro l k hl hround ⟨ret, hret⟩
      exact hawake l k ret hl hround hret

theorem complete_update_iff {n m : ℕ} {phase : ℕ → Phase} (h : Complete n m phase) (k : ℕ)
    (p : Phase) :
    Complete n m (update phase k p) ↔ ∀ ret, p = .returned ret → (k / n + 1) * n ≤ m := by
  constructor
  · intro hupdate ret hp
    exact hupdate k ret (by rw [update_self, hp])
  · intro hk j ret hj
    by_cases hjk : j = k
    · rw [hjk, update_self] at hj
      rw [hjk]
      exact hk ret hj
    · rw [update_of_ne hjk] at hj
      exact h j ret hj

theorem awake_update_iff {n : ℕ} {phase : ℕ → Phase} (h : Awake n phase) {k : ℕ}
    (hk : k % n ≠ n - 1) (p : Phase) :
    Awake n (update phase k p) ↔
      (p = .asleep → ∀ l ret, l % n = n - 1 → l / n = k / n → phase l ≠ .returned ret) := by
  constructor
  · intro hupdate hp l ret hl hround hret
    have hlk : l ≠ k := fun heq => hk (heq ▸ hl)
    apply hupdate l k ret hl hround
    · rw [update_of_ne hlk, hret]
    · rw [update_self, hp]
  · intro hnew l j ret hl hround hret
    have hlk : l ≠ k := fun heq => hk (heq ▸ hl)
    rw [update_of_ne hlk] at hret
    by_cases hjk : j = k
    · rw [hjk] at hround ⊢
      rw [update_self]
      exact fun hp => hnew hp l ret hl hround hret
    · rw [update_of_ne hjk]
      exact h l j ret hl hround hret

theorem shape_init {n : ℕ} {s : State} (hs : pthreadBarrierInit n = some s) : Shape s := by
  unfold pthreadBarrierInit at hs
  split_ifs at hs with hn
  obtain rfl := Option.some.inj hs
  refine ⟨Nat.pos_of_ne_zero hn, by simp, fun _ _ => rfl, fun _ => trivial, fun k => ?_,
    List.nodup_nil⟩
  simp

theorem State.isLast_arrived_iff {s : State} (h : Shape s) :
    s.IsLast s.arrived ↔ s.counter - 1 = 0 := by
  have hcounter := h.counter
  have hlt := Nat.mod_lt s.arrived h.pos
  unfold State.IsLast
  omega

theorem Shape.count {s : State} (h : Shape s) : Shape (count s) := by
  have hlast := State.isLast_arrived_iff h
  have hnew : s.phase s.arrived = .absent := h.absent s.arrived le_rfl
  have hqueue : ∀ k p, p ≠ .asleep →
      (k ∈ s.sync.queue ↔ update s.phase s.arrived p k = .asleep) := by
    intro k p hp
    by_cases hk : k = s.arrived
    · subst hk
      simp [h.queue, hnew, hp]
    · rw [update_of_ne hk]
      exact h.queue k
  have hcounter := h.counter
  have hlt := Nat.mod_lt s.arrived h.pos
  have hmod := Nat.mod_add_mod s.arrived s.initValue 1
  have habsent : ∀ k p, s.arrived + 1 ≤ k →
      update s.phase s.arrived p k = .absent := by
    intro k p hk
    rw [update_of_ne (by omega)]
    exact h.absent k (by omega)
  have hrole : ∀ k (p : Phase), p.Fits (s.IsLast s.arrived) →
      (update s.phase s.arrived p k).Fits (s.IsLast k) := by
    intro k p hp
    by_cases hk : k = s.arrived
    · subst hk
      rwa [update_self]
    · rw [update_of_ne hk]
      exact h.role k
  unfold PthreadBarrier.count
  by_cases hzero : s.counter - 1 = 0
  · simp only [hzero, if_true]
    refine ⟨h.pos, ?_, fun k => habsent k _, fun k => hrole k _ ?_, fun k => hqueue k _ ?_,
      h.nodup⟩
    · have hfull : s.arrived % s.initValue + 1 = s.initValue := by omega
      rw [hfull, Nat.mod_self] at hmod
      simp only
      omega
    · split_ifs <;> exact hlast.mpr hzero
    · split_ifs <;> exact Phase.noConfusion
  · simp only [hzero, if_false]
    refine ⟨h.pos, ?_, fun k => habsent k _, fun k => hrole k _ ?_, fun k => hqueue k _ ?_,
      h.nodup⟩
    · rw [Nat.mod_eq_of_lt (show s.arrived % s.initValue + 1 < s.initValue by omega)] at hmod
      simp only
      omega
    · exact mt hlast.mp hzero
    · exact Phase.noConfusion

theorem pend_of_token {s : State} (htoken : s.sync.token = true) (k : ℕ) :
    pend s k = { s with
      sync := ⟨false, s.sync.queue⟩
      phase := update s.phase k (.returned .none) } := by
  simp [pend, Sem.pend, htoken]

theorem pend_of_no_token {s : State} (htoken : s.sync.token = false) (k : ℕ) :
    pend s k = { s with
      sync := ⟨false, s.sync.queue ++ [k]⟩
      phase := update s.phase k .asleep } := by
  simp [pend, Sem.pend, htoken]

theorem Shape.pend {s : State} (h : Shape s) {k : ℕ} (hk : s.phase k = .counted) :
    Shape (pend s k) := by
  have hlast : ¬ s.IsLast k := by
    have hrole := h.role k
    rwa [hk] at hrole
  have hrole : ∀ j (p : Phase), p.Fits (s.IsLast k) →
      (update s.phase k p j).Fits (s.IsLast j) := by
    intro j p hp
    by_cases hj : j = k
    · subst hj
      rwa [update_self]
    · rw [update_of_ne hj]
      exact h.role j
  have habsent : ∀ j p, s.arrived ≤ j → update s.phase k p j = .absent := by
    intro j p hj
    have hjk : j ≠ k := by
      rintro rfl
      rw [h.absent j hj] at hk
      cases hk
    rw [update_of_ne hjk]
    exact h.absent j hj
  have hnotin : k ∉ s.sync.queue := by
    rw [h.queue, hk]
    exact Phase.noConfusion
  cases htoken : s.sync.token with
  | true =>
    rw [pend_of_token htoken]
    refine ⟨h.pos, h.counter, fun j => habsent j _, fun j => hrole j _ hlast, fun j => ?_,
      h.nodup⟩
    by_cases hj : j = k
    · subst hj
      simp [hnotin]
    · simp only [update_of_ne hj]
      exact h.queue j
  | false =>
    rw [pend_of_no_token htoken]
    refine ⟨h.pos, h.counter, fun j => habsent j _, fun j => hrole j _ hlast, fun j => ?_, ?_⟩
    · by_cases hj : j = k
      · subst hj
        simp
      · simp only [update_of_ne hj, ← h.queue j]
        simp [hj]
    · apply List.nodup_append.mpr
      refine ⟨h.nodup, List.nodup_singleton k, fun a ha b hb hab => ?_⟩
      rw [List.mem_singleton] at hb
      rw [hab, hb] at ha
      exact hnotin ha

theorem release_phase (s : State) (k j : ℕ) :
    (release s k).phase j =
      if j = k then .returned .serialThread
      else if j ∈ s.sync.queue.take (s.initValue - 1) then .returned .none else s.phase j := by
  unfold release
  rw [release_eq]

theorem release_queue (s : State) (k : ℕ) :
    (release s k).sync.queue = s.sync.queue.drop (s.initValue - 1) := by
  unfold release
  rw [release_eq]

theorem Shape.release {s : State} (h : Shape s) {k : ℕ} (hk : s.phase k = .releasing) :
    Shape (release s k) := by
  have hlast : s.IsLast k := by
    have hrole := h.role k
    rwa [hk] at hrole
  have hnotin : k ∉ s.sync.queue := by
    rw [h.queue, hk]
    exact Phase.noConfusion
  have hsplit := List.take_append_drop (s.initValue - 1) s.sync.queue
  have hdisj : ∀ j ∈ s.sync.queue.take (s.initValue - 1),
      j ∉ s.sync.queue.drop (s.initValue - 1) := by
    have hnodup := h.nodup
    rw [← hsplit] at hnodup
    exact fun j hj hj' => (List.nodup_append.mp hnodup).2.2 j hj j hj' rfl
  refine ⟨h.pos, h.counter, fun j hj => ?_, fun j => ?_, fun j => ?_, ?_⟩
  · have hphase := h.absent j hj
    have hjk : j ≠ k := by
      rintro rfl
      rw [hphase] at hk
      cases hk
    have hjq : j ∉ s.sync.queue.take (s.initValue - 1) := by
      intro hmem
      have hasleep := (h.queue j).mp (List.mem_of_mem_take hmem)
      rw [hphase] at hasleep
      cases hasleep
    rw [release_phase, if_neg hjk, if_neg hjq, hphase]
  · rw [release_phase]
    split_ifs with hjk hjq
    · subst hjk
      exact hlast
    · have hrole := h.role j
      rw [(h.queue j).mp (List.mem_of_mem_take hjq)] at hrole
      exact hrole
    · exact h.role j
  · rw [release_phase, release_queue]
    split_ifs with hjk hjq
    · subst hjk
      exact iff_of_false (fun hmem => hnotin (List.mem_of_mem_drop hmem)) not_false
    · exact iff_of_false (hdisj j hjq) not_false
    · rw [← h.queue j, ← hsplit, List.mem_append, hsplit]
      simp [hjq]
  · rw [release_queue]
    exact h.nodup.sublist (List.drop_sublist _ _)

theorem Shape.step {s s' : State} {a : Act} (h : Shape s) (hs : step s a = some s') :
    Shape s' := by
  cases a with
  | count =>
    obtain rfl := Option.some.inj hs
    exact h.count
  | pend k =>
    simp only [PthreadBarrier.step] at hs
    split_ifs at hs with hk
    obtain rfl := Option.some.inj hs
    exact h.pend hk
  | release k =>
    simp only [PthreadBarrier.step] at hs
    split_ifs at hs with hk
    obtain rfl := Option.some.inj hs
    exact h.release hk

@[simp] theorem count_initValue (s : State) : (count s).initValue = s.initValue := by
  unfold count
  simp only
  split_ifs <;> rfl

@[simp] theorem count_arrived (s : State) : (count s).arrived = s.arrived + 1 := by
  unfold count
  simp only
  split_ifs <;> rfl

theorem count_phase (s : State) :
    ∃ p, (count s).phase = update s.phase s.arrived p ∧
      (p = .counted ∨ p = .releasing ∨ (p = .returned .serialThread ∧ s.initValue - 1 = 0)) := by
  unfold count
  simp only
  split_ifs with hzero hone
  · exact ⟨_, rfl, Or.inr (Or.inl rfl)⟩
  · exact ⟨_, rfl, Or.inr (Or.inr ⟨rfl, not_not.mp hone⟩)⟩
  · exact ⟨_, rfl, Or.inl rfl⟩

theorem promise_count {s : State} (h : Shape s) (hp : Promise s) : Promise (count s) := by
  obtain ⟨p, hphase, hcases⟩ := count_phase s
  obtain ⟨hcomplete, hawake⟩ := h.promise_iff.mp hp
  have hp_ne : p ≠ .asleep := by
    rcases hcases with rfl | rfl | ⟨rfl, -⟩ <;> exact Phase.noConfusion
  have hone : ∀ ret, p = .returned ret → ret = .serialThread ∧ s.initValue = 1 := by
    rintro ret rfl
    rcases hcases with hret | hret | ⟨hret, hone⟩
    · cases hret
    · cases hret
    · have := h.pos
      exact ⟨Phase.returned.inj hret, by omega⟩
  apply h.count.promise_iff.mpr
  rw [count_initValue, count_arrived, hphase]
  constructor
  · apply (complete_update_iff (fun k ret hk => ?_) s.arrived p).mpr
    · intro ret hret
      rw [(hone ret hret).2, Nat.div_one, Nat.mul_one]
    · exact Nat.le_succ_of_le (hcomplete k ret hk)
  · intro l k ret hl hround hret
    by_cases hk : k = s.arrived
    · rw [hk, update_self]
      exact hp_ne
    · rw [update_of_ne hk]
      have hlk : l ≠ s.arrived := by
        rintro rfl
        rw [update_self] at hret
        rw [(hone ret hret).2, Nat.div_one, Nat.div_one] at hround
        exact hk hround.symm
      rw [update_of_ne hlk] at hret
      exact hawake l k ret hl hround hret

theorem promise_pend_iff {s : State} (h : Shape s) (hp : Promise s) {k : ℕ}
    (hk : s.phase k = .counted) : Promise (pend s k) ↔ Timely s (.pend k) := by
  obtain ⟨hcomplete, hawake⟩ := h.promise_iff.mp hp
  have hnot : ¬ s.IsLast k := by
    have hrole := h.role k
    rwa [hk] at hrole
  apply (h.pend hk).promise_iff.trans
  cases htoken : s.sync.token with
  | true =>
    simp only [Timely, htoken, if_true, pend_of_token htoken]
    rw [complete_update_iff hcomplete, awake_update_iff hawake hnot, complete_iff h.pos]
    constructor
    · exact fun hupdate => hupdate.1 .none rfl
    · exact fun hround => ⟨fun _ _ => hround, fun hasleep => nomatch hasleep⟩
  | false =>
    simp only [Timely, htoken, Bool.false_eq_true, if_false, pend_of_no_token htoken]
    rw [complete_update_iff hcomplete, awake_update_iff hawake hnot]
    constructor
    · rintro hupdate l hl hround ⟨ret, hret⟩
      exact hupdate.2 rfl l ret hl hround hret
    · intro hrelease
      refine ⟨(fun _ hret => nomatch hret), fun _ l ret hl hround hret => ?_⟩
      exact hrelease l hl hround ⟨ret, hret⟩

theorem promise_release_iff {s : State} (h : Shape s) (hp : Promise s) {k : ℕ}
    (hk : s.phase k = .releasing) : Promise (release s k) ↔ Timely s (.release k) := by
  obtain ⟨hcomplete, hawake⟩ := h.promise_iff.mp hp
  have hlast : s.IsLast k := by
    have hrole := h.role k
    rwa [hk] at hrole
  have hround : (s.round k + 1) * s.initValue ≤ s.arrived := by
    apply h.complete_last hlast
    rw [hk]
    exact Phase.noConfusion
  have hnotin : ∀ j ∈ s.sync.queue, j ≠ k := by
    rintro j hj rfl
    rw [h.queue, hk] at hj
    cases hj
  apply (h.release hk).promise_iff.trans
  constructor
  · rintro ⟨hcomplete', hawake'⟩
    refine ⟨fun j hj => ?_, fun j hj hjk => ?_⟩
    · apply (complete_iff h.pos j).mpr
      apply hcomplete' j .none
      rw [release_phase, if_neg (hnotin j (List.mem_of_mem_take hj)), if_pos hj]
    · by_contra htake
      apply hawake' k j .serialThread hlast hjk.symm
      · rw [release_phase, if_pos rfl]
      · rw [release_phase, if_neg (hnotin j hj), if_neg htake]
        exact (h.queue j).mp hj
  · rintro ⟨hfront, hfellows⟩
    constructor
    · intro j ret hret
      rw [release_phase] at hret
      split_ifs at hret with hjk htake
      · rw [hjk]
        exact hround
      · exact (complete_iff h.pos j).mp (hfront j htake)
      · exact hcomplete j ret hret
    · intro l j ret hl hlj hret hasleep
      rw [release_phase] at hret hasleep
      split_ifs at hasleep with hjk htake
      have hmem := (h.queue j).mpr hasleep
      split_ifs at hret with hlk hltake
      · subst hlk
        exact htake (hfellows j hmem hlj.symm)
      · -- a call of the queue is not the last of its round
        have hrole := h.role l
        rw [(h.queue l).mp (List.mem_of_mem_take hltake)] at hrole
        exact hrole hl
      · exact hawake l j ret hl hlj hret hasleep

theorem promise_step_iff {s s' : State} {a : Act} (h : Shape s) (hp : Promise s)
    (hs : step s a = some s') : Promise s' ↔ Timely s a := by
  cases a with
  | count =>
    obtain rfl := Option.some.inj hs
    exact iff_of_true (promise_count h hp) trivial
  | pend k =>
    simp only [step] at hs
    split_ifs at hs with hk
    obtain rfl := Option.some.inj hs
    exact promise_pend_iff h hp hk
  | release k =>
    simp only [step] at hs
    split_ifs at hs with hk
    obtain rfl := Option.some.inj hs
    exact promise_release_iff h hp hk

theorem promise_init {n : ℕ} {s : State} (hs : pthreadBarrierInit n = some s) : Promise s := by
  have hphase : ∀ k, s.phase k = .absent := by
    unfold pthreadBarrierInit at hs
    split_ifs at hs
    obtain rfl := Option.some.inj hs
    exact fun _ => rfl
  apply (shape_init hs).promise_iff.mpr
  refine ⟨fun k ret hret => ?_, fun l k ret _ _ hret => ?_⟩
  · rw [hphase] at hret
    cases hret
  · rw [hphase] at hret
    cases hret

/-- Along every run of a barrier the promise holds exactly when every step is timely. -/
theorem barrier_promise_iff (n : ℕ) (s : State) (hs : pthreadBarrierInit n = some s)
    (acts : List Act) : Visits step Promise s acts ↔ Obeys step Timely s acts := by
  apply visits_iff_obeys (I := fun s => Shape s ∧ Promise s)
  · exact fun s a s' h ht hs => ⟨h.1.step hs, (promise_step_iff h.1 h.2 hs).mpr ht⟩
  · exact fun s h => h.2
  · exact fun s a s' h hs hp => (promise_step_iff h.1 h.2 hs).mp hp
  · exact ⟨shape_init hs, promise_init hs⟩

def strandedRun : List Act :=
  [.count, .count, .count, .release 2, .pend 0, .pend 1]

def barrierOfThree : State := ⟨3, 3, ⟨false, []⟩, 0, fun _ => .absent⟩

theorem barrier_promise_iff_stranded :
    pthreadBarrierInit 3 = some barrierOfThree ∧
      (Visits step Promise barrierOfThree strandedRun ↔
        Obeys step Timely barrierOfThree strandedRun) :=
  ⟨rfl, barrier_promise_iff 3 barrierOfThree rfl strandedRun⟩

/-- The second of them is asleep although the last call has returned. -/
theorem barrier_strands_call :
    pthreadBarrierInit 3 = some barrierOfThree ∧
      ¬ Visits step Promise barrierOfThree strandedRun := by
  refine ⟨rfl, fun h => ?_⟩
  have hp := h.last (Option.some_get (by decide)).symm
  exact hp.awake 2 1 rfl rfl ⟨.serialThread, rfl⟩ rfl

end SylixOS.PthreadBarrier
