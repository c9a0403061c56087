import SylixOS.Eventfd

/-! The eventfd device keeps its counter, and wakes whoever can go on, along
every run that meets the condition. A counter that can be read is announced by
the token of the read semaphore or by a thread that will post or take it. -/

namespace SylixOS.Eventfd
open BinarySemaphore StepRuns Function

variable {T : Type*} [DecidableEq T] {s : State T} {t : T} {initval : BitVec 32}

theorem toNat_maxCnt : maxCnt.toNat = 18446744073709551615 := by decide

theorem fits_iff (u64Add counter : BitVec 64) :
    fits u64Add counter = true ↔ counter.toNat + u64Add.toNat < maxCnt.toNat := by
  have hle : u64Add ≤ maxCnt := by
    have hadd := u64Add.isLt
    rw [BitVec.le_def, toNat_maxCnt]
    omega
  have hsub : (maxCnt - u64Add).toNat = maxCnt.toNat - u64Add.toNat := BitVec.toNat_sub_of_le hle
  rw [fits, decide_eq_true_iff, gt_iff_lt, BitVec.lt_def, hsub]
  omega

theorem fits_false (u64Add counter : BitVec 64) :
    fits u64Add counter = false ↔ maxCnt.toNat ≤ counter.toNat + u64Add.toNat := by
  rw [← Bool.not_eq_true, fits_iff, not_lt]

def Phase.readWaits : Phase → Bool
  | .readAsleep _ => true
  | _ => false

def Phase.writeWaits : Phase → Bool
  | .writeAsleep _ => true
  | _ => false

def Phase.bringsRead : Phase → Bool
  | .readTest _ | .readPostRead | .writePostRead => true
  | _ => false

def Moments (counter : BitVec 64) (log : List (BitVec 64)) : Phase → Prop
  | .readPend c again => counter ∈ log.drop c.start ∧ (again = true → 0 ∈ log.drop c.start)
  | .readAsleep c => counter ∈ log.drop c.start
  | .readTest c => counter ∈ log.drop c.start
  | .writePend c again =>
    counter ∈ log.drop c.start ∧
      (again = true → ∃ x ∈ log.drop c.start, maxCnt.toNat ≤ x.toNat + c.u64Add.toNat)
  | .writeAsleep c => counter ∈ log.drop c.start
  | .writeTest c => counter ∈ log.drop c.start
  | _ => True

theorem mem_drop_append {log : List (BitVec 64)} {x : BitVec 64} {n : ℕ} (h : x ∈ log.drop n)
    (y : BitVec 64) : x ∈ (log ++ [y]).drop n ∧ y ∈ (log ++ [y]).drop n := by
  have hn : n ≤ log.length := by
    by_contra hlong
    rw [List.drop_eq_nil_of_le (by omega)] at h
    cases h
  rw [List.drop_append_of_le_length hn]
  exact ⟨List.mem_append_left _ h, List.mem_append_right _ (by simp)⟩

theorem Moments.log {counter : BitVec 64} {log : List (BitVec 64)} {phase : Phase}
    (h : Moments counter log phase) (counter' : BitVec 64) :
    Moments counter' (log ++ [counter']) phase := by
  cases phase with
  | readPend c again =>
    obtain ⟨hseen, hzero⟩ := h
    exact ⟨(mem_drop_append hseen _).2, fun hagain => (mem_drop_append (hzero hagain) _).1⟩
  | writePend c again =>
    obtain ⟨hseen, hfull⟩ := h
    refine ⟨(mem_drop_append hseen _).2, fun hagain => ?_⟩
    obtain ⟨x, hx, hle⟩ := hfull hagain
    exact ⟨x, (mem_drop_append hx _).1, hle⟩
  | readAsleep c => exact (mem_drop_append h _).2
  | readTest c => exact (mem_drop_append h _).2
  | writeAsleep c => exact (mem_drop_append h _).2
  | writeTest c => exact (mem_drop_append h _).2
  | idle => trivial
  | readPostRead => trivial
  | readPostWrite => trivial
  | writePostRead => trivial

structure Ok (initval : BitVec 32) (s : State T) : Prop where
  balance : s.counter.toNat + total s.read = initval.toNat + total s.written
  below : s.counter.toNat < maxCnt.toNat
  readFair : s.readLock.Fair
  writeFair : s.writeLock.Fair
  readQueue : ∀ t, t ∈ s.readLock.queue ↔ (s.phase t).readWaits = true
  writeQueue : ∀ t, t ∈ s.writeLock.queue ↔ (s.phase t).writeWaits = true
  nodup : s.readLock.queue.Nodup
  alone : s.writeLock.queue.length ≤ 1
  /-- a counter that can be read is announced -/
  readable : s.counter ≠ 0 → s.readLock.token = true ∨ ∃ t, (s.phase t).bringsRead = true
  /-- a write that has room will be woken -/
  writable : ∀ t c, s.phase t = .writeAsleep c → fits c.u64Add s.counter = true →
    ∃ u, (s.phase u).makesRoom = true
  moments : ∀ t, Moments s.counter s.log (s.phase t)
  failures : ∀ f ∈ s.failures, f.Justified

omit [DecidableEq T] in
theorem Ok.counts (h : Ok initval s) : s.Counts initval := by
  constructor
  case balance => exact h.balance
  case below => exact h.below
  case failures => exact h.failures
  case readers =>
    intro hsettled t c ht
    by_contra hne
    have hin := (h.readQueue t).mpr (by rw [ht]; rfl)
    rcases h.readable hne with htoken | ⟨u, hu⟩
    · rw [h.readFair htoken] at hin
      cases hin
    · have hidle := hsettled u
      cases hp : s.phase u <;> simp [hp, Phase.bringsRead, Phase.busy] at hu hidle
  case writers =>
    intro hsettled t c ht
    rw [← fits_false]
    by_contra hroom
    obtain ⟨u, hu⟩ := h.writable t c ht (by simpa using hroom)
    have hidle := hsettled u
    cases hp : s.phase u <;> simp [hp, Phase.makesRoom, Phase.busy] at hu hidle

omit [DecidableEq T] in
theorem ok_create (initval : BitVec 32) (semaphore : Bool) :
    Ok initval (State.create initval semaphore : State T) := by
  have hlt := initval.isLt
  have hnat : (initval.setWidth 64).toNat = initval.toNat := by
    rw [BitVec.toNat_setWidth]
    omega
  constructor
  case balance => simp [State.create, total, hnat]
  case below =>
    simp only [State.create, hnat, toNat_maxCnt]
    omega
  case readFair => exact fun _ => rfl
  case writeFair => exact fun _ => rfl
  case readQueue => simp [State.create, Phase.readWaits]
  case writeQueue => simp [State.create, Phase.writeWaits]
  case nodup => exact List.nodup_nil
  case alone => simp [State.create]
  case readable =>
    intro hne
    left
    simp only [State.create, ne_eq, decide_eq_true_eq]
    rintro rfl
    exact hne rfl
  case writable => exact fun t c ht => nomatch ht
  case moments => exact fun t => trivial
  case failures => exact fun f hf => nomatch hf

theorem Ok.goto (h : Ok initval s) (hold : (s.phase t).readWaits = false)
    (hold' : (s.phase t).writeWaits = false) {phase : Phase} (hnew : phase.readWaits = false)
    (hnew' : phase.writeWaits = false)
    (hread : (s.phase t).bringsRead = true → phase.bringsRead = true ∨ s.counter = 0 ∨
      s.readLock.token = true ∨ ∃ u ≠ t, (s.phase u).bringsRead = true)
    (hroom : (s.phase t).makesRoom = true → phase.makesRoom = true ∨ s.writeLock.queue = [])
    (hmoments : Moments s.counter s.log phase) : Ok initval (s.goto t phase) := by
  have hother : ∀ u, u ≠ t → (s.goto t phase).phase u = s.phase u := fun u hu =>
    update_of_ne hu _ _
  have hself : (s.goto t phase).phase t = phase := update_self _ _ _
  constructor
  case balance => exact h.balance
  case below => exact h.below
  case readFair => exact h.readFair
  case writeFair => exact h.writeFair
  case readQueue =>
    intro u
    by_cases hu : u = t
    · rw [hu, hself, hnew, ← hold]
      exact h.readQueue t
    · rw [hother u hu]
      exact h.readQueue u
  case writeQueue =>
    intro u
    by_cases hu : u = t
    · rw [hu, hself, hnew', ← hold']
      exact h.writeQueue t
    · rw [hother u hu]
      exact h.writeQueue u
  case nodup => exact h.nodup
  case alone => exact h.alone
  case readable =>
    intro hne
    rcases h.readable hne with htoken | ⟨u, hu⟩
    · exact Or.inl htoken
    · by_cases hut : u = t
      · rw [hut] at hu
        rcases hread hu with hbrings | hzero | htoken | ⟨v, hvt, hv⟩
        · exact Or.inr ⟨t, by rw [hself]; exact hbrings⟩
        · exact absurd hzero hne
        · exact Or.inl htoken
        · exact Or.inr ⟨v, by rw [hother v hvt]; exact hv⟩
      · exact Or.inr ⟨u, by rw [hother u hut]; exact hu⟩
  case writable =>
    intro u c hu hfits
    have hut : u ≠ t := by
      rintro rfl
      rw [hself] at hu
      rw [hu] at hnew'
      cases hnew'
    rw [hother u hut] at hu
    obtain ⟨v, hv⟩ := h.writable u c hu hfits
    by_cases hvt : v = t
    · rw [hvt] at hv
      rcases hroom hv with hmakes | hempty
      · exact ⟨t, by rw [hself]; exact hmakes⟩
      · have hin := (h.writeQueue u).mpr (by rw [hu]; rfl)
        rw [hempty] at hin
        cases hin
    · exact ⟨v, by rw [hother v hvt]; exact hv⟩
  case moments =>
    intro u
    by_cases hu : u = t
    · rw [hu, hself]
      exact hmoments
    · rw [hother u hu]
      exact h.moments u
  case failures => exact h.failures

omit [DecidableEq T] in
theorem Ok.logged (h : Ok initval s) : Ok initval { s with log := s.log ++ [s.counter] } :=
  { h with moments := fun t => (h.moments t).log s.counter }

theorem Ok.fail (h : Ok initval s) (hold : (s.phase t).readWaits = false)
    (hold' : (s.phase t).writeWaits = false) (hread : (s.phase t).bringsRead = false)
    (hroom : (s.phase t).makesRoom = false) {f : Failure} (hf : f.Justified) :
    Ok initval (s.fail t f) := by
  have hleft : Ok initval (s.goto t .idle) :=
    h.goto hold hold' rfl rfl (by simp [hread]) (by simp [hroom]) trivial
  exact { hleft with
    failures := by
      intro g hg
      rcases List.mem_append.mp hg with hg | hg
      · exact h.failures g hg
      · rw [List.mem_singleton.mp hg]
        exact hf }

theorem Ok.evtfdRead (h : Ok initval s) (hphase : s.phase t = .idle) (nonblock : Bool) :
    Ok initval (evtfdRead s t nonblock) := by
  have hmoments : Moments s.counter (s.log ++ [s.counter])
      (.readPend ⟨nonblock, s.log.length⟩ false) := by simp [Moments]
  exact h.logged.goto (t := t) (by simp [hphase, Phase.readWaits])
    (by simp [hphase, Phase.writeWaits]) rfl rfl (by simp [hphase, Phase.bringsRead])
    (by simp [hphase, Phase.makesRoom]) hmoments

theorem Ok.evtfdWrite (h : Ok initval s) (hphase : s.phase t = .idle) (u64Add : BitVec 64)
    (nonblock : Bool) : Ok initval (evtfdWrite s t u64Add nonblock) := by
  unfold Eventfd.evtfdWrite
  split
  case isTrue hmax =>
    exact h.fail (by simp [hphase, Phase.readWaits]) (by simp [hphase, Phase.writeWaits])
      (by simp [hphase, Phase.bringsRead]) (by simp [hphase, Phase.makesRoom]) hmax
  case isFalse =>
    have hmoments : Moments s.counter (s.log ++ [s.counter])
        (.writePend ⟨u64Add, nonblock, s.log.length⟩ false) := by simp [Moments]
    exact h.logged.goto (t := t) (by simp [hphase, Phase.readWaits])
      (by simp [hphase, Phase.writeWaits]) rfl rfl (by simp [hphase, Phase.bringsRead])
      (by simp [hphase, Phase.makesRoom]) hmoments

theorem Ok.readPend (h : Ok initval s) {c : ReadCall} {again : Bool}
    (hphase : s.phase t = .readPend c again) (hfair : Finds s (s.phase t)) :
    Ok initval (readPend s t c) := by
  have hseen := h.moments t
  rw [hphase] at hseen hfair
  obtain ⟨hnow, hzero⟩ := hseen
  unfold Eventfd.readPend
  split
  case isTrue htoken =>
    have hqueue := h.readFair htoken
    have htest : Ok initval (s.goto t (.readTest c)) :=
      h.goto (by simp [hphase, Phase.readWaits]) (by simp [hphase, Phase.writeWaits]) rfl rfl
        (by simp [hphase, Phase.bringsRead]) (by simp [hphase, Phase.makesRoom]) hnow
    have hpend : (s.readLock.pend t).2 = ⟨false, []⟩ := by
      simp [Sem.pend, htoken, hqueue]
    rw [hpend]
    exact { htest with
      readFair := fun hfalse => absurd hfalse Bool.false_ne_true
      readQueue := fun u => by
        rw [← hqueue]
        exact htest.readQueue u
      nodup := List.nodup_nil
      readable := fun _ => Or.inr ⟨t, by simp [State.goto, Phase.bringsRead]⟩ }
  case isFalse htoken =>
    split
    case isTrue hnonblock =>
      have hreason : 0 ∈ s.log.drop c.start := by
        rcases hfair with htrue | hblock | hagain | hcounter
        · exact absurd htrue htoken
        · simp [hnonblock] at hblock
        · exact hzero hagain
        · rwa [hcounter] at hnow
      exact h.fail (by simp [hphase, Phase.readWaits]) (by simp [hphase, Phase.writeWaits])
        (by simp [hphase, Phase.bringsRead]) (by simp [hphase, Phase.makesRoom]) hreason
    case isFalse =>
      have hout : t ∉ s.readLock.queue := by
        rw [h.readQueue, hphase]
        simp [Phase.readWaits]
      have hpend : (s.readLock.pend t).2 = ⟨s.readLock.token, s.readLock.queue ++ [t]⟩ := by
        simp [Sem.pend, htoken]
      rw [hpend]
      have hother : ∀ u, u ≠ t → (s.goto t (.readAsleep c)).phase u = s.phase u := fun u hu =>
        update_of_ne hu _ _
      have hself : (s.goto t (.readAsleep c)).phase t = .readAsleep c :=
        update_self _ _ _
      constructor
      case balance => exact h.balance
      case below => exact h.below
      case readFair => exact fun htrue => absurd htrue htoken
      case writeFair => exact h.writeFair
      case readQueue =>
        intro u
        change u ∈ s.readLock.queue ++ [t] ↔ ((s.goto t (.readAsleep c)).phase u).readWaits = true
        by_cases hu : u = t
        · rw [hu, hself]
          simp [Phase.readWaits]
        · rw [hother u hu, ← h.readQueue]
          simp [hu]
      case writeQueue =>
        intro u
        change u ∈ s.writeLock.queue ↔ ((s.goto t (.readAsleep c)).phase u).writeWaits = true
        by_cases hu : u = t
        · rw [hu, hself, h.writeQueue, hphase]
          simp [Phase.writeWaits]
        · rw [hother u hu, h.writeQueue]
      case nodup => simpa using h.nodup.concat hout
      case alone => exact h.alone
      case readable =>
        intro hne
        rcases h.readable hne with htrue | ⟨u, hu⟩
        · exact absurd htrue htoken
        · have hut : u ≠ t := by
            rintro rfl
            simp [hphase, Phase.bringsRead] at hu
          exact Or.inr ⟨u, by rw [show State.phase _ u = _ from hother u hut]; exact hu⟩
      case writable =>
        intro u c' hu hfits
        have hut : u ≠ t := by
          rintro rfl
          rw [show State.phase _ u = _ from hself] at hu
          cases hu
        rw [show State.phase _ u = _ from hother u hut] at hu
        obtain ⟨v, hv⟩ := h.writable u c' hu hfits
        have hvt : v ≠ t := by
          rintro rfl
          simp [hphase, Phase.makesRoom] at hv
        exact ⟨v, by rw [show State.phase _ v = _ from hother v hvt]; exact hv⟩
      case moments =>
        intro u
        change Moments s.counter s.log ((s.goto t (.readAsleep c)).phase u)
        by_cases hu : u = t
        · rw [hu, hself]
          exact hnow
        · rw [hother u hu]
          exact h.moments u
      case failures => exact h.failures

theorem Ok.change (h : Ok initval s) (hold : (s.phase t).readWaits = false)
    (hold' : (s.phase t).writeWaits = false) {phase : Phase} (hnew : phase.readWaits = false)
    (hnew' : phase.writeWaits = false) {counter : BitVec 64} {written read : List (BitVec 64)}
    (hbalance : counter.toNat + total read = initval.toNat + total written)
    (hbelow : counter.toNat < maxCnt.toNat) (hread : counter ≠ 0 → phase.bringsRead = true)
    (hroom : phase.makesRoom = true ∨
      (s.phase t).makesRoom = false ∧ s.counter.toNat ≤ counter.toNat)
    (hmoments : ∀ counter log, Moments counter log phase) :
    Ok initval { (s.goto t phase).set counter with written := written, read := read } := by
  have hother : ∀ u, u ≠ t → (s.goto t phase).phase u = s.phase u := fun u hu =>
    update_of_ne hu _ _
  have hself : (s.goto t phase).phase t = phase := update_self _ _ _
  constructor
  case balance => exact hbalance
  case below => exact hbelow
  case readFair => exact h.readFair
  case writeFair => exact h.writeFair
  case readQueue =>
    intro u
    change u ∈ s.readLock.queue ↔ ((s.goto t phase).phase u).readWaits = true
    by_cases hu : u = t
    · rw [hu, hself, hnew, ← hold]
      exact h.readQueue t
    · rw [hother u hu]
      exact h.readQueue u
  case writeQueue =>
    intro u
    change u ∈ s.writeLock.queue ↔ ((s.goto t phase).phase u).writeWaits = true
    by_cases hu : u = t
    · rw [hu, hself, hnew', ← hold']
      exact h.writeQueue t
    · rw [hother u hu]
      exact h.writeQueue u
  case nodup => exact h.nodup
  case alone => exact h.alone
  case readable =>
    exact fun hne => Or.inr ⟨t, (congrArg Phase.bringsRead hself).trans (hread hne)⟩
  case writable =>
    intro u c hu hfits
    change (s.goto t phase).phase u = .writeAsleep c at hu
    change fits c.u64Add counter = true at hfits
    have hut : u ≠ t := by
      rintro rfl
      rw [hself] at hu
      rw [hu] at hnew'
      cases hnew'
    rw [hother u hut] at hu
    rcases hroom with hmakes | ⟨hnone, hle⟩
    · exact ⟨t, (congrArg Phase.makesRoom hself).trans hmakes⟩
    · -- the counter has only grown: the value fitted before
      have hbefore : fits c.u64Add s.counter = true := by
        rw [fits_iff] at hfits ⊢
        omega
      obtain ⟨v, hv⟩ := h.writable u c hu hbefore
      have hvt : v ≠ t := by
        rintro rfl
        rw [hnone] at hv
        cases hv
      exact ⟨v, (congrArg Phase.makesRoom (hother v hvt)).trans hv⟩
  case moments =>
    intro u
    change Moments counter (s.log ++ [counter]) ((s.goto t phase).phase u)
    by_cases hu : u = t
    · rw [hu, hself]
      exact hmoments _ _
    · rw [hother u hu]
      exact (h.moments u).log counter
  case failures => exact h.failures

theorem total_concat (l : List (BitVec 64)) (x : BitVec 64) :
    total (l ++ [x]) = total l + x.toNat := by
  simp [total]

theorem Ok.readTest (h : Ok initval s) {c : ReadCall} (hphase : s.phase t = .readTest c) :
    Ok initval (readTest s t c) := by
  have hnow := h.moments t
  rw [hphase] at hnow
  have hold : (s.phase t).readWaits = false := by rw [hphase]; rfl
  have hold' : (s.phase t).writeWaits = false := by rw [hphase]; rfl
  unfold Eventfd.readTest
  split
  case isTrue hzero =>
    refine h.goto hold hold' rfl rfl (fun _ => Or.inr (Or.inl hzero)) ?_ ⟨hnow, fun _ => ?_⟩
    · simp [hphase, Phase.makesRoom]
    · exact hzero ▸ hnow
  case isFalse hne =>
    have hpos : 0 < s.counter.toNat := by
      rw [Nat.pos_iff_ne_zero]
      intro hzero
      exact hne (BitVec.eq_of_toNat_eq hzero)
    set counter := if s.semaphore then s.counter - 1 else 0 with hcounter
    set value := if s.semaphore then 1 else s.counter with hvalue
    have hsum : counter.toNat + value.toNat = s.counter.toNat := by
      rw [hcounter, hvalue]
      cases s.semaphore with
      | false => simp
      | true =>
        have hone : (1 : BitVec 64) ≤ s.counter := by
          rw [BitVec.le_def]
          exact hpos
        have hsub := BitVec.toNat_sub_of_le hone
        simp only [if_true, hsub]
        have h1 : (1 : BitVec 64).toNat = 1 := rfl
        omega
    have hbalance := h.balance
    have hbelow := h.below
    refine h.change hold hold' ?_ ?_ ?_ (by omega) ?_ (Or.inl ?_) ?_
    · split <;> rfl
    · split <;> rfl
    · rw [total_concat]
      change counter.toNat + (total s.read + value.toNat) = initval.toNat + total s.written
      omega
    · intro hleft
      rw [if_neg hleft]
      rfl
    · split <;> rfl
    · intro counter' log
      split <;> trivial

theorem Ok.writePend (h : Ok initval s) {c : WriteCall} {again : Bool}
    (hphase : s.phase t = .writePend c again) (hfair : Finds s (s.phase t)) :
    Ok initval (writePend s t c) := by
  have hseen := h.moments t
  rw [hphase] at hseen hfair
  obtain ⟨hnow, hfull⟩ := hseen
  unfold Eventfd.writePend
  split
  case isTrue htoken =>
    have hqueue := h.writeFair htoken
    have htest : Ok initval (s.goto t (.writeTest c)) :=
      h.goto (by simp [hphase, Phase.readWaits]) (by simp [hphase, Phase.writeWaits]) rfl rfl
        (by simp [hphase, Phase.bringsRead]) (by simp [hphase, Phase.makesRoom]) hnow
    have hpend : (s.writeLock.pend t).2 = ⟨false, []⟩ := by
      simp [Sem.pend, htoken, hqueue]
    rw [hpend]
    exact { htest with
      writeFair := fun hfalse => absurd hfalse Bool.false_ne_true
      writeQueue := fun u => by
        rw [← hqueue]
        exact htest.writeQueue u
      alone := Nat.zero_le 1 }
  case isFalse htoken =>
    have hneeds := hfair.resolve_left htoken
    split
    case isTrue hnonblock =>
      rw [if_pos hnonblock] at hneeds
      have hreason : ∃ x ∈ s.log.drop c.start, maxCnt.toNat ≤ x.toNat + c.u64Add.toNat := by
        rcases hneeds with hagain | hfits
        · exact hfull hagain
        · exact ⟨s.counter, hnow, (fits_false _ _).mp hfits⟩
      exact h.fail (by simp [hphase, Phase.readWaits]) (by simp [hphase, Phase.writeWaits])
        (by simp [hphase, Phase.bringsRead]) (by simp [hphase, Phase.makesRoom]) hreason
    case isFalse hblock =>
      rw [if_neg hblock] at hneeds
      obtain ⟨hqueue, hroom⟩ := hneeds
      have hpend : (s.writeLock.pend t).2 = ⟨s.writeLock.token, [t]⟩ := by
        simp [Sem.pend, htoken, hqueue]
      rw [hpend]
      have hother : ∀ u, u ≠ t → (s.goto t (.writeAsleep c)).phase u = s.phase u := fun u hu =>
        update_of_ne hu _ _
      have hself : (s.goto t (.writeAsleep c)).phase t = .writeAsleep c :=
        update_self _ _ _
      constructor
      case balance => exact h.balance
      case below => exact h.below
      case readFair => exact h.readFair
      case writeFair => exact fun htrue => absurd htrue htoken
      case readQueue =>
        intro u
        change u ∈ s.readLock.queue ↔ ((s.goto t (.writeAsleep c)).phase u).readWaits = true
        by_cases hu : u = t
        · rw [hu, hself, h.readQueue, hphase]
          simp [Phase.readWaits]
        · rw [hother u hu, h.readQueue]
      case writeQueue =>
        intro u
        change u ∈ [t] ↔ ((s.goto t (.writeAsleep c)).phase u).writeWaits = true
        by_cases hu : u = t
        · rw [hu, hself]
          simp [Phase.writeWaits]
        · rw [hother u hu, ← h.writeQueue, hqueue]
          simp [hu]
      case nodup => exact h.nodup
      case alone => exact Nat.le_refl 1
      case readable =>
        intro hne
        rcases h.readable hne with htrue | ⟨u, hu⟩
        · exact Or.inl htrue
        · have hut : u ≠ t := by
            rintro rfl
            simp [hphase, Phase.bringsRead] at hu
          exact Or.inr ⟨u, (congrArg Phase.bringsRead (hother u hut)).trans hu⟩
      case writable =>
        intro u c' hu hfits
        change (s.goto t (.writeAsleep c)).phase u = .writeAsleep c' at hu
        have hmakes : ∃ v, (s.phase v).makesRoom = true := by
          by_cases hut : u = t
          · rw [hut, hself] at hu
            cases hu
            rcases hroom with hnone | hmakes
            · have hfits' : fits c.u64Add s.counter = true := hfits
              rw [hnone] at hfits'
              cases hfits'
            · exact hmakes
          · rw [hother u hut] at hu
            exact h.writable u c' hu hfits
        obtain ⟨v, hv⟩ := hmakes
        have hvt : v ≠ t := by
          rintro rfl
          simp [hphase, Phase.makesRoom] at hv
        exact ⟨v, (congrArg Phase.makesRoom (hother v hvt)).trans hv⟩
      case moments =>
        intro u
        change Moments s.counter s.log ((s.goto t (.writeAsleep c)).phase u)
        by_cases hu : u = t
        · rw [hu, hself]
          exact hnow
        · rw [hother u hu]
          exact h.moments u
      case failures => exact h.failures

theorem Ok.writeTest (h : Ok initval s) {c : WriteCall} (hphase : s.phase t = .writeTest c) :
    Ok initval (writeTest s t c) := by
  have hnow := h.moments t
  rw [hphase] at hnow
  have hold : (s.phase t).readWaits = false := by rw [hphase]; rfl
  have hold' : (s.phase t).writeWaits = false := by rw [hphase]; rfl
  unfold Eventfd.writeTest
  split
  case isTrue hfits =>
    have hlt := (fits_iff _ _).mp hfits
    have hmax := toNat_maxCnt
    have hsum : (s.counter + c.u64Add).toNat = s.counter.toNat + c.u64Add.toNat := by
      rw [BitVec.toNat_add]
      apply Nat.mod_eq_of_lt
      omega
    have hbalance := h.balance
    refine h.change hold hold' ?_ ?_ ?_ (by omega) ?_ (Or.inr ⟨?_, by omega⟩) ?_
    · split <;> rfl
    · split <;> rfl
    · rw [total_concat]
      change _ + total s.read = initval.toNat + (total s.written + c.u64Add.toNat)
      omega
    · intro hleft
      rw [if_neg hleft]
      rfl
    · rw [hphase]
      rfl
    · intro counter' log
      split <;> trivial
  case isFalse hfits =>
    have hfull := (fits_false _ _).mp (Bool.eq_false_iff.mpr hfits)
    exact h.goto hold hold' rfl rfl (by simp [hphase, Phase.bringsRead])
      (by simp [hphase, Phase.makesRoom]) ⟨hnow, fun _ => ⟨s.counter, hnow, hfull⟩⟩

theorem woken_of_readWaits {phase : Phase} (h : phase.readWaits = true) :
    ∃ c, phase = .readAsleep c ∧ phase.woken = .readTest c := by
  cases phase with
  | readAsleep c => exact ⟨c, rfl, rfl⟩
  | _ => cases h

theorem woken_of_writeWaits {phase : Phase} (h : phase.writeWaits = true) :
    ∃ c, phase = .writeAsleep c ∧ phase.woken = .writeTest c := by
  cases phase with
  | writeAsleep c => exact ⟨c, rfl, rfl⟩
  | _ => cases h

omit [DecidableEq T] in
theorem readWaits_ne {u : T} (h : (s.phase t).readWaits = false)
    (hu : (s.phase u).readWaits = true) : u ≠ t := by
  rintro rfl
  rw [h] at hu
  cases hu

theorem Ok.readPosted (h : Ok initval s) (i : ℕ) :
    Ok initval { s.wake (s.readLock.post i).1 with readLock := (s.readLock.post i).2 } ∧
      ((s.readLock.post i).1 = none ∧ (s.readLock.post i).2.token = true ∨
        ∃ u, (s.readLock.post i).1 = some u ∧ (s.phase u).readWaits = true ∧
          (s.phase u).woken.bringsRead = true) := by
  rcases post_cases h.nodup i with ⟨hqueue, hpost⟩ | ⟨u, hu, hpost⟩
  · rw [hpost]
    refine ⟨{ h with readFair := fun _ => rfl, readQueue := ?_, nodup := List.nodup_nil,
                     readable := fun _ => Or.inl rfl }, Or.inl ⟨rfl, rfl⟩⟩
    intro v
    rw [← hqueue]
    exact h.readQueue v
  · obtain ⟨c, hasleep, hwoken⟩ := woken_of_readWaits ((h.readQueue u).mp hu)
    have hnow := h.moments u
    rw [hasleep] at hnow
    have hother : ∀ v, v ≠ u → (s.goto u (.readTest c)).phase v = s.phase v := fun v hv =>
      update_of_ne hv _ _
    have hself : (s.goto u (.readTest c)).phase u = .readTest c := update_self _ _ _
    rw [hpost]
    refine ⟨?_, Or.inr ⟨u, rfl, (h.readQueue u).mp hu, by rw [hwoken]; rfl⟩⟩
    change Ok initval { s.goto u (s.phase u).woken with readLock := s.readLock.leave u }
    rw [hwoken]
    constructor
    case balance => exact h.balance
    case below => exact h.below
    case readFair => exact h.readFair.leave u
    case writeFair => exact h.writeFair
    case readQueue =>
      intro v
      change v ∈ s.readLock.queue.erase u ↔ ((s.goto u (.readTest c)).phase v).readWaits = true
      by_cases hv : v = u
      · rw [hv, hself, h.nodup.mem_erase_iff]
        simp [Phase.readWaits]
      · rw [hother v hv, ← h.readQueue, h.nodup.mem_erase_iff]
        simp [hv]
    case writeQueue =>
      intro v
      change v ∈ s.writeLock.queue ↔ ((s.goto u (.readTest c)).phase v).writeWaits = true
      by_cases hv : v = u
      · rw [hv, hself, h.writeQueue, hasleep]
        simp [Phase.writeWaits]
      · rw [hother v hv, h.writeQueue]
    case nodup => exact h.nodup.erase u
    case alone => exact h.alone
    case readable => exact fun _ => Or.inr ⟨u, congrArg Phase.bringsRead hself⟩
    case writable =>
      intro v c' hv hfits
      change (s.goto u (.readTest c)).phase v = .writeAsleep c' at hv
      have hvu : v ≠ u := by
        rintro rfl
        rw [hself] at hv
        cases hv
      rw [hother v hvu] at hv
      obtain ⟨w, hw⟩ := h.writable v c' hv hfits
      have hwu : w ≠ u := by
        rintro rfl
        simp [hasleep, Phase.makesRoom] at hw
      exact ⟨w, (congrArg Phase.makesRoom (hother w hwu)).trans hw⟩
    case moments =>
      intro v
      change Moments s.counter s.log ((s.goto u (.readTest c)).phase v)
      by_cases hv : v = u
      · rw [hv, hself]
        exact hnow
      · rw [hother v hv]
        exact h.moments v
    case failures => exact h.failures

theorem Ok.postRead (h : Ok initval s) (hold : (s.phase t).readWaits = false)
    (hold' : (s.phase t).writeWaits = false) (phase : Phase) (hnew : phase.readWaits = false)
    (hnew' : phase.writeWaits = false)
    (hroom : (s.phase t).makesRoom = true → phase.makesRoom = true)
    (hmoments : ∀ counter log, Moments counter log phase) (i : ℕ) :
    Ok initval (postRead s t phase i) := by
  obtain ⟨hposted, hgiven⟩ := h.readPosted i
  rcases hgiven with ⟨hnone, htoken⟩ | ⟨u, hsome, hu, hbrings⟩
  · -- nobody waits: the token stays
    rw [hnone] at hposted
    have hgo := hposted.goto (t := t) hold hold' hnew hnew'
      (fun _ => Or.inr (Or.inr (Or.inl htoken))) (fun hm => Or.inl (hroom hm)) (hmoments _ _)
    unfold Eventfd.postRead
    simp only [hnone]
    exact hgo
  · have hut := readWaits_ne hold hu
    rw [hsome] at hposted
    have hsame : ∀ v, v ≠ u → (s.wake (some u)).phase v = s.phase v := fun v hv =>
      update_of_ne hv _ _
    have hwoken : (s.wake (some u)).phase u = (s.phase u).woken := update_self _ _ _
    have hself := hsame t hut.symm
    have hgo := hposted.goto (t := t) ((congrArg Phase.readWaits hself).trans hold)
      ((congrArg Phase.writeWaits hself).trans hold') hnew hnew'
      (fun _ => Or.inr (Or.inr (Or.inr
        ⟨u, hut, (congrArg Phase.bringsRead hwoken).trans hbrings⟩)))
      (fun hm => Or.inl (hroom ((congrArg Phase.makesRoom hself).symm.trans hm))) (hmoments _ _)
    have hcomm : (s.goto t phase).wake (some u) = (s.wake (some u)).goto t phase := by
      have hsleeper : (s.goto t phase).phase u = s.phase u := update_of_ne hut _ _
      rw [State.wake, State.wake, hsleeper]
      simp only [State.goto]
      rw [update_comm hut]
    unfold Eventfd.postRead
    simp only [hsome, hcomm]
    exact hgo

theorem Ok.postWrite (h : Ok initval s) (hphase : s.phase t = .readPostWrite) (i : ℕ) :
    Ok initval (postWrite s t i) := by
  have hnodup : s.writeLock.queue.Nodup := by
    have halone := h.alone
    match hq : s.writeLock.queue, halone with
    | [], _ => exact List.nodup_nil
    | [u], _ => exact List.nodup_singleton u
  have hold : (s.phase t).readWaits = false := by rw [hphase]; rfl
  have hold' : (s.phase t).writeWaits = false := by rw [hphase]; rfl
  have hbrings : (s.phase t).bringsRead = false := by rw [hphase]; rfl
  rcases post_cases hnodup i with ⟨hqueue, hpost⟩ | ⟨u, hu, hpost⟩
  · have hposted : Ok initval { s with writeLock := (⟨true, []⟩ : Sem T) } :=
      { h with
        writeFair := fun _ => rfl
        writeQueue := fun v => by
          rw [← hqueue]
          exact h.writeQueue v
        alone := Nat.zero_le 1 }
    have hgo : Ok initval (State.goto _ t .idle) := hposted.goto hold hold' rfl rfl
      (fun hb => absurd hb (by rw [Bool.not_eq_true]; exact hbrings)) (fun _ => Or.inr rfl)
      trivial
    unfold Eventfd.postWrite
    simp only [hpost]
    exact hgo
  · have hempty : s.writeLock.queue.erase u = [] := by
      have hlength := List.length_erase_of_mem hu
      have halone := h.alone
      exact List.length_eq_zero_iff.mp (by omega)
    obtain ⟨c, hasleep, hwoken⟩ := woken_of_writeWaits ((h.writeQueue u).mp hu)
    have hut : u ≠ t := by
      rintro rfl
      rw [hphase] at hasleep
      cases hasleep
    have hnow := h.moments u
    rw [hasleep] at hnow
    have hother : ∀ v, v ≠ u → (s.goto u (.writeTest c)).phase v = s.phase v := fun v hv =>
      update_of_ne hv _ _
    have hself : (s.goto u (.writeTest c)).phase u = .writeTest c := update_self _ _ _
    have hnobody : ∀ v, ((s.goto u (.writeTest c)).phase v).writeWaits = false := by
      intro v
      by_cases hv : v = u
      · rw [hv, hself]
        rfl
      · rw [hother v hv, ← Bool.not_eq_true, ← h.writeQueue]
        intro hin
        have hleft := (hnodup.mem_erase_iff).mpr ⟨hv, hin⟩
        rw [hempty] at hleft
        cases hleft
    have hposted : Ok initval
        { s.goto u (.writeTest c) with writeLock := s.writeLock.leave u } := by
      constructor
      case balance => exact h.balance
      case below => exact h.below
      case readFair => exact h.readFair
      case writeFair => exact h.writeFair.leave u
      case readQueue =>
        intro v
        change v ∈ s.readLock.queue ↔ ((s.goto u (.writeTest c)).phase v).readWaits = true
        by_cases hv : v = u
        · rw [hv, hself, h.readQueue, hasleep]
          simp [Phase.readWaits]
        · rw [hother v hv, h.readQueue]
      case writeQueue =>
        intro v
        change v ∈ s.writeLock.queue.erase u ↔
          ((s.goto u (.writeTest c)).phase v).writeWaits = true
        rw [hempty, hnobody v]
        simp
      case nodup => exact h.nodup
      case alone =>
        change (s.writeLock.queue.erase u).length ≤ 1
        rw [hempty]
        exact Nat.zero_le 1
      case readable =>
        intro hne
        rcases h.readable hne with htoken | ⟨v, hv⟩
        · exact Or.inl htoken
        · have hvu : v ≠ u := by
            rintro rfl
            simp [hasleep, Phase.bringsRead] at hv
          exact Or.inr ⟨v, (congrArg Phase.bringsRead (hother v hvu)).trans hv⟩
      case writable =>
        intro v c' hv
        have hwaits := hnobody v
        rw [show (s.goto u (.writeTest c)).phase v = _ from hv] at hwaits
        cases hwaits
      case moments =>
        intro v
        change Moments s.counter s.log ((s.goto u (.writeTest c)).phase v)
        by_cases hv : v = u
        · rw [hv, hself]
          exact hnow
        · rw [hother v hv]
          exact h.moments v
      case failures => exact h.failures
    have hsame : (s.goto u (.writeTest c)).phase t = s.phase t := hother t hut.symm
    have hgo : Ok initval (State.goto _ t .idle) := hposted.goto
      ((congrArg Phase.readWaits hsame).trans hold)
      ((congrArg Phase.writeWaits hsame).trans hold') rfl rfl
      (fun hb => absurd ((congrArg Phase.bringsRead hsame).symm.trans hb)
        (by rw [Bool.not_eq_true]; exact hbrings)) (fun _ => Or.inr hempty) trivial
    have hcomm : (s.goto t .idle).wake (some u) = (s.goto u (.writeTest c)).goto t .idle := by
      have hsleeper : (s.goto t .idle).phase u = s.phase u := update_of_ne hut _ _
      rw [State.wake, hsleeper, hwoken]
      simp only [State.goto]
      rw [update_comm hut]
    unfold Eventfd.postWrite
    simp only [hpost, hcomm]
    exact hgo

theorem Ok.step (h : Ok initval s) {a : Action T} {s' : State T} (hfair : Fair s a)
    (hstep : step s a = some s') : Ok initval s' := by
  cases a with
  | read t nonblock =>
    simp only [Eventfd.step, Option.ite_none_right_eq_some, Option.some.injEq] at hstep
    obtain ⟨hphase, rfl⟩ := hstep
    exact h.evtfdRead hphase nonblock
  | write t u64Add nonblock =>
    simp only [Eventfd.step, Option.ite_none_right_eq_some, Option.some.injEq] at hstep
    obtain ⟨hphase, rfl⟩ := hstep
    exact h.evtfdWrite hphase u64Add nonblock
  | next t i =>
    have hfinds : Finds s (s.phase t) := hfair
    simp only [Eventfd.step] at hstep
    split at hstep
    case h_1 c again hphase =>
      cases hstep
      exact h.readPend hphase hfinds
    case h_2 c hphase =>
      cases hstep
      exact h.readTest hphase
    case h_3 hphase =>
      cases hstep
      exact h.postRead (by rw [hphase]; rfl) (by rw [hphase]; rfl) .readPostWrite rfl rfl
        (fun _ => rfl) (fun _ _ => trivial) i
    case h_4 hphase =>
      cases hstep
      exact h.postWrite hphase i
    case h_5 c again hphase =>
      cases hstep
      exact h.writePend hphase hfinds
    case h_6 c hphase =>
      obtain rfl := Option.some.inj hstep
      exact h.writeTest hphase
    case h_7 hphase =>
      cases hstep
      exact h.postRead (by rw [hphase]; rfl) (by rw [hphase]; rfl) .idle rfl rfl
        (fun hmakes => by rw [hphase] at hmakes; cases hmakes) (fun _ _ => trivial) i
    case h_8 => cases hstep
    case h_9 => cases hstep
    case h_10 => cases hstep

end SylixOS.Eventfd
