import SylixOS.Spipe

/-! Closing the last end of a stream pipe. The close posts a binary semaphore
once, and the thread it wakes returns without passing the token on; when
nobody is left asleep in spite of it is the matter of this file. -/

namespace SylixOS.Spipe
open StepRuns BinarySemaphore RingBuffer

variable {α T : Type}

structure AllWoken (s : State α T) : Prop where
  reader : ∀ t ∈ s.readLock.queue, s.readLock.token = false →
    ¬ (s.ring.msgBytes = 0 ∧ s.writeCnt = 0)
  writer : ∀ t ∈ s.writeLock.queue, s.writeLock.token = false → s.readCnt ≠ 0

/-- The condition on a step. A close that leaves an empty pipe without a write end finds at most
one reader asleep, one that leaves no read end at most one writer, and a read that empties a pipe
without a write end no reader. Whoever goes to wait with nothing to wait for finds the token. -/
def Prompt [DecidableEq T] (s : State α T) : Act α T → Prop
  | .close f _ _ =>
    ((s.decCnt f.access).writeCnt = 0 → s.ring.msgBytes = 0 → s.readLock.queue.length ≤ 1) ∧
      ((s.decCnt f.access).readCnt = 0 → s.writeLock.queue.length ≤ 1)
  | .go t _ _ =>
    match s.phase t with
    | .readLoop _ stMaxBytes =>
      s.ring.msgBytes ≠ 0 → s.ring.msgBytes ≤ stMaxBytes → s.writeCnt = 0 →
        s.readLock.queue = []
    | .readWait f _ =>
      s.ring.msgBytes = 0 → s.writeCnt = 0 → s.readLock.token = true ∨ f.nonblock = true
    | .writeWait f _ => s.readCnt = 0 → s.writeLock.token = true ∨ f.nonblock = true
    | _ => True
  | _ => True

structure Locks (s : State α T) : Prop where
  read : s.readLock.Fair
  write : s.writeLock.Fair

theorem Locks.allWoken_iff {s : State α T} (h : Locks s) :
    AllWoken s ↔
      (s.readLock.queue.length = 0 ∨ s.ring.msgBytes ≠ 0 ∨ s.writeCnt ≠ 0) ∧
        (s.writeLock.queue.length = 0 ∨ s.readCnt ≠ 0) := by
  have hread : s.readLock.queue ≠ [] → s.readLock.token = false := fun hne =>
    Bool.eq_false_iff.mpr fun htoken => hne (h.read htoken)
  have hwrite : s.writeLock.queue ≠ [] → s.writeLock.token = false := fun hne =>
    Bool.eq_false_iff.mpr fun htoken => hne (h.write htoken)
  constructor
  · intro hall
    constructor
    · cases hq : s.readLock.queue with
      | nil => exact Or.inl rfl
      | cons t q =>
        have hne : s.readLock.queue ≠ [] := by simp [hq]
        have := hall.reader t (by simp [hq]) (hread hne)
        omega
    · cases hq : s.writeLock.queue with
      | nil => exact Or.inl rfl
      | cons t q =>
        have hne : s.writeLock.queue ≠ [] := by simp [hq]
        exact Or.inr (hall.writer t (by simp [hq]) (hwrite hne))
  · rintro ⟨hr, hw⟩
    constructor
    · intro t ht _ hend
      have := List.length_pos_of_mem ht
      omega
    · intro t ht _ hend
      have := List.length_pos_of_mem ht
      omega

variable [DecidableEq T]

section Wake

variable (s : State α T) (t : Option T)

theorem wake_eq : ∃ phase, s.wake t = { s with phase := phase } := by
  cases t with
  | none => exact ⟨s.phase, rfl⟩
  | some t =>
    unfold State.wake
    simp only
    split <;> exact ⟨_, rfl⟩

@[simp] theorem wake_ring : (s.wake t).ring = s.ring := by
  obtain ⟨p, hp⟩ := wake_eq s t
  rw [hp]

@[simp] theorem wake_readLock : (s.wake t).readLock = s.readLock := by
  obtain ⟨p, hp⟩ := wake_eq s t
  rw [hp]

@[simp] theorem wake_writeLock : (s.wake t).writeLock = s.writeLock := by
  obtain ⟨p, hp⟩ := wake_eq s t
  rw [hp]

@[simp] theorem wake_readCnt : (s.wake t).readCnt = s.readCnt := by
  obtain ⟨p, hp⟩ := wake_eq s t
  rw [hp]

@[simp] theorem wake_writeCnt : (s.wake t).writeCnt = s.writeCnt := by
  obtain ⟨p, hp⟩ := wake_eq s t
  rw [hp]

end Wake

structure View where
  readers : ℕ
  writers : ℕ
  bytes : ℕ
  readCnt : ℕ
  writeCnt : ℕ

def State.view (s : State α T) : View :=
  ⟨s.readLock.queue.length, s.writeLock.queue.length, s.ring.msgBytes, s.readCnt, s.writeCnt⟩

section Post

variable (s : State α T) (i : ℕ)

@[simp] theorem postRead_ring : (s.postRead i).ring = s.ring := by simp [State.postRead]
@[simp] theorem postRead_writeLock : (s.postRead i).writeLock = s.writeLock := by
  simp [State.postRead]
@[simp] theorem postRead_readCnt : (s.postRead i).readCnt = s.readCnt := by simp [State.postRead]
@[simp] theorem postRead_writeCnt : (s.postRead i).writeCnt = s.writeCnt := by
  simp [State.postRead]
@[simp] theorem postRead_readers :
    (s.postRead i).readLock.queue.length = s.readLock.queue.length - 1 := by
  simp [State.postRead, post_length]

@[simp] theorem postWrite_ring : (s.postWrite i).ring = s.ring := by simp [State.postWrite]
@[simp] theorem postWrite_readLock : (s.postWrite i).readLock = s.readLock := by
  simp [State.postWrite]
@[simp] theorem postWrite_readCnt : (s.postWrite i).readCnt = s.readCnt := by
  simp [State.postWrite]
@[simp] theorem postWrite_writeCnt : (s.postWrite i).writeCnt = s.writeCnt := by
  simp [State.postWrite]
@[simp] theorem postWrite_writers :
    (s.postWrite i).writeLock.queue.length = s.writeLock.queue.length - 1 := by
  simp [State.postWrite, post_length]

end Post

theorem Locks.postRead {s : State α T} (h : Locks s) (i : ℕ) : Locks (s.postRead i) := by
  constructor
  · simpa [State.postRead] using h.read.post i
  · simpa [State.postRead] using h.write

theorem Locks.postWrite {s : State α T} (h : Locks s) (i : ℕ) : Locks (s.postWrite i) := by
  constructor
  · simpa [State.postWrite] using h.read
  · simpa [State.postWrite] using h.write.post i

def View.Woken (v : View) : Prop :=
  (v.readers = 0 ∨ v.bytes ≠ 0 ∨ v.writeCnt ≠ 0) ∧ (v.writers = 0 ∨ v.readCnt ≠ 0)

omit [DecidableEq T] in
theorem Locks.woken_iff {s : State α T} (h : Locks s) : AllWoken s ↔ s.view.Woken :=
  h.allWoken_iff

theorem close_view (s : State α T) (f : File) (i j : ℕ) :
    (spipeClose s f i j).view =
      { readers := if (s.decCnt f.access).writeCnt = 0 then s.view.readers - 1 else s.view.readers
        writers := if (s.decCnt f.access).readCnt = 0 then s.view.writers - 1 else s.view.writers
        bytes := s.view.bytes
        readCnt := (s.decCnt f.access).readCnt
        writeCnt := (s.decCnt f.access).writeCnt } := by
  cases hf : f.access <;> simp only [spipeClose, hf, State.decCnt, State.view] <;>
    split_ifs <;> simp_all

theorem copyOut_msgBytes (r : RingBuf α) (n : ℕ) :
    (r.copyOut n).2.msgBytes = r.msgBytes - n ∧ (r.copyOut n).2.totalBytes = r.totalBytes := by
  unfold RingBuf.copyOut
  simp only
  split_ifs <;> exact ⟨rfl, rfl⟩

theorem copyIn_msgBytes (r : RingBuf α) (bytes : List α) :
    (r.copyIn bytes).msgBytes = r.msgBytes + bytes.length ∧
      (r.copyIn bytes).totalBytes = r.totalBytes := by
  unfold RingBuf.copyIn
  simp only
  split_ifs <;> exact ⟨rfl, rfl⟩

theorem optional_postRead_view (s : State α T) (i : ℕ) (c : Prop) [Decidable c] :
    (if c then s.postRead i else s).view =
      { s.view with readers := if c then s.view.readers - 1 else s.view.readers } := by
  split_ifs
  · simp [State.view]
  · rfl

theorem optional_postWrite_view (s : State α T) (i : ℕ) (c : Prop) [Decidable c] :
    (if c then s.postWrite i else s).view =
      { s.view with writers := if c then s.view.writers - 1 else s.view.writers } := by
  split_ifs
  · simp [State.view]
  · rfl

theorem optional_postWrite_ring (s : State α T) (i : ℕ) (c : Prop) [Decidable c] :
    (if c then s.postWrite i else s).ring = s.ring := by
  split_ifs <;> simp

theorem ite_pred_le (c : Prop) [Decidable c] (n : ℕ) : (if c then n - 1 else n) ≤ n := by
  split_ifs <;> omega

theorem readSection_view (s : State α T) (t : T) (f : File) (n i j : ℕ) :
    ∃ readers writers, (s.view.bytes ≤ n → readers = s.view.readers) ∧ writers ≤ s.view.writers ∧
      (readSection s t f n i j).view =
        { s.view with readers := readers, writers := writers, bytes := s.view.bytes - n } := by
  unfold readSection
  by_cases hmsg : s.ring.msgBytes = 0
  · refine ⟨s.view.readers, s.view.writers, fun _ => rfl, Nat.le_refl _, ?_⟩
    simp only [hmsg, ne_eq, not_true_eq_false, if_false]
    split_ifs <;> simp [State.view, hmsg]
  · simp only [hmsg, ne_eq, not_false_eq_true, if_true]
    rw [optional_postRead_view, optional_postWrite_view, optional_postWrite_ring]
    obtain ⟨hbytes, -⟩ :=
      copyOut_msgBytes s.ring (if n < s.ring.msgBytes then n else s.ring.msgBytes)
    have hleft : (s.ring.copyOut (if n < s.ring.msgBytes then n else s.ring.msgBytes)).2.msgBytes =
        s.ring.msgBytes - n := by
      rw [hbytes]
      split_ifs <;> omega
    simp only [State.view, hleft]
    refine ⟨_, _, fun hle => ?_, ite_pred_le _ _, rfl⟩
    have hzero : s.ring.msgBytes - n = 0 := Nat.sub_eq_zero_of_le hle
    simp [hzero, spipeCanRead]

theorem writeSection_view (s : State α T) (t : T) (f : File) (w : Write α) (i j : ℕ) :
    ∃ readers writers bytes, readers ≤ s.view.readers ∧ writers ≤ s.view.writers ∧
      s.view.bytes ≤ bytes ∧
      (writeSection s t f w i j).view =
        { s.view with readers := readers, writers := writers, bytes := bytes } := by
  unfold writeSection
  by_cases hread : s.readCnt = 0
  · rw [if_pos hread]
    exact ⟨_, _, _, Nat.le_refl _, Nat.le_refl _, Nat.le_refl _, rfl⟩
  · rw [if_neg hread]
    simp only
    by_cases hfree : min w.rest.length pipeBuf ≤ s.ring.totalBytes - s.ring.msgBytes
    · rw [if_pos hfree, optional_postWrite_view, optional_postRead_view]
      have hbytes := (copyIn_msgBytes s.ring
        (w.rest.take (s.ring.totalBytes - s.ring.msgBytes))).1
      refine ⟨_, _, _, ite_pred_le _ _, ite_pred_le _ _, ?_, rfl⟩
      simp only [State.view]
      omega
    · rw [if_neg hfree]
      exact ⟨_, _, _, Nat.le_refl _, Nat.le_refl _, Nat.le_refl _, rfl⟩

theorem Locks.optional_postRead {s : State α T} (h : Locks s) (i : ℕ) (c : Prop) [Decidable c] :
    Locks (if c then s.postRead i else s) := by
  split_ifs
  · exact h.postRead i
  · exact h

theorem Locks.optional_postWrite {s : State α T} (h : Locks s) (i : ℕ) (c : Prop) [Decidable c] :
    Locks (if c then s.postWrite i else s) := by
  split_ifs
  · exact h.postWrite i
  · exact h

theorem locks_close {s : State α T} (h : Locks s) (f : File) (i j : ℕ) :
    Locks (spipeClose s f i j) := by
  have hdec : Locks ({ s with files := s.files.erase f }.decCnt f.access) := by
    cases f.access <;> exact ⟨h.read, h.write⟩
  exact (hdec.optional_postRead i _).optional_postWrite j _

theorem locks_readSection {s : State α T} (h : Locks s) (t : T) (f : File) (n i j : ℕ) :
    Locks (readSection s t f n i j) := by
  unfold readSection
  by_cases hmsg : s.ring.msgBytes = 0
  · simp only [hmsg, ne_eq, not_true_eq_false, if_false]
    split_ifs <;> exact ⟨Sem.Fair.clear _, h.write⟩
  · simp only [hmsg, ne_eq, not_false_eq_true, if_true]
    apply Locks.optional_postRead
    apply Locks.optional_postWrite
    exact ⟨h.read, h.write⟩

theorem locks_writeSection {s : State α T} (h : Locks s) (t : T) (f : File) (w : Write α)
    (i j : ℕ) : Locks (writeSection s t f w i j) := by
  unfold writeSection
  by_cases hread : s.readCnt = 0
  · rw [if_pos hread]
    exact ⟨h.read, h.write⟩
  · rw [if_neg hread]
    simp only
    by_cases hfree : min w.rest.length pipeBuf ≤ s.ring.totalBytes - s.ring.msgBytes
    · rw [if_pos hfree]
      apply Locks.optional_postWrite
      apply Locks.optional_postRead
      exact ⟨h.read, h.write⟩
    · rw [if_neg hfree]
      exact ⟨h.read, Sem.Fair.clear _⟩

theorem locks_readPend {s : State α T} (h : Locks s) (t : T) (f : File) (n : ℕ) :
    Locks (readPend s t f n) := by
  unfold readPend
  split_ifs
  · exact ⟨Sem.Fair.clear _, h.write⟩
  · exact ⟨h.read, h.write⟩
  · exact ⟨Sem.Fair.pend _ _, h.write⟩

theorem locks_writePend {s : State α T} (h : Locks s) (t : T) (f : File) (w : Write α) :
    Locks (writePend s t f w) := by
  unfold writePend
  split_ifs
  · exact ⟨h.read, Sem.Fair.clear _⟩
  · exact ⟨h.read, h.write⟩
  · exact ⟨h.read, Sem.Fair.pend _ _⟩

theorem readPend_view (s : State α T) (t : T) (f : File) (n : ℕ) :
    (readPend s t f n).view =
      if s.readLock.token = true ∨ f.nonblock = true then s.view
      else { s.view with readers := s.view.readers + 1 } := by
  unfold readPend
  split_ifs with htoken hblock hor hor hor
  all_goals simp_all [State.view, State.setPhase, Sem.pend, Sem.clear]

theorem writePend_view (s : State α T) (t : T) (f : File) (w : Write α) :
    (writePend s t f w).view =
      if s.writeLock.token = true ∨ f.nonblock = true then s.view
      else { s.view with writers := s.view.writers + 1 } := by
  unfold writePend
  split_ifs with htoken hblock hor hor hor
  all_goals simp_all [State.view, State.setPhase, Sem.pend, Sem.clear]

def Follows (s s' : State α T) (prompt : Prop) : Prop :=
  Locks s' ∧ (s.view.Woken → (s'.view.Woken ↔ prompt))

omit [DecidableEq T] in
theorem Follows.of_less {s s' : State α T} (h : Locks s')
    (hr : s'.view.readers ≤ s.view.readers) (hw : s'.view.writers ≤ s.view.writers)
    (hb : s.view.bytes ≤ s'.view.bytes) (hrc : s.view.readCnt ≤ s'.view.readCnt)
    (hwc : s.view.writeCnt ≤ s'.view.writeCnt) : Follows s s' True := by
  refine ⟨h, fun hwoken => iff_of_true ?_ trivial⟩
  unfold View.Woken at hwoken ⊢
  omega

omit [DecidableEq T] in
theorem Follows.of_view_eq {s s' : State α T} (h : Locks s') (hview : s'.view = s.view) :
    Follows s s' True :=
  ⟨h, fun hwoken => iff_of_true (hview ▸ hwoken) trivial⟩

omit [DecidableEq T] in
theorem follows_open {s : State α T} (h : Locks s) (f : File) : Follows s (spipeOpen s f) True := by
  unfold spipeOpen
  split_ifs
  · exact Follows.of_view_eq h rfl
  · cases f.access <;>
      exact Follows.of_less ⟨h.read, h.write⟩ (Nat.le_refl _) (Nat.le_refl _) (Nat.le_refl _)
        (by simp [State.view, State.incCnt]) (by simp [State.view, State.incCnt])

theorem follows_close {s : State α T} (h : Locks s) (f : File) (i j : ℕ) :
    Follows s (spipeClose s f i j) (Prompt s (.close f i j)) := by
  refine ⟨locks_close h f i j, fun hwoken => ?_⟩
  have hread : (s.decCnt f.access).writeCnt ≤ s.writeCnt := by
    cases f.access <;> simp [State.decCnt]
  have hwrite : (s.decCnt f.access).readCnt ≤ s.readCnt := by
    cases f.access <;> simp [State.decCnt]
  rw [close_view]
  unfold View.Woken at hwoken ⊢
  simp only [Prompt, State.view] at hwoken ⊢
  split_ifs <;> omega

theorem follows_expire {s s' : State α T} {t : T} (h : Locks s) (hs : expire s t = some s') :
    Follows s s' True := by
  unfold expire at hs
  split at hs
  · obtain rfl := Option.some.inj hs
    exact Follows.of_less ⟨h.read.leave t, h.write⟩ (List.length_erase_le) (Nat.le_refl _)
      (Nat.le_refl _) (Nat.le_refl _) (Nat.le_refl _)
  · obtain rfl := Option.some.inj hs
    exact Follows.of_less ⟨h.read, h.write.leave t⟩ (Nat.le_refl _) (List.length_erase_le)
      (Nat.le_refl _) (Nat.le_refl _) (Nat.le_refl _)
  · cases hs

theorem follows_go {s s' : State α T} {t : T} {i j : ℕ} (h : Locks s)
    (hs : go s t i j = some s') : Follows s s' (Prompt s (.go t i j)) := by
  unfold go at hs
  simp only [Prompt]
  cases hphase : s.phase t with
  | readLoop f n =>
    rw [hphase] at hs
    obtain rfl := Option.some.inj hs
    refine ⟨locks_readSection h t f n i j, fun hwoken => ?_⟩
    obtain ⟨readers, writers, hreaders, hwriters, hview⟩ := readSection_view s t f n i j
    rw [hview]
    rw [← List.length_eq_zero_iff]
    unfold View.Woken at hwoken ⊢
    simp only [State.view] at hwoken hreaders hwriters ⊢
    omega
  | readWait f n =>
    rw [hphase] at hs
    obtain rfl := Option.some.inj hs
    refine ⟨locks_readPend h t f n, fun hwoken => ?_⟩
    rw [readPend_view]
    unfold View.Woken at hwoken ⊢
    simp only [State.view] at hwoken ⊢
    split_ifs with hgoes
    · exact iff_of_true hwoken fun _ _ => hgoes
    · simp only [hgoes, imp_false, false_or, ← not_and]
      omega
  | writeEnter f w =>
    rw [hphase] at hs
    obtain rfl := Option.some.inj hs
    unfold writeContinue
    split_ifs <;> exact Follows.of_view_eq ⟨h.read, h.write⟩ rfl
  | writeLoop f w =>
    rw [hphase] at hs
    obtain rfl := Option.some.inj hs
    obtain ⟨readers, writers, bytes, hreaders, hwriters, hbytes, hview⟩ :=
      writeSection_view s t f w i j
    apply Follows.of_less (locks_writeSection h t f w i j)
    · rw [hview]
      exact hreaders
    · rw [hview]
      exact hwriters
    · rw [hview]
      exact hbytes
    · exact Nat.le_of_eq (by rw [hview])
    · exact Nat.le_of_eq (by rw [hview])
  | writeWait f w =>
    rw [hphase] at hs
    obtain rfl := Option.some.inj hs
    refine ⟨locks_writePend h t f w, fun hwoken => ?_⟩
    rw [writePend_view]
    unfold View.Woken at hwoken ⊢
    simp only [State.view] at hwoken ⊢
    split_ifs with hgoes
    · exact iff_of_true hwoken fun _ => hgoes
    · simp only [hgoes, imp_false, false_or]
      omega
  | _ =>
    rw [hphase] at hs
    cases hs

theorem follows_step {s s' : State α T} {a : Act α T} (h : Locks s) (hs : step s a = some s') :
    Follows s s' (Prompt s a) := by
  cases a with
  | open_ f =>
    obtain rfl := Option.some.inj hs
    exact follows_open h f
  | close f i j =>
    simp only [step] at hs
    split_ifs at hs
    obtain rfl := Option.some.inj hs
    exact follows_close h f i j
  | read t f n =>
    simp only [step] at hs
    split at hs
    · obtain rfl := Option.some.inj hs
      unfold readEntry
      split_ifs <;> exact Follows.of_view_eq ⟨h.read, h.write⟩ rfl
    · cases hs
  | write t f bytes =>
    simp only [step] at hs
    split at hs
    · obtain rfl := Option.some.inj hs
      unfold writeEntry
      split_ifs <;> exact Follows.of_view_eq ⟨h.read, h.write⟩ rfl
    · cases hs
  | go t i j => exact follows_go h hs
  | expire t => exact follows_expire h hs

/-- Along every run of a stream pipe, nobody sleeps on after the other end is gone exactly when
every step is prompt. -/
theorem spipe_all_woken_iff (buffer : ℕ → α) (total : ℕ) (acts : List (Act α T)) :
    Visits step AllWoken (spipeDevCreate buffer total) acts ↔
      Obeys step Prompt (spipeDevCreate buffer total) acts := by
  apply visits_iff_obeys (I := fun s => Locks s ∧ AllWoken s)
  · rintro s a s' ⟨hl, hw⟩ hp hs
    obtain ⟨hl', hiff⟩ := follows_step hl hs
    exact ⟨hl', hl'.woken_iff.mpr ((hiff (hl.woken_iff.mp hw)).mpr hp)⟩
  · exact fun s h => h.2
  · rintro s a s' ⟨hl, hw⟩ hs hw'
    obtain ⟨hl', hiff⟩ := follows_step hl hs
    exact (hiff (hl.woken_iff.mp hw)).mp (hl'.woken_iff.mp hw')
  · exact ⟨⟨fun _ => rfl, fun _ => rfl⟩, ⟨(fun t ht => nomatch ht), (fun t ht => nomatch ht)⟩⟩

/-- One write end and two readers asleep on the empty pipe; the close wakes one of them. -/
theorem spipe_strands_reader :
    ¬ Visits step AllWoken (spipeDevCreate (fun _ => (0 : UInt8)) 4096 : State UInt8 ℕ)
      [.open_ ⟨.rdonly, false, false⟩, .open_ ⟨.wronly, false, false⟩,
        .read 1 ⟨.rdonly, false, false⟩ 1, .go 1 0 0, .go 1 0 0,
        .read 2 ⟨.rdonly, false, false⟩ 1, .go 2 0 0, .go 2 0 0,
        .close ⟨.wronly, false, false⟩ 0 0] := by
  intro h
  have hwoken := h.last (Option.some_get (by decide)).symm
  exact hwoken.reader 2 (by decide) (by decide) (by decide)

end SylixOS.Spipe
