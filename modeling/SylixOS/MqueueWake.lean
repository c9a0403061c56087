import SylixOS.Mqueue
import SylixOS.StepRuns

/-! A message that is queued is announced: by the token of `PMSG_ulReadSync`, by a
receiver that has been woken, or by the thread inside the mutex, which posts before it
leaves. The same holds of free nodes and `PMSG_ulWriteSync` while a sender waits. -/

namespace SylixOS.Mqueue
open StepRuns BinarySemaphore

variable {α T : Type}

def Phase.inside : Phase α → Bool
  | .sendTest _ | .sendLeave _ | .sendPostRead | .sendPostWrite | .sendUnlock => true
  | .recvTest _ | .recvLeave _ | .recvTooBig | .recvPostWrite _ | .recvPostRead _ => true
  | .recvUnlock _ => true
  | _ => false

def Phase.owesRead : Phase α → Bool
  | .recvTest _ | .recvTooBig | .recvPostWrite _ | .recvPostRead _ | .sendPostRead => true
  | _ => false

def Phase.owesWrite : Phase α → Bool
  | .sendTest _ | .sendPostRead | .sendPostWrite | .recvPostWrite _ => true
  | _ => false

def Phase.wokenRead : Phase α → Bool
  | .recvLock _ woken => woken
  | _ => false

def Phase.wokenWrite : Phase α → Bool
  | .sendLock _ woken => woken
  | _ => false

def Phase.waitsWrite : Phase α → Bool
  | .sendLeave _ | .sendWait _ | .sendAsleep _ => true
  | _ => false

def Phase.asleep : Phase α → Bool
  | .sendAsleep _ | .recvAsleep _ => true
  | _ => false

theorem Phase.inside_of_owesRead {p : Phase α} (h : p.owesRead = true) : p.inside = true := by
  cases p <;> first | rfl | cases h

theorem Phase.inside_of_owesWrite {p : Phase α} (h : p.owesWrite = true) : p.inside = true := by
  cases p <;> first | rfl | cases h

structure Queues (s : State α T) : Prop where
  readNodup : s.readSync.queue.Nodup
  writeNodup : s.writeSync.queue.Nodup
  readers : ∀ t ∈ s.readSync.queue, ∃ c, s.phase t = .recvAsleep c
  writers : ∀ t ∈ s.writeSync.queue, ∃ c, s.phase t = .sendAsleep c

def Exclusive (s : State α T) : Prop :=
  ∀ t, (s.phase t).inside = true → s.mutex = some t

def ReadAlert (s : State α T) : Prop :=
  s.readSync.token = true ∨ ∃ t, (s.phase t).wokenRead = true ∨ (s.phase t).owesRead = true

def WriteAlert (s : State α T) : Prop :=
  s.writeSync.token = true ∨ ∃ t, (s.phase t).wokenWrite = true ∨ (s.phase t).owesWrite = true

structure Awake (s : State α T) : Prop where
  queues : Queues s
  exclusive : Exclusive s
  read : s.mq.curmsgs ≠ 0 → ReadAlert s
  write : s.mq.header .free ≠ none → (∃ t, (s.phase t).waitsWrite = true) → WriteAlert s

variable [DecidableEq T]

section Update

variable {s s' : State α T} {t : T} {p : Phase α}

theorem Exclusive.update (h : Exclusive s) (hphase : s'.phase = Function.update s.phase t p)
    (hmutex : s'.mutex = s.mutex) (hp : p.inside = true → (s.phase t).inside = true) :
    Exclusive s' := by
  intro u hu
  rw [hmutex]
  rw [hphase] at hu
  by_cases hut : u = t
  · subst hut
    rw [Function.update_self] at hu
    exact h u (hp hu)
  · rw [Function.update_of_ne hut] at hu
    exact h u hu

theorem exists_update {P : Phase α → Prop} (hphase : s'.phase = Function.update s.phase t p)
    (hp : P (s.phase t) → P p) (h : ∃ u, P (s.phase u)) : ∃ u, P (s'.phase u) := by
  obtain ⟨u, hu⟩ := h
  refine ⟨u, ?_⟩
  rw [hphase]
  by_cases hut : u = t
  · subst hut
    rw [Function.update_self]
    exact hp hu
  · rwa [Function.update_of_ne hut]

theorem exists_of_update {P : Phase α → Prop} (hphase : s'.phase = Function.update s.phase t p)
    (hp : P p → P (s.phase t)) (h : ∃ u, P (s'.phase u)) : ∃ u, P (s.phase u) := by
  apply exists_update (s := s') (t := t) (p := s.phase t) _ _ h
  · rw [hphase, Function.update_idem, Function.update_eq_self]
  · rw [hphase, Function.update_self]
    exact hp

theorem ReadAlert.update (h : ReadAlert s) (hphase : s'.phase = Function.update s.phase t p)
    (htoken : s'.readSync.token = s.readSync.token)
    (hp : (s.phase t).wokenRead = true ∨ (s.phase t).owesRead = true →
      p.wokenRead = true ∨ p.owesRead = true) : ReadAlert s' := by
  rcases h with h | h
  · exact Or.inl (htoken.trans h)
  · right
    exact exists_update (P := fun q => q.wokenRead = true ∨ q.owesRead = true) hphase hp h

theorem WriteAlert.update (h : WriteAlert s) (hphase : s'.phase = Function.update s.phase t p)
    (htoken : s'.writeSync.token = s.writeSync.token)
    (hp : (s.phase t).wokenWrite = true ∨ (s.phase t).owesWrite = true →
      p.wokenWrite = true ∨ p.owesWrite = true) : WriteAlert s' := by
  rcases h with h | h
  · exact Or.inl (htoken.trans h)
  · right
    exact exists_update (P := fun q => q.wokenWrite = true ∨ q.owesWrite = true) hphase hp h

theorem readAlert_self (hphase : s'.phase = Function.update s.phase t p)
    (hp : p.wokenRead = true ∨ p.owesRead = true) : ReadAlert s' := by
  right
  refine ⟨t, ?_⟩
  rwa [hphase, Function.update_self]

theorem writeAlert_self (hphase : s'.phase = Function.update s.phase t p)
    (hp : p.wokenWrite = true ∨ p.owesWrite = true) : WriteAlert s' := by
  right
  refine ⟨t, ?_⟩
  rwa [hphase, Function.update_self]

theorem Queues.update (h : Queues s) (hphase : s'.phase = Function.update s.phase t p)
    (hreadNodup : s'.readSync.queue.Nodup) (hwriteNodup : s'.writeSync.queue.Nodup)
    (hread : ∀ u ∈ s'.readSync.queue,
      (u = t ∧ ∃ c, p = .recvAsleep c) ∨ (u ≠ t ∧ u ∈ s.readSync.queue))
    (hwrite : ∀ u ∈ s'.writeSync.queue,
      (u = t ∧ ∃ c, p = .sendAsleep c) ∨ (u ≠ t ∧ u ∈ s.writeSync.queue)) : Queues s' := by
  refine ⟨hreadNodup, hwriteNodup, fun u hu => ?_, fun u hu => ?_⟩
  · rw [hphase]
    rcases hread u hu with ⟨rfl, hp⟩ | ⟨hut, hmem⟩
    · rwa [Function.update_self]
    · rw [Function.update_of_ne hut]
      exact h.readers u hmem
  · rw [hphase]
    rcases hwrite u hu with ⟨rfl, hp⟩ | ⟨hut, hmem⟩
    · rwa [Function.update_self]
    · rw [Function.update_of_ne hut]
      exact h.writers u hmem

omit [DecidableEq T] in
theorem Queues.ne_reader (h : Queues s) (ht : ∀ c, s.phase t ≠ .recvAsleep c) :
    ∀ u ∈ s.readSync.queue, u ≠ t := by
  intro u hu hut
  obtain ⟨c, hc⟩ := h.readers u hu
  exact ht c (hut ▸ hc)

omit [DecidableEq T] in
theorem Queues.ne_writer (h : Queues s) (ht : ∀ c, s.phase t ≠ .sendAsleep c) :
    ∀ u ∈ s.writeSync.queue, u ≠ t := by
  intro u hu hut
  obtain ⟨c, hc⟩ := h.writers u hu
  exact ht c (hut ▸ hc)

theorem Queues.quiet (h : Queues s) (hphase : s'.phase = Function.update s.phase t p)
    (ht : (s.phase t).asleep = false) (hread : s'.readSync.queue = s.readSync.queue)
    (hwrite : s'.writeSync.queue = s.writeSync.queue) : Queues s' := by
  have hreader : ∀ c, s.phase t ≠ .recvAsleep c := fun c hc => by
    rw [hc] at ht
    cases ht
  have hwriter : ∀ c, s.phase t ≠ .sendAsleep c := fun c hc => by
    rw [hc] at ht
    cases ht
  apply h.update hphase
  · rw [hread]
    exact h.readNodup
  · rw [hwrite]
    exact h.writeNodup
  · intro u hu
    rw [hread] at hu
    exact Or.inr ⟨h.ne_reader hreader u hu, hu⟩
  · intro u hu
    rw [hwrite] at hu
    exact Or.inr ⟨h.ne_writer hwriter u hu, hu⟩

def Phase.calm (p : Phase α) : Bool :=
  !(p.wokenRead || p.owesRead || p.wokenWrite || p.owesWrite)

omit [DecidableEq T] in
theorem Phase.calm_iff {p : Phase α} : p.calm = true ↔
    ¬(p.wokenRead = true ∨ p.owesRead = true) ∧ ¬(p.wokenWrite = true ∨ p.owesWrite = true) := by
  simp only [Phase.calm, Bool.not_eq_true', Bool.or_eq_false_iff, not_or, Bool.not_eq_true]
  tauto

theorem Awake.calm (h : Awake s) (hcalm : (s.phase t).calm = true)
    (hphase : s'.phase = Function.update s.phase t p) (hmq : s'.mq = s.mq)
    (hread : s'.readSync.token = s.readSync.token) (hwrite : s'.writeSync.token = s.writeSync.token)
    (hwaits : p.waitsWrite = true → (s.phase t).waitsWrite = true) (hqueues : Queues s')
    (hexclusive : Exclusive s') : Awake s' where
  queues := hqueues
  exclusive := hexclusive
  read := fun hcur => (h.read (hmq ▸ hcur)).update hphase hread
    fun hp => absurd hp (Phase.calm_iff.mp hcalm).1
  write := fun hfree hw => (h.write (hmq ▸ hfree)
    (exists_of_update (P := fun q => q.waitsWrite = true) hphase hwaits hw)).update hphase hwrite
    fun hp => absurd hp (Phase.calm_iff.mp hcalm).2

theorem Awake.quiet (h : Awake s) (hphase : s'.phase = Function.update s.phase t p)
    (hmq : s'.mq = s.mq) (hmutex : s'.mutex = s.mutex) (hread : s'.readSync = s.readSync)
    (hwrite : s'.writeSync = s.writeSync) (ht : (s.phase t).asleep = false)
    (hinside : p.inside = true → (s.phase t).inside = true)
    (howesRead : (s.phase t).wokenRead = true ∨ (s.phase t).owesRead = true →
      p.wokenRead = true ∨ p.owesRead = true)
    (howesWrite : (s.phase t).wokenWrite = true ∨ (s.phase t).owesWrite = true →
      p.wokenWrite = true ∨ p.owesWrite = true)
    (hwaits : p.waitsWrite = true → (s.phase t).waitsWrite = true) : Awake s' where
  queues := h.queues.quiet hphase ht (by rw [hread]) (by rw [hwrite])
  exclusive := h.exclusive.update hphase hmutex hinside
  read := fun hcur => (h.read (hmq ▸ hcur)).update hphase (by rw [hread]) howesRead
  write := fun hfree hw => (h.write (hmq ▸ hfree)
    (exists_of_update (P := fun q => q.waitsWrite = true) hphase hwaits hw)).update hphase
    (by rw [hwrite]) howesWrite

end Update

section Post

variable {s : State α T}

theorem postRead_cases (h : Queues s) (i : ℕ) :
    (s.readSync.queue = [] ∧ s.postRead i = { s with readSync := ⟨true, []⟩ }) ∨
      ∃ t c, s.phase t = .recvAsleep c ∧ s.postRead i =
        { s with
          readSync := s.readSync.leave t
          phase := Function.update s.phase t (.recvLock c true) } := by
  rcases post_cases h.readNodup i with ⟨hqueue, hpost⟩ | ⟨t, hmem, hpost⟩
  · left
    refine ⟨hqueue, ?_⟩
    simp only [State.postRead, hpost, State.wake]
  · right
    obtain ⟨c, hc⟩ := h.readers t hmem
    refine ⟨t, c, hc, ?_⟩
    simp only [State.postRead, hpost, State.wake, hc, State.setPhase]

theorem postWrite_cases (h : Queues s) (i : ℕ) :
    (s.writeSync.queue = [] ∧ s.postWrite i = { s with writeSync := ⟨true, []⟩ }) ∨
      ∃ t c, s.phase t = .sendAsleep c ∧ s.postWrite i =
        { s with
          writeSync := s.writeSync.leave t
          phase := Function.update s.phase t (.sendLock c true) } := by
  rcases post_cases h.writeNodup i with ⟨hqueue, hpost⟩ | ⟨t, hmem, hpost⟩
  · left
    refine ⟨hqueue, ?_⟩
    simp only [State.postWrite, hpost, State.wake]
  · right
    obtain ⟨c, hc⟩ := h.writers t hmem
    refine ⟨t, c, hc, ?_⟩
    simp only [State.postWrite, hpost, State.wake, hc, State.setPhase]

theorem Queues.leaveRead (h : Queues s) {t : T} {c : Recv} (hc : s.phase t = .recvAsleep c)
    (p : Phase α) :
    Queues { s with
      readSync := s.readSync.leave t
      phase := Function.update s.phase t p } := by
  apply h.update rfl
  · exact h.readNodup.erase t
  · exact h.writeNodup
  · intro u hu
    rw [Sem.leave, h.readNodup.mem_erase_iff] at hu
    exact Or.inr hu
  · intro u hu
    have hwriter : ∀ d, s.phase t ≠ .sendAsleep d := fun d hd => by
      rw [hc] at hd
      cases hd
    exact Or.inr ⟨h.ne_writer hwriter u hu, hu⟩

theorem Queues.leaveWrite (h : Queues s) {t : T} {c : Send α} (hc : s.phase t = .sendAsleep c)
    (p : Phase α) :
    Queues { s with
      writeSync := s.writeSync.leave t
      phase := Function.update s.phase t p } := by
  apply h.update rfl
  · exact h.readNodup
  · exact h.writeNodup.erase t
  · intro u hu
    have hreader : ∀ d, s.phase t ≠ .recvAsleep d := fun d hd => by
      rw [hc] at hd
      cases hd
    exact Or.inr ⟨h.ne_reader hreader u hu, hu⟩
  · intro u hu
    rw [Sem.leave, h.writeNodup.mem_erase_iff] at hu
    exact Or.inr hu

theorem Awake.postRead (hqueues : Queues s) (hexclusive : Exclusive s)
    (hwrite : s.mq.header .free ≠ none → (∃ t, (s.phase t).waitsWrite = true) → WriteAlert s)
    (i : ℕ) : Awake (s.postRead i) := by
  rcases postRead_cases hqueues i with ⟨hqueue, hpost⟩ | ⟨t, c, hc, hpost⟩
  · rw [hpost]
    refine ⟨⟨List.nodup_nil, hqueues.writeNodup, (fun t ht => nomatch ht), hqueues.writers⟩,
      hexclusive, fun _ => Or.inl rfl, hwrite⟩
  · rw [hpost]
    refine ⟨hqueues.leaveRead hc _, ?_, fun _ => readAlert_self rfl (Or.inl rfl), ?_⟩
    · exact hexclusive.update rfl rfl fun hfalse => nomatch hfalse
    · intro hfree hw
      have hw' := exists_of_update (P := fun q => q.waitsWrite = true) (s := s) (t := t)
        (p := .recvLock c true) rfl (fun hfalse => nomatch hfalse) hw
      refine (hwrite hfree hw').update (t := t) (p := .recvLock c true) rfl rfl ?_
      rw [hc]
      rintro (hfalse | hfalse) <;> cases hfalse

theorem Awake.postWrite (hqueues : Queues s) (hexclusive : Exclusive s)
    (hread : s.mq.curmsgs ≠ 0 → ReadAlert s) (i : ℕ) : Awake (s.postWrite i) := by
  rcases postWrite_cases hqueues i with ⟨hqueue, hpost⟩ | ⟨t, c, hc, hpost⟩
  · rw [hpost]
    refine ⟨⟨hqueues.readNodup, List.nodup_nil, hqueues.readers, fun t ht => nomatch ht⟩,
      hexclusive, hread, fun _ _ => Or.inl rfl⟩
  · rw [hpost]
    refine ⟨hqueues.leaveWrite hc _, ?_, ?_, fun _ _ => writeAlert_self rfl (Or.inl rfl)⟩
    · exact hexclusive.update rfl rfl fun hfalse => nomatch hfalse
    · intro hcur
      refine (hread hcur).update (t := t) (p := .sendLock c true) rfl rfl ?_
      rw [hc]
      rintro (hfalse | hfalse) <;> cases hfalse

end Post

section Steps

variable {s s' : State α T} {t : T}

theorem Awake.lock {p q : Phase α} (h : Awake s) (hs : lock s t p = some s')
    (hq : s.phase t = q) (hasleep : q.asleep = false)
    (howesRead : q.wokenRead = true ∨ q.owesRead = true → p.wokenRead = true ∨ p.owesRead = true)
    (howesWrite : q.wokenWrite = true ∨ q.owesWrite = true →
      p.wokenWrite = true ∨ p.owesWrite = true)
    (hwaits : p.waitsWrite = true → q.waitsWrite = true) : Awake s' := by
  subst hq
  unfold Mqueue.lock at hs
  split_ifs at hs with hmutex
  obtain rfl := Option.some.inj hs
  refine ⟨h.queues.quiet rfl hasleep rfl rfl, ?_, ?_, ?_⟩
  · intro u hu
    by_cases hut : u = t
    · rw [hut]
    · simp only [Function.update_of_ne hut] at hu
      have hheld := h.exclusive u hu
      rw [hmutex] at hheld
      cases hheld
  · exact fun hcur => (h.read hcur).update (t := t) (p := p) rfl rfl howesRead
  · intro hfree hw
    have hw' := exists_of_update (P := fun q => q.waitsWrite = true) (s := s) (t := t) (p := p)
      rfl hwaits hw
    exact (h.write hfree hw').update (t := t) (p := p) rfl rfl howesWrite

theorem Awake.unlock {p q : Phase α} (h : Awake s) (hq : s.phase t = q) (hcalm : q.calm = true)
    (hinside : q.inside = true) (hasleep : q.asleep = false) (hp : p.inside = false)
    (hwaits : p.waitsWrite = true → q.waitsWrite = true) : Awake (unlock s t p) := by
  subst hq
  have hheld := h.exclusive t hinside
  refine h.calm (t := t) (p := p) hcalm rfl rfl rfl rfl hwaits
    (h.queues.quiet (t := t) (p := p) rfl hasleep rfl rfl) ?_
  intro u hu
  by_cases hut : u = t
  · simp only [hut, Mqueue.unlock, Function.update_self, hp] at hu
    cases hu
  · simp only [Mqueue.unlock, Function.update_of_ne hut] at hu
    have hu' := h.exclusive u hu
    rw [hheld] at hu'
    exact absurd (Option.some.inj hu').symm hut

theorem Awake.sendTest (h : Awake s) {c : Send α} (hc : s.phase t = .sendTest c) :
    Awake (sendTest s t c) := by
  have hasleep : (s.phase t).asleep = false := by rw [hc]; rfl
  unfold Mqueue.sendTest
  cases hfree : s.mq.header .free with
  | none =>
    refine ⟨h.queues.quiet rfl hasleep rfl rfl, ?_, ?_, ?_⟩
    · exact h.exclusive.update rfl rfl fun _ => by rw [hc]; rfl
    · refine fun hcur => (h.read hcur).update (t := t) (p := .sendLeave c) rfl rfl ?_
      rw [hc]
      rintro (hfalse | hfalse) <;> cases hfalse
    · exact fun hsome => absurd hfree hsome
  | some n =>
    simp only
    have hp : ∀ first : Prop, [Decidable first] →
        (if first then Phase.sendPostRead else .sendPostWrite : Phase α).owesWrite = true := by
      intro first _
      split_ifs <;> rfl
    refine ⟨h.queues.quiet rfl hasleep rfl rfl, ?_, ?_, ?_⟩
    · exact h.exclusive.update rfl rfl fun _ => by rw [hc]; rfl
    · intro _
      by_cases hfirst : s.mq.curmsgs = 0
      · refine readAlert_self rfl (Or.inr ?_)
        simp [sendMsg, hfirst, Phase.owesRead]
      · refine (h.read hfirst).update (t := t) rfl rfl ?_
        rw [hc]
        rintro (hfalse | hfalse) <;> cases hfalse
    · exact fun _ _ => writeAlert_self rfl (Or.inr (hp _))

theorem Awake.recvTest (h : Awake s) {c : Recv} (hc : s.phase t = .recvTest c)
    (hs : recvTest s t c = some s') : Awake s' := by
  have hasleep : (s.phase t).asleep = false := by rw [hc]; rfl
  have hinside : (s.phase t).inside = true := by rw [hc]; rfl
  have hquiet : ∀ p : Phase α, (s.phase t).wokenWrite = true ∨ (s.phase t).owesWrite = true →
      p.wokenWrite = true ∨ p.owesWrite = true := by
    intro p
    rw [hc]
    rintro (hfalse | hfalse) <;> cases hfalse
  unfold Mqueue.recvTest at hs
  by_cases hzero : s.mq.curmsgs = 0
  · rw [if_pos hzero] at hs
    obtain rfl := Option.some.inj hs
    refine ⟨h.queues.quiet rfl hasleep rfl rfl, h.exclusive.update rfl rfl fun _ => hinside, ?_, ?_⟩
    · exact fun hcur => absurd hzero hcur
    · intro hfree hw
      have hw' := exists_of_update (P := fun q => q.waitsWrite = true) (s := s) (t := t)
        (p := .recvLeave c) rfl (fun hfalse => nomatch hfalse) hw
      exact (h.write hfree hw').update (t := t) rfl rfl (hquiet _)
  · rw [if_neg hzero] at hs
    simp only at hs
    cases hn : s.mq.header (.prio (mqueueSeekPrio s.mq)) with
    | none =>
      rw [hn] at hs
      cases hs
    | some n =>
      rw [hn] at hs
      simp only at hs
      by_cases hbig : c.msglen < s.mq.msgLen n
      · rw [if_pos hbig] at hs
        obtain rfl := Option.some.inj hs
        exact h.quiet rfl rfl rfl rfl rfl hasleep (fun _ => hinside) (fun _ => Or.inr rfl)
          (hquiet _) fun hfalse => nomatch hfalse
      · rw [if_neg hbig] at hs
        obtain rfl := Option.some.inj hs
        refine ⟨h.queues.quiet rfl hasleep rfl rfl,
          h.exclusive.update rfl rfl fun _ => hinside, ?_, ?_⟩
        · intro _
          apply readAlert_self rfl
          split_ifs <;> exact Or.inr rfl
        · intro _ hw
          by_cases hfree : s.mq.header .free = none
          · apply writeAlert_self rfl
            rw [if_pos hfree]
            exact Or.inr rfl
          · have hw' := exists_of_update (P := fun q => q.waitsWrite = true) (s := s) (t := t)
              rfl (fun hfalse => by rw [if_neg hfree] at hfalse; cases hfalse) hw
            exact (h.write hfree hw').update (t := t) rfl rfl (hquiet _)

theorem Queues.pendWrite (h : Queues s) (hasleep : (s.phase t).asleep = false) (c : Send α)
    (htoken : ¬s.writeSync.token = true) :
    Queues { s with
      writeSync := (s.writeSync.pend t).2
      phase := Function.update s.phase t (.sendAsleep c) } := by
  have hread : ∀ u ∈ s.readSync.queue, u ≠ t :=
    h.ne_reader fun d hd => by rw [hd] at hasleep; cases hasleep
  have hwrite : ∀ u ∈ s.writeSync.queue, u ≠ t :=
    h.ne_writer fun d hd => by rw [hd] at hasleep; cases hasleep
  rw [Sem.pend, if_neg htoken]
  refine h.update (t := t) (p := .sendAsleep c) rfl h.readNodup ?_ ?_ ?_
  · rw [List.nodup_append]
    refine ⟨h.writeNodup, List.nodup_singleton t, fun u hu v hv => ?_⟩
    rw [List.mem_singleton.mp hv]
    exact hwrite u hu
  · exact fun u hu => Or.inr ⟨hread u hu, hu⟩
  · intro u hu
    rcases List.mem_append.mp hu with hu | hu
    · exact Or.inr ⟨hwrite u hu, hu⟩
    · exact Or.inl ⟨List.mem_singleton.mp hu, c, rfl⟩

theorem Queues.pendRead (h : Queues s) (hasleep : (s.phase t).asleep = false) (c : Recv)
    (htoken : ¬s.readSync.token = true) :
    Queues { s with
      readSync := (s.readSync.pend t).2
      phase := Function.update s.phase t (.recvAsleep c) } := by
  have hread : ∀ u ∈ s.readSync.queue, u ≠ t :=
    h.ne_reader fun d hd => by rw [hd] at hasleep; cases hasleep
  have hwrite : ∀ u ∈ s.writeSync.queue, u ≠ t :=
    h.ne_writer fun d hd => by rw [hd] at hasleep; cases hasleep
  rw [Sem.pend, if_neg htoken]
  refine h.update (t := t) (p := .recvAsleep c) rfl ?_ h.writeNodup ?_ ?_
  · rw [List.nodup_append]
    refine ⟨h.readNodup, List.nodup_singleton t, fun u hu v hv => ?_⟩
    rw [List.mem_singleton.mp hv]
    exact hread u hu
  · intro u hu
    rcases List.mem_append.mp hu with hu | hu
    · exact Or.inr ⟨hread u hu, hu⟩
    · exact Or.inl ⟨List.mem_singleton.mp hu, c, rfl⟩
  · exact fun u hu => Or.inr ⟨hwrite u hu, hu⟩

theorem Awake.sendWait (h : Awake s) {c : Send α} (hc : s.phase t = .sendWait c) :
    Awake (sendWait s t c) := by
  have hasleep : (s.phase t).asleep = false := by rw [hc]; rfl
  have hcalm : (s.phase t).calm = true := by rw [hc]; rfl
  unfold Mqueue.sendWait
  by_cases htoken : s.writeSync.token = true
  · -- the token turns into a thread that has been woken
    rw [if_pos htoken]
    refine ⟨h.queues.quiet (t := t) rfl hasleep rfl rfl, ?_, ?_, ?_⟩
    · exact h.exclusive.update (t := t) rfl rfl fun hfalse => nomatch hfalse
    · exact fun hcur => (h.read hcur).update (t := t) rfl rfl
        fun hp => absurd hp (Phase.calm_iff.mp hcalm).1
    · exact fun _ _ => writeAlert_self (t := t) rfl (Or.inl rfl)
  · rw [if_neg htoken]
    split_ifs
    · exact h.calm (t := t) hcalm rfl rfl rfl rfl (fun hfalse => nomatch hfalse)
        (h.queues.quiet (t := t) rfl hasleep rfl rfl)
        (h.exclusive.update (t := t) rfl rfl fun hfalse => nomatch hfalse)
    · exact h.calm (t := t) (p := .sendAsleep c) hcalm rfl rfl rfl (pend_token htoken t)
        (fun _ => by rw [hc]; rfl) (h.queues.pendWrite hasleep c htoken)
        (h.exclusive.update (t := t) rfl rfl fun hfalse => nomatch hfalse)

theorem Awake.recvWait (h : Awake s) {c : Recv} (hc : s.phase t = .recvWait c) :
    Awake (recvWait s t c) := by
  have hasleep : (s.phase t).asleep = false := by rw [hc]; rfl
  have hcalm : (s.phase t).calm = true := by rw [hc]; rfl
  unfold Mqueue.recvWait
  by_cases htoken : s.readSync.token = true
  · rw [if_pos htoken]
    refine ⟨h.queues.quiet (t := t) rfl hasleep rfl rfl, ?_, ?_, ?_⟩
    · exact h.exclusive.update (t := t) rfl rfl fun hfalse => nomatch hfalse
    · exact fun _ => readAlert_self (t := t) rfl (Or.inl rfl)
    · intro hfree hw
      have hw' := exists_of_update (P := fun q => q.waitsWrite = true) (s := s) (t := t)
        (p := .recvLock c true) rfl (fun hfalse => nomatch hfalse) hw
      exact (h.write hfree hw').update (t := t) rfl rfl
        fun hp => absurd hp (Phase.calm_iff.mp hcalm).2
  · rw [if_neg htoken]
    split_ifs
    · exact h.calm (t := t) hcalm rfl rfl rfl rfl (fun hfalse => nomatch hfalse)
        (h.queues.quiet (t := t) rfl hasleep rfl rfl)
        (h.exclusive.update (t := t) rfl rfl fun hfalse => nomatch hfalse)
    · exact h.calm (t := t) (p := .recvAsleep c) hcalm rfl rfl (pend_token htoken t) rfl
        (fun hfalse => nomatch hfalse) (h.queues.pendRead hasleep c htoken)
        (h.exclusive.update (t := t) rfl rfl fun hfalse => nomatch hfalse)

theorem Awake.expire (h : Awake s) (hs : expire s t = some s') : Awake s' := by
  have hidle : ∀ s'' : State α T, (s.phase t).calm = true → s''.phase = Function.update s.phase t
      (.idle (some .etimedout)) → s''.mq = s.mq → s''.mutex = s.mutex →
      s''.readSync.token = s.readSync.token → s''.writeSync.token = s.writeSync.token →
      Queues s'' → Awake s'' := by
    intro s'' hcalm hphase hmq hmutex hread hwrite hqueues
    exact h.calm hcalm hphase hmq hread hwrite (fun hfalse => nomatch hfalse) hqueues
      (h.exclusive.update hphase hmutex fun hfalse => nomatch hfalse)
  unfold Mqueue.expire at hs
  split at hs
  case h_1 c hc =>
    split_ifs at hs
    obtain rfl := Option.some.inj hs
    refine hidle _ ?_ rfl rfl rfl rfl rfl (h.queues.quiet (t := t) rfl ?_ rfl rfl)
    all_goals rw [hc]; rfl
  case h_2 c hc =>
    split_ifs at hs
    obtain rfl := Option.some.inj hs
    refine hidle _ ?_ rfl rfl rfl rfl rfl (h.queues.leaveWrite hc _)
    rw [hc]
    rfl
  case h_3 c hc =>
    split_ifs at hs
    obtain rfl := Option.some.inj hs
    refine hidle _ ?_ rfl rfl rfl rfl rfl (h.queues.quiet (t := t) rfl ?_ rfl rfl)
    all_goals rw [hc]; rfl
  case h_4 c hc =>
    split_ifs at hs
    obtain rfl := Option.some.inj hs
    refine hidle _ ?_ rfl rfl rfl rfl rfl (h.queues.leaveRead hc _)
    rw [hc]
    rfl
  case h_5 => cases hs

theorem Queues.setPhase (h : Queues s) (ht : (s.phase t).asleep = false) (p : Phase α) :
    Queues (s.setPhase t p) :=
  h.quiet (t := t) (p := p) rfl ht rfl rfl

theorem Exclusive.setPhase (h : Exclusive s) (ht : (s.phase t).inside = true) (p : Phase α) :
    Exclusive (s.setPhase t p) :=
  h.update (t := t) (p := p) rfl rfl fun _ => ht

theorem Awake.write_setPhase (h : Awake s)
    (ht : ¬((s.phase t).wokenWrite = true ∨ (s.phase t).owesWrite = true)) {p : Phase α}
    (hp : p.waitsWrite = false) (hfree : s.mq.header .free ≠ none)
    (hw : ∃ u, ((s.setPhase t p).phase u).waitsWrite = true) : WriteAlert (s.setPhase t p) := by
  have hw' := exists_of_update (P := fun q => q.waitsWrite = true) (s := s) (t := t) (p := p) rfl
    (fun hfalse => by rw [hp] at hfalse; cases hfalse) hw
  exact (h.write hfree hw').update (t := t) (p := p) rfl rfl fun howes => absurd howes ht

theorem Awake.read_setPhase (h : Awake s)
    (ht : ¬((s.phase t).wokenRead = true ∨ (s.phase t).owesRead = true)) (p : Phase α)
    (hcur : s.mq.curmsgs ≠ 0) : ReadAlert (s.setPhase t p) :=
  (h.read hcur).update (t := t) (p := p) rfl rfl fun howes => absurd howes ht

theorem Awake.go (h : Awake s) {i : ℕ} (hs : go s t i = some s') : Awake s' := by
  unfold Mqueue.go at hs
  cases hc : s.phase t with
  | sendLock c woken =>
    rw [hc] at hs
    exact h.lock hs hc rfl (fun hfalse => by rcases hfalse with hfalse | hfalse <;> cases hfalse)
      (fun _ => Or.inr rfl) fun hfalse => nomatch hfalse
  | recvLock c woken =>
    rw [hc] at hs
    exact h.lock hs hc rfl (fun _ => Or.inr rfl)
      (fun hfalse => by rcases hfalse with hfalse | hfalse <;> cases hfalse)
      fun hfalse => nomatch hfalse
  | sendTest c =>
    rw [hc] at hs
    obtain rfl := Option.some.inj hs
    exact h.sendTest hc
  | recvTest c =>
    rw [hc] at hs
    exact h.recvTest hc hs
  | sendLeave c =>
    rw [hc] at hs
    obtain rfl := Option.some.inj hs
    exact h.unlock hc rfl rfl rfl rfl fun _ => rfl
  | recvLeave c =>
    rw [hc] at hs
    obtain rfl := Option.some.inj hs
    exact h.unlock hc rfl rfl rfl rfl fun hfalse => nomatch hfalse
  | sendUnlock =>
    rw [hc] at hs
    obtain rfl := Option.some.inj hs
    exact h.unlock hc rfl rfl rfl rfl fun hfalse => nomatch hfalse
  | recvUnlock ret =>
    rw [hc] at hs
    obtain rfl := Option.some.inj hs
    exact h.unlock hc rfl rfl rfl rfl fun hfalse => nomatch hfalse
  | sendWait c =>
    rw [hc] at hs
    obtain rfl := Option.some.inj hs
    exact h.sendWait hc
  | recvWait c =>
    rw [hc] at hs
    obtain rfl := Option.some.inj hs
    exact h.recvWait hc
  | sendPostRead =>
    rw [hc] at hs
    obtain rfl := Option.some.inj hs
    apply Awake.postRead (h.queues.setPhase (by rw [hc]; rfl) _)
      (h.exclusive.setPhase (by rw [hc]; rfl) _)
    exact fun _ _ => writeAlert_self (s := s) (t := t) rfl (Or.inr rfl)
  | recvTooBig =>
    rw [hc] at hs
    obtain rfl := Option.some.inj hs
    apply Awake.postRead (h.queues.setPhase (by rw [hc]; rfl) _)
      (h.exclusive.setPhase (by rw [hc]; rfl) _)
    exact h.write_setPhase (by simp [hc, Phase.wokenWrite, Phase.owesWrite]) rfl
  | recvPostWrite ret =>
    rw [hc] at hs
    obtain rfl := Option.some.inj hs
    apply Awake.postWrite (h.queues.setPhase (by rw [hc]; rfl) _)
      (h.exclusive.setPhase (by rw [hc]; rfl) _)
    exact fun _ => readAlert_self (s := s) (t := t) rfl (Or.inr rfl)
  | sendPostWrite =>
    rw [hc] at hs
    obtain rfl := Option.some.inj hs
    have hqueues := h.queues.setPhase (t := t) (by rw [hc]; rfl) .sendUnlock
    have hexclusive := h.exclusive.setPhase (t := t) (by rw [hc]; rfl) .sendUnlock
    have hread := h.read_setPhase (t := t) (by simp [hc, Phase.wokenRead, Phase.owesRead])
      .sendUnlock
    split_ifs with hfree
    · exact ⟨hqueues, hexclusive, hread, fun hsome => absurd hfree hsome⟩
    · exact Awake.postWrite hqueues hexclusive hread i
  | recvPostRead ret =>
    rw [hc] at hs
    obtain rfl := Option.some.inj hs
    have hqueues := h.queues.setPhase (t := t) (by rw [hc]; rfl) (.recvUnlock ret)
    have hexclusive := h.exclusive.setPhase (t := t) (by rw [hc]; rfl) (.recvUnlock ret)
    have hwrite := h.write_setPhase (t := t) (p := .recvUnlock ret)
      (by simp [hc, Phase.wokenWrite, Phase.owesWrite]) rfl
    split_ifs with hzero
    · exact ⟨hqueues, hexclusive, fun hcur => absurd hzero hcur, hwrite⟩
    · exact Awake.postRead hqueues hexclusive hwrite i
  | _ =>
    rw [hc] at hs
    cases hs

theorem Awake.setPhase_idle (h : Awake s) {ret : Option (Ret α)} (hc : s.phase t = .idle ret)
    {p : Phase α} (hinside : p.inside = false) (hwaits : p.waitsWrite = false) :
    Awake (s.setPhase t p) := by
  refine h.calm (t := t) (p := p) (by rw [hc]; rfl) rfl rfl rfl rfl ?_
    (h.queues.quiet (t := t) rfl (by rw [hc]; rfl) rfl rfl)
    (h.exclusive.update (t := t) rfl rfl ?_)
  · rw [hwaits]
    exact fun hfalse => nomatch hfalse
  · rw [hinside]
    exact fun hfalse => nomatch hfalse

theorem Awake.step {attr : Attr} {a : Act α T} (h : Awake s) (hs : step attr s a = some s') :
    Awake s' := by
  cases a with
  | send t msg msgprio wait =>
    simp only [Mqueue.step] at hs
    split at hs
    · rename_i ret hc
      obtain rfl := Option.some.inj hs
      unfold sendEntry
      split_ifs <;> exact h.setPhase_idle hc rfl rfl
    · cases hs
  | recv t msglen wait =>
    simp only [Mqueue.step] at hs
    split at hs
    · rename_i ret hc
      obtain rfl := Option.some.inj hs
      exact h.setPhase_idle hc rfl rfl
    · cases hs
  | go t i => exact h.go hs
  | expire t => exact h.expire hs

end Steps

theorem mqueueInitBuffer_curmsgs (attr : Attr) (m : Store α) (left pmsgnode : ℕ) :
    (mqueueInitBuffer attr m left pmsgnode).curmsgs = m.curmsgs := by
  induction left generalizing m pmsgnode with
  | zero => rfl
  | succ left ih =>
    unfold mqueueInitBuffer
    rw [ih]

omit [DecidableEq T] in
theorem awake_created (attr : Attr) (pcMem : ℕ) (links : LinkedChain.Links ℕ) (msgLen : ℕ → ℕ)
    (buffer : ℕ → ℕ → α) : Awake (created attr pcMem links msgLen buffer : State α T) where
  queues := ⟨List.nodup_nil, List.nodup_nil, (fun _ ht => nomatch ht), fun _ ht => nomatch ht⟩
  exclusive := fun _ hfalse => nomatch hfalse
  read := fun hcur => absurd (mqueueInitBuffer_curmsgs attr _ attr.maxmsg pcMem) hcur
  write := fun _ ⟨_, hfalse⟩ => nomatch hfalse

/-- No receiver sleeps on a queued message, and no sender on a free node, that nobody is about to
announce: a token is there, a thread has been woken, or the one that holds the mutex has its test
or its post ahead. -/
structure StrandsNobody (s : State α T) : Prop where
  read : 0 < s.mq.curmsgs → (∃ t c, s.phase t = .recvAsleep c) →
    s.readSync.token = true ∨ (∃ t c, s.phase t = .recvLock c true) ∨
      ∃ t, s.mutex = some t ∧ (s.phase t).owesRead = true
  write : s.mq.header .free ≠ none → (∃ t c, s.phase t = .sendAsleep c) →
    s.writeSync.token = true ∨ (∃ t c, s.phase t = .sendLock c true) ∨
      ∃ t, s.mutex = some t ∧ (s.phase t).owesWrite = true

omit [DecidableEq T] in
theorem Phase.wokenRead_iff {p : Phase α} : p.wokenRead = true ↔ ∃ c, p = .recvLock c true := by
  cases p <;> simp [Phase.wokenRead]

omit [DecidableEq T] in
theorem Phase.wokenWrite_iff {p : Phase α} : p.wokenWrite = true ↔ ∃ c, p = .sendLock c true := by
  cases p <;> simp [Phase.wokenWrite]

omit [DecidableEq T] in
theorem Awake.strandsNobody {s : State α T} (h : Awake s) : StrandsNobody s := by
  constructor
  · intro hcur _
    rcases h.read (Nat.pos_iff_ne_zero.mp hcur) with htoken | ⟨t, hwoken | howes⟩
    · exact Or.inl htoken
    · exact Or.inr (Or.inl ⟨t, Phase.wokenRead_iff.mp hwoken⟩)
    · exact Or.inr (Or.inr ⟨t, h.exclusive t (Phase.inside_of_owesRead howes), howes⟩)
  · rintro hfree ⟨u, c, hu⟩
    have hwaits : ∃ t, (s.phase t).waitsWrite = true := ⟨u, by rw [hu]; rfl⟩
    rcases h.write hfree hwaits with htoken | ⟨t, hwoken | howes⟩
    · exact Or.inl htoken
    · exact Or.inr (Or.inl ⟨t, Phase.wokenWrite_iff.mp hwoken⟩)
    · exact Or.inr (Or.inr ⟨t, h.exclusive t (Phase.inside_of_owesWrite howes), howes⟩)

/-- In every state of every run of a message queue no thread is stranded. -/
theorem mqueue_strands_nobody (attr : Attr) (pcMem : ℕ) (links : LinkedChain.Links ℕ)
    (msgLen : ℕ → ℕ) (buffer : ℕ → ℕ → α) (acts : List (Act α T)) :
    Visits (step attr) StrandsNobody (created attr pcMem links msgLen buffer) acts :=
  (visits_of_steps (fun _ _ _ h hs => Awake.step h hs)
    (awake_created attr pcMem links msgLen buffer)).mono fun _ h => h.strandsNobody

end SylixOS.Mqueue
