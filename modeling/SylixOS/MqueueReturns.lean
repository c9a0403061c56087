import SylixOS.MqueueOrder

/-! What the calls on a message queue return. The step that a call makes on the
rings decides its result, and the steps behind it hand that result to the
caller; no call that holds the mutex gets stuck. -/

namespace SylixOS.Mqueue
open StepRuns BinarySemaphore LinkedChain ListLink PriorityQueue Function

variable {α T : Type} [DecidableEq T] {attr : Attr}

structure Rouses (s s' : State α T) : Prop where
  result : ∀ t, (s'.phase t).result? = (s.phase t).result?
  idle : ∀ t r, s'.phase t = .idle r ↔ s.phase t = .idle r

omit [DecidableEq T] in
theorem Rouses.refl (s : State α T) : Rouses s s := ⟨fun _ => rfl, fun _ _ => Iff.rfl⟩

def Told (h : List (State α T × Act α T × State α T)) (s : State α T) : Prop :=
  ∀ t, h.filterMap (answer t) ++ (s.phase t).result?.toList = h.filterMap (verdict t)

def Tells (s : State α T) (a : Act α T) (s' : State α T) : Prop :=
  ∀ t, (answer t (s, a, s')).toList ++ (s'.phase t).result?.toList =
    (s.phase t).result?.toList ++ (verdict t (s, a, s')).toList

theorem Told.step {h : List (State α T × Act α T × State α T)} {s s' : State α T} {a : Act α T}
    (ht : Told h s) (hs : Tells s a s') : Told (h ++ [(s, a, s')]) s' := by
  intro t
  rw [filterMap_concat, filterMap_concat, List.append_assoc, hs t, ← List.append_assoc, ht t]

theorem sendEntry_phase (attr : Attr) (s : State α T) (t : T) (msg : List α) (msgprio : ℕ)
    (wait : Wait) :
    ∃ p, (sendEntry attr s t msg msgprio wait).phase = update s.phase t p ∧ p.result? = none ∧
      ∀ c, p.send? = some c → c.msg = msg ∧ c.uiRealPrio = prioConvert msgprio ∧
        msgprio < mqPrioMax := by
  unfold sendEntry
  split_ifs with hbad hlong
  · exact ⟨_, rfl, rfl, fun c hc => nomatch hc⟩
  · exact ⟨_, rfl, rfl, fun c hc => nomatch hc⟩
  · refine ⟨_, rfl, rfl, fun c hc => ?_⟩
    obtain rfl := Option.some.inj hc
    exact ⟨rfl, rfl, Nat.lt_of_not_le fun hle => hbad (Or.inr hle)⟩

def Carried (h : List (State α T × Act α T × State α T)) (s : State α T) : Prop :=
  ∀ t c, (s.phase t).send? = some c →
    (h.filterMap (asked t)).getLast? = some ⟨prioConvert c.uiRealPrio, c.msg⟩

theorem Carried.keeps {h : List (State α T × Act α T × State α T)} {s s' : State α T}
    {a : Act α T} (hc : Carried h s)
    (hsend : ∀ t c, (s'.phase t).send? = some c → (s.phase t).send? = some c)
    (ha : ∀ t, asked t (s, a, s') = none) : Carried (h ++ [(s, a, s')]) s' := by
  intro t c ht
  rw [filterMap_concat, ha t, Option.toList_none, List.append_nil]
  exact hc t c (hsend t c ht)

theorem Carried.step {h : List (State α T × Act α T × State α T)} {s s' : State α T} {a : Act α T}
    (hc : Carried h s) (hs : step attr s a = some s') : Carried (h ++ [(s, a, s')]) s' := by
  cases a with
  | send t msg msgprio wait =>
    simp only [Mqueue.step] at hs
    split at hs
    · obtain rfl := Option.some.inj hs
      obtain ⟨p, hnext, -, hp⟩ := sendEntry_phase attr s t msg msgprio wait
      intro u c hu
      rw [filterMap_concat]
      rw [hnext] at hu
      by_cases ht : u = t
      · rw [ht, update_self] at hu
        obtain ⟨hmsg, hprio, hlt⟩ := hp c hu
        simp [asked, ht, hmsg, hprio, prioConvert_prioConvert hlt]
      · rw [update_of_ne ht] at hu
        have hnone : asked u (s, .send t msg msgprio wait,
            sendEntry attr s t msg msgprio wait) = none := by
          simp [asked, Ne.symm ht]
        rw [hnone, Option.toList_none, List.append_nil]
        exact hc u c hu
    · cases hs
  | recv t msglen wait =>
    simp only [Mqueue.step] at hs
    split at hs
    · obtain rfl := Option.some.inj hs
      exact hc.keeps (keeps_setPhase (Or.inl rfl)).send fun _ => rfl
    · cases hs
  | go t i =>
    refine hc.keeps ?_ fun _ => rfl
    cases hphase : s.phase t with
    | sendTest c =>
      simp only [Mqueue.step, go, hphase] at hs
      obtain rfl := Option.some.inj hs
      intro u d hd
      cases hfree : s.mq.header .free with
      | none =>
        obtain ⟨hmq, hnext⟩ := sendTest_full hfree t c
        exact (Keeps.of_update hmq hnext (Or.inr (by rw [hphase]; rfl))).send u d hd
      | some n =>
        obtain ⟨-, p, hnext, hresult⟩ := sendTest_stored hfree t c
        rw [hnext] at hd
        by_cases hu : u = t
        · rw [hu, update_self] at hd
          cases p <;> simp [Phase.result?, Phase.send?] at hresult hd
        · rwa [update_of_ne hu] at hd
    | recvTest c =>
      simp only [Mqueue.step, go, hphase] at hs
      have hnone : ∃ p, s'.phase = update s.phase t p ∧ p.send? = none := by
        rcases recvTest_cases hs with ⟨-, hnext⟩ | ⟨-, hnext⟩ | ⟨-, -, -, -, p, hnext, hp, -⟩
        · exact ⟨_, hnext, rfl⟩
        · exact ⟨_, hnext, rfl⟩
        · exact ⟨p, hnext, hp⟩
      obtain ⟨p, hnext, hp⟩ := hnone
      intro u d hd
      rw [hnext] at hd
      by_cases hu : u = t
      · rw [hu, update_self, hp] at hd
        cases hd
      · rwa [update_of_ne hu] at hd
    | _ =>
      exact (keeps_go hs (fun c e => by rw [hphase] at e; cases e)
        (fun c e => by rw [hphase] at e; cases e)).send
  | expire t => exact hc.keeps (keeps_expire hs).send fun _ => rfl

/-- A thread whose call cannot go on by itself: it is not in a call, sleeps on a semaphore, or
needs the mutex that another one holds. -/
def Phase.waits (p : Phase α) (mutex : Option T) : Bool :=
  match p with
  | .idle _ => true
  | .sendAsleep _ => true
  | .recvAsleep _ => true
  | .sendLock _ _ => mutex.isSome
  | .recvLock _ _ => mutex.isSome
  | _ => false

theorem Refines.moves {s : State α T} {q : List (Msg (List α))} (h : Refines attr s q) {t : T}
    (ht : (s.phase t).waits s.mutex = false) (i : ℕ) :
    (step attr s (.go t i)).isSome = true := by
  cases hphase : s.phase t with
  | sendLock c woken =>
    rw [hphase] at ht
    have hfree : s.mutex = none := by simpa [Phase.waits] using ht
    simp [step, go, hphase, lock, hfree]
  | recvLock c woken =>
    rw [hphase] at ht
    have hfree : s.mutex = none := by simpa [Phase.waits] using ht
    simp [step, go, hphase, lock, hfree]
  | recvTest c =>
    simp only [step, go, hphase, recvTest]
    by_cases hzero : s.mq.curmsgs = 0
    · simp [hzero]
    · obtain ⟨⟨ring, hholds⟩, -⟩ := h
      obtain ⟨n, hn⟩ := Option.ne_none_iff_exists'.mp
        (mt (hholds.header_eq_none_iff _).mp (hholds.seek hzero).2.1)
      simp only [if_neg hzero, hn]
      split_ifs <;> rfl
  | idle r => simp [hphase, Phase.waits] at ht
  | sendAsleep c => simp [hphase, Phase.waits] at ht
  | recvAsleep c => simp [hphase, Phase.waits] at ht
  | _ => simp [step, go, hphase]

structure Serves (attr : Attr) (h : List (State α T × Act α T × State α T)) (s : State α T) :
    Prop where
  consistent : Consistent attr s.mq
  /-- the steps on the queue are those of the priority queue, and nothing is received twice -/
  ordered : ∃ q, Admits (Step attr.maxmsg) [] (h.map event) q ∧
    ((h.map event).filterMap Event.received? ++ q).Perm ((h.map event).filterMap Event.sent?)
  carried : Carried h s
  /-- the calls return what these steps were -/
  told : Told h s
  moves : ∀ t i, (s.phase t).waits s.mutex = false → (step attr s (.go t i)).isSome = true
  refused : ∀ a s', step attr s a = some s' → event (s, a, s') = .refused → s'.mq = s.mq

end SylixOS.Mqueue
