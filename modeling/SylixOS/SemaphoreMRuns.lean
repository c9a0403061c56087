import SylixOS.SemaphoreM
import Mathlib.Tactic.Ring

/-! Who owns a mutex: what every pend, post, hand-over and time-out keeps. -/

namespace SylixOS.SemaphoreM
open EventList StepRuns Function

variable {T M : Type*} {w : ℕ}

def State.Out (s : State T M w) (t : T) : Prop := ∃ p m, s.handing = some (p, m, t)

def Queued (attr : M → Attr) (s : State T M w) : Prop :=
  Blocked (fun m => (attr m).ulOption.waitPriority) (fun m => (s.event m).waitQ) s.peventPtr s.Out

def Event.depthOf [DecidableEq T] (e : Event T w) (t : T) : ℕ :=
  if e.pvTcbOwn = some t then e.pvPtr.toNat + 1 else 0

/-- The words of one mutex fit each other, its waiters and the calls that have succeeded. The
recursion count wraps like an `ULONG`. -/
structure Event.Fits [DecidableEq T] (e : Event T w) (blocked : T → Prop) (pends posts : T → ℕ) :
    Prop where
  free : e.ulCounter = true ↔ e.pvTcbOwn = none
  idle : e.pvTcbOwn = none → e.pvPtr = 0 ∧ ∀ t, ¬blocked t
  depth : ∀ t, ∃ k, pends t = posts t + e.depthOf t + k * 2 ^ w

structure Ok [DecidableEq T] (attr : M → Attr) (s : State T M w) : Prop where
  queued : Queued attr s
  fits : ∀ m, (s.event m).Fits (fun t => s.peventPtr t = some m) (fun t => s.pends t m)
    fun t => s.posts t m
  handing : ∀ p m t, s.handing = some (p, m, t) → (s.event m).pvTcbOwn = some p ∧
    (s.event m).pvPtr = 0 ∧ s.peventPtr t = some m ∧ s.peventPtr p = none

section Counts

variable [DecidableEq T] [DecidableEq M]

@[simp] theorem tick_self (counts : T → M → ℕ) (t : T) (m : M) :
    tick counts t m t m = counts t m + 1 := by
  unfold tick
  rw [update_self, update_self]

theorem tick_of_thread {counts : T → M → ℕ} {t u : T} {m n : M} (h : u ≠ t) :
    tick counts t m u n = counts u n := by
  unfold tick
  rw [update_of_ne h]

theorem tick_of_mutex {counts : T → M → ℕ} {t u : T} {m n : M} (h : n ≠ m) :
    tick counts t m u n = counts u n := by
  unfold tick
  by_cases hu : u = t
  · rw [hu, update_self, update_of_ne h]
  · rw [update_of_ne hu]

end Counts

theorem toNat_zero : (0 : BitVec w).toNat = 0 := BitVec.toNat_zero

section Words

variable [DecidableEq T] {e : Event T w} {blocked : T → Prop} {pends posts : T → ℕ} {t u : T}

theorem Event.Fits.take (h : e.Fits blocked pends posts) (free : e.ulCounter = true)
    (prio : Fin 256) {pends' : T → ℕ} (hself : pends' t = pends t + 1)
    (hother : ∀ u, u ≠ t → pends' u = pends u) :
    ({ e with ulCounter := false, ulMaxCounter := prio, pvTcbOwn := some t } : Event T w).Fits
      blocked pends' posts := by
  have hown := h.free.mp free
  refine ⟨by simp, fun hnone => (by cases hnone), fun u => ?_⟩
  obtain ⟨k, hk⟩ := h.depth u
  refine ⟨k, ?_⟩
  simp only [Event.depthOf, hown, reduceCtorEq, if_false, Option.some.injEq] at hk ⊢
  by_cases hu : u = t
  · rw [hu] at hk ⊢
    rw [if_pos rfl, hself, hk, (h.idle hown).1]
    rw [toNat_zero]
    omega
  · rw [if_neg (Ne.symm hu), hother u hu, hk]

theorem Event.Fits.nest (h : e.Fits blocked pends posts) (own : e.pvTcbOwn = some t)
    {pends' : T → ℕ} (hself : pends' t = pends t + 1) (hother : ∀ u, u ≠ t → pends' u = pends u) :
    ({ e with pvPtr := e.pvPtr + 1 } : Event T w).Fits blocked pends' posts := by
  refine ⟨h.free, fun hnone => absurd (own.symm.trans hnone) (by simp), fun u => ?_⟩
  obtain ⟨k, hk⟩ := h.depth u
  simp only [Event.depthOf, own, Option.some.injEq] at hk ⊢
  by_cases hu : u = t
  · rw [hu] at hk ⊢
    rw [if_pos rfl] at hk ⊢
    -- the count may wrap
    by_cases hlast : e.pvPtr.toNat + 1 = 2 ^ w
    · refine ⟨k + 1, ?_⟩
      have hzero : (e.pvPtr + 1).toNat = 0 := by
        rw [BitVec.toNat_add, toNat_one, Nat.add_mod_mod, hlast, Nat.mod_self]
      rw [hself, hk, hzero, Nat.succ_mul]
      omega
    · refine ⟨k, ?_⟩
      have hlt := e.pvPtr.isLt
      rw [hself, hk, toNat_add_one (by omega)]
      omega
  · refine ⟨k, ?_⟩
    rw [if_neg (Ne.symm hu)] at hk ⊢
    rw [hother u hu, hk]

theorem Event.Fits.unnest (h : e.Fits blocked pends posts) (own : e.pvTcbOwn = some t)
    (deep : e.pvPtr ≠ 0) {posts' : T → ℕ} (hself : posts' t = posts t + 1)
    (hother : ∀ u, u ≠ t → posts' u = posts u) :
    ({ e with pvPtr := e.pvPtr - 1 } : Event T w).Fits blocked pends posts' := by
  refine ⟨h.free, fun hnone => absurd (own.symm.trans hnone) (by simp), fun u => ?_⟩
  obtain ⟨k, hk⟩ := h.depth u
  refine ⟨k, ?_⟩
  simp only [Event.depthOf, own, Option.some.injEq] at hk ⊢
  by_cases hu : u = t
  · rw [hu] at hk ⊢
    rw [if_pos rfl] at hk ⊢
    have hpos : e.pvPtr.toNat ≠ 0 := fun hzero => deep (toNat_eq_zero.mp hzero)
    rw [hself, hk, toNat_sub_one deep]
    omega
  · rw [if_neg (Ne.symm hu)] at hk ⊢
    rw [hother u hu, hk]

theorem Event.Fits.leave (h : e.Fits blocked pends posts) (own : e.pvTcbOwn = some t)
    (last : e.pvPtr = 0) {posts' : T → ℕ} (hself : posts' t = posts t + 1)
    (hother : ∀ u, u ≠ t → posts' u = posts u) :
    ∀ u, ∃ k, pends u = posts' u + k * 2 ^ w := by
  intro u
  obtain ⟨k, hk⟩ := h.depth u
  refine ⟨k, ?_⟩
  simp only [Event.depthOf, own, Option.some.injEq] at hk
  by_cases hu : u = t
  · rw [hu] at hk ⊢
    rw [if_pos rfl, last, toNat_zero] at hk
    rw [hself, hk]
  · rw [if_neg (Ne.symm hu)] at hk
    rw [hother u hu, hk, Nat.add_zero]

theorem Event.Fits.congr (h : e.Fits blocked pends posts) {blocked' : T → Prop}
    (hblocked : e.pvTcbOwn = none → ∀ t, blocked' t → blocked t) :
    e.Fits blocked' pends posts :=
  ⟨h.free, fun hnone => ⟨(h.idle hnone).1, fun t ht => (h.idle hnone).2 t (hblocked hnone t ht)⟩,
    h.depth⟩

end Words

section Steps

variable [DecidableEq T] [DecidableEq M] {attr : M → Attr} {s s' : State T M w}

omit [DecidableEq T] in
theorem waitQ_update {m : M} {e : Event T w} (n : M) :
    (update s.event m e n).waitQ =
      update (fun n => (s.event n).waitQ) m e.waitQ n :=
  (Function.apply_update (fun _ e => Event.waitQ e) s.event m e n)

omit [DecidableEq T] in
theorem Queued.words (h : Queued attr s) {m : M} {e : Event T w}
    (hevent : s'.event = update s.event m e) (hqueue : e.waitQ = (s.event m).waitQ)
    (hblocked : s'.peventPtr = s.peventPtr) (hhanding : s'.handing = s.handing) :
    Queued attr s' := by
  unfold Queued
  rw [hblocked]
  refine Blocked.congr h (fun n => ?_) fun t => by simp [State.Out, hhanding]
  rw [hevent, waitQ_update, hqueue, update_eq_self]

omit [DecidableEq T] [DecidableEq M] in
theorem State.Runs.not_out {t u : T} (hruns : s.Runs t) : ¬s.Out u := by
  rintro ⟨p, m, h⟩
  rw [hruns.1] at h
  cases h

theorem Queued.block (h : Queued attr s) {t : T} {m : M} (hruns : s.Runs t) :
    Queued attr (s.block attr t m) :=
  (Blocked.sleep h hruns.2 hruns.not_out).congr (fun n => waitQ_update n) fun _ => Iff.rfl

theorem Queued.dequeue (h : Queued attr s) {t u : T} {m : M} (hruns : s.Runs t)
    (hwaits : (s.event m).waitQ.Waits u) : Queued attr (s.dequeue t m u) := by
  refine (Blocked.dequeue h hwaits).congr (fun n => waitQ_update n) fun v => ?_
  constructor
  · rintro ⟨p, n, hv⟩
    exact Or.inl (by simpa [State.dequeue] using hv : t = p ∧ m = n ∧ u = v).2.2.symm
  · rintro (rfl | hv)
    · exact ⟨t, m, rfl⟩
    · exact absurd hv hruns.not_out

theorem Queued.handOver (h : Queued attr s) {t u : T} {m : M}
    (hhanding : s.handing = some (t, m, u)) : Queued attr (s.handOver t m u) := by
  have hout : s.Out u := ⟨t, m, hhanding⟩
  refine (Blocked.ready h hout).congr (fun n => ?_) fun v => ?_
  · simp only [State.handOver]
    rw [waitQ_update, update_eq_self]
  · constructor
    · rintro ⟨p, n, hv⟩
      cases hv
    · rintro ⟨hvu, p, n, hv⟩
      rw [hhanding] at hv
      cases hv
      exact absurd rfl hvu

theorem Queued.unQueue (h : Queued attr s) {t : T} {m : M}
    (hwaits : (s.event m).waitQ.Waits t) : Queued attr (s.unQueue t m) :=
  (Blocked.leave h hwaits).congr (fun n => waitQ_update n) fun _ => Iff.rfl

theorem fits_update {m : M} {e : Event T w} {peventPtr : T → Option M} {pends posts : T → M → ℕ}
    (h : ∀ n, (s.event n).Fits (fun t => s.peventPtr t = some n) (fun t => s.pends t n)
      fun t => s.posts t n)
    (hself : e.Fits (fun t => peventPtr t = some m) (fun t => pends t m) fun t => posts t m)
    (hblocked : ∀ n, n ≠ m → ∀ t, peventPtr t = some n → s.peventPtr t = some n)
    (hpends : ∀ n, n ≠ m → ∀ t, pends t n = s.pends t n)
    (hposts : ∀ n, n ≠ m → ∀ t, posts t n = s.posts t n) (n : M) :
    (update s.event m e n).Fits (fun t => peventPtr t = some n) (fun t => pends t n)
      fun t => posts t n := by
  by_cases hn : n = m
  · rw [hn, update_self]
    exact hself
  · rw [update_of_ne hn, funext (hpends n hn), funext (hposts n hn)]
    exact (h n).congr fun _ => hblocked n hn

theorem Ok.take (h : Ok attr s) {t : T} {m : M} (hruns : s.Runs t)
    (hfree : (s.event m).ulCounter = true) : Ok attr (s.take t m) where
  queued := h.queued.words rfl rfl rfl rfl
  fits := fits_update h.fits
    ((h.fits m).take hfree _ (tick_self _ t m) fun u hu => tick_of_thread hu)
    (fun _ _ _ hu => hu) (fun n hn u => tick_of_mutex hn) fun _ _ _ => rfl
  handing p n u hu := by
    rw [show (s.take t m).handing = s.handing from rfl, hruns.1] at hu
    cases hu

theorem Ok.nest (h : Ok attr s) {t : T} {m : M} (hruns : s.Runs t)
    (hown : (s.event m).pvTcbOwn = some t) : Ok attr (s.nest t m) where
  queued := h.queued.words rfl rfl rfl rfl
  fits := fits_update h.fits
    ((h.fits m).nest hown (tick_self _ t m) fun u hu => tick_of_thread hu)
    (fun _ _ _ hu => hu) (fun n hn u => tick_of_mutex hn) fun _ _ _ => rfl
  handing p n u hu := by
    rw [show (s.nest t m).handing = s.handing from rfl, hruns.1] at hu
    cases hu

theorem Ok.unnest (h : Ok attr s) {t : T} {m : M} (hruns : s.Runs t)
    (hown : (s.event m).pvTcbOwn = some t) (hdeep : (s.event m).pvPtr ≠ 0) :
    Ok attr (s.unnest t m) where
  queued := h.queued.words rfl rfl rfl rfl
  fits := fits_update h.fits
    ((h.fits m).unnest hown hdeep (tick_self _ t m) fun u hu => tick_of_thread hu)
    (fun _ _ _ hu => hu) (fun _ _ _ => rfl) fun n hn u => tick_of_mutex hn
  handing p n u hu := by
    rw [show (s.unnest t m).handing = s.handing from rfl, hruns.1] at hu
    cases hu

omit [DecidableEq M] in
theorem Ok.owned (h : Ok attr s) {m : M} (htaken : (s.event m).ulCounter = false) :
    (s.event m).pvTcbOwn ≠ none := by
  intro hnone
  rw [(h.fits m).free.mpr hnone] at htaken
  cases htaken

theorem Ok.block (h : Ok attr s) {t : T} {m : M} (hruns : s.Runs t)
    (htaken : (s.event m).ulCounter = false) : Ok attr (s.block attr t m) where
  queued := h.queued.block hruns
  fits := by
    refine fits_update h.fits ?_ ?_ (fun _ _ _ => rfl) fun _ _ _ => rfl
    · exact ⟨(h.fits m).free, fun hnone => absurd hnone (h.owned htaken), (h.fits m).depth⟩
    · intro n hn u hu
      simp only [State.block] at hu
      by_cases hut : u = t
      · rw [hut, update_self] at hu
        exact absurd (Option.some.inj hu).symm hn
      · rwa [update_of_ne hut] at hu
  handing p n u hu := by
    rw [show (s.block attr t m).handing = s.handing from rfl, hruns.1] at hu
    cases hu

omit [DecidableEq T] [DecidableEq M] in
theorem Queued.blocked (h : Queued attr s) {t : T} {m : M} (hwaits : (s.event m).waitQ.Waits t) :
    s.peventPtr t = some m := ((h.waits m t).mp hwaits).1

theorem Ok.dequeue (h : Ok attr s) {t u : T} {m : M} (hruns : s.Runs t)
    (hown : (s.event m).pvTcbOwn = some t) (hlast : (s.event m).pvPtr = 0)
    (hwaits : (s.event m).waitQ.Waits u) : Ok attr (s.dequeue t m u) where
  queued := h.queued.dequeue hruns hwaits
  fits := by
    refine fits_update h.fits ?_ (fun _ _ _ hv => hv) (fun _ _ _ => rfl) fun _ _ _ => rfl
    exact ⟨(h.fits m).free, (h.fits m).idle, (h.fits m).depth⟩
  handing p n v hv := by
    obtain ⟨rfl, rfl, rfl⟩ : t = p ∧ m = n ∧ u = v := by
      simpa [State.dequeue] using hv
    simp only [State.dequeue, update_self]
    exact ⟨hown, hlast, h.queued.blocked hwaits, hruns.2⟩

theorem Ok.free (h : Ok attr s) {t : T} {m : M} (hruns : s.Runs t)
    (hown : (s.event m).pvTcbOwn = some t) (hlast : (s.event m).pvPtr = 0)
    (hempty : (s.event m).waitQ.eventWaitNum = 0) : Ok attr (s.free t m) where
  queued := h.queued.words rfl rfl rfl rfl
  fits := by
    refine fits_update h.fits ?_ (fun _ _ _ hv => hv) (fun _ _ _ => rfl)
      fun n hn u => tick_of_mutex hn
    refine ⟨by simp, fun _ => ⟨hlast, fun u hu => ?_⟩, fun u => ?_⟩
    · exact eventWaitNum_eq_zero.mp hempty u ((h.queued.waits m u).mpr ⟨hu, hruns.not_out⟩)
    · obtain ⟨k, hk⟩ := (h.fits m).leave hown hlast (tick_self s.posts t m)
        (fun v hv => tick_of_thread hv) u
      exact ⟨k, by simpa [State.free, Event.depthOf] using hk⟩
  handing p n u hu := by
    rw [show (s.free t m).handing = s.handing from rfl, hruns.1] at hu
    cases hu

theorem Ok.handOver (h : Ok attr s) {t u : T} {m : M} (hhanding : s.handing = some (t, m, u)) :
    Ok attr (s.handOver t m u) where
  queued := h.queued.handOver hhanding
  fits := by
    obtain ⟨hown, hlast, hblocked, hruns⟩ := h.handing t m u hhanding
    have hut : t ≠ u := by
      intro e
      rw [e, hblocked] at hruns
      cases hruns
    have htaken : (s.event m).ulCounter = false := by
      cases hc : (s.event m).ulCounter with
      | false => rfl
      | true => rw [(h.fits m).free.mp hc] at hown; cases hown
    refine fits_update h.fits ?_ ?_ (fun n hn v => tick_of_mutex hn) fun n hn v => tick_of_mutex hn
    · refine ⟨by simp [htaken], fun hnone => (by cases hnone), fun v => ?_⟩
      obtain ⟨k, hk⟩ := (h.fits m).leave hown hlast (tick_self s.posts t m)
        (fun v hv => tick_of_thread hv) v
      refine ⟨k, ?_⟩
      simp only [State.handOver, Event.depthOf, Option.some.injEq, hlast, toNat_zero]
      by_cases hv : v = u
      · rw [hv] at hk ⊢
        rw [tick_self, if_pos rfl, hk]
        omega
      · rw [tick_of_thread hv, if_neg (Ne.symm hv), Nat.add_zero, hk]
    · intro n hn v hv
      simp only [State.handOver] at hv
      by_cases hvu : v = u
      · rw [hvu, update_self] at hv
        cases hv
      · rwa [update_of_ne hvu] at hv
  handing p n v hv := by cases hv

theorem Ok.unQueue (h : Ok attr s) {t : T} {m : M} (hwaits : (s.event m).waitQ.Waits t) :
    Ok attr (s.unQueue t m) where
  queued := h.queued.unQueue hwaits
  fits := by
    have hleft : ∀ n u, (update s.peventPtr t none) u = some n → s.peventPtr u = some n := by
      intro n u hu
      by_cases hut : u = t
      · rw [hut, update_self] at hu
        cases hu
      · rwa [update_of_ne hut] at hu
    refine fits_update h.fits ?_ (fun n _ => hleft n) (fun _ _ _ => rfl) fun _ _ _ => rfl
    refine (?_ : Event.Fits _ _ _ _).congr fun _ => hleft m
    exact ⟨(h.fits m).free, (h.fits m).idle, (h.fits m).depth⟩
  handing p n u hu := by
    have hu' : s.handing = some (p, n, u) := hu
    obtain ⟨hown, hlast, hblocked, hruns⟩ := h.handing p n u hu'
    have hut : u ≠ t := by
      rintro rfl
      exact ((h.queued.waits m u).mp hwaits).2 ⟨p, n, hu'⟩
    have hsame : ((s.unQueue t m).event n).pvTcbOwn = (s.event n).pvTcbOwn ∧
        ((s.unQueue t m).event n).pvPtr = (s.event n).pvPtr := by
      simp only [State.unQueue]
      by_cases hn : n = m
      · rw [hn, update_self]
        exact ⟨rfl, rfl⟩
      · rw [update_of_ne hn]
        exact ⟨rfl, rfl⟩
    refine ⟨hsame.1.trans hown, hsame.2.trans hlast, ?_, ?_⟩
    · simp only [State.unQueue]
      rw [update_of_ne hut]
      exact hblocked
    · simp only [State.unQueue]
      by_cases hp : p = t
      · rw [hp, update_self]
      · rw [update_of_ne hp]
        exact hruns

theorem Ok.next {a : Action T M} (h : Ok attr s) (hstep : step attr s a = some s') :
    Ok attr s' := by
  cases step_does hstep with
  | refuse => exact h
  | take hruns hfree => exact h.take hruns hfree
  | nest hruns _ hown => exact h.nest hruns hown
  | block hruns htaken => exact h.block hruns htaken
  | unnest hruns hown hdeep => exact h.unnest hruns hown hdeep
  | dequeue hruns hown hlast hnext => exact h.dequeue hruns hown hlast (waits_of_eventQGetTcb hnext)
  | free hruns hown hlast hempty => exact h.free hruns hown hlast hempty
  | handOver hhanding => exact h.handOver hhanding
  | timeOut _ hwaits => exact h.unQueue hwaits

omit [DecidableEq M] in
theorem ok_create (ucPriority : T → Fin 256) : Ok attr (State.create ucPriority : State T M w) where
  queued := ⟨fun _ => fits_create, fun _ _ => by simp [State.create, Event.create]⟩
  fits _ := ⟨by simp [State.create, Event.create], fun _ => ⟨rfl, fun _ ht => by cases ht⟩,
    fun t => ⟨0, by simp [State.create, Event.create, Event.depthOf]⟩⟩
  handing _ _ _ h := by cases h

structure State.Owned (attr : M → Attr) (s : State T M w) : Prop where
  free : ∀ m, (s.event m).ulCounter = true ↔ (s.event m).pvTcbOwn = none ∧
    (∀ t, s.peventPtr t ≠ some m) ∧ (s.event m).pvPtr = 0
  owner : ∀ m, (s.event m).ulCounter = false → ∃! t, (s.event m).pvTcbOwn = some t
  /-- As an `ULONG`. -/
  depth : ∀ m t, (s.event m).pvTcbOwn = some t → s.posts t m < s.pends t m ∧
    (s.event m).pvPtr = BitVec.ofNat w (s.pends t m - s.posts t m - 1)
  /-- A call is counted if and only if it returns `ERROR_NONE`; a call that sleeps, and a post that
  has a waiter, are counted in the hand-over. -/
  pended : ∀ m t notWait, (semaphoreMPend attr s t m notWait).1.posts = s.posts ∧
    (semaphoreMPend attr s t m notWait).1.pends =
      if (semaphoreMPend attr s t m notWait).2 = some .errorNone then tick s.pends t m else s.pends
  posted : ∀ m t s' ret, semaphoreMPost attr s t m = some (s', ret) → s'.pends = s.pends ∧
    s'.posts = if ret = some .errorNone then tick s.posts t m else s.posts
  refused : ∀ m t, (s.event m).pvTcbOwn ≠ some t →
    semaphoreMPost attr s t m = some (s, some .errorEventNotOwn)
  /-- The last post of an owner with waiters takes one of them out of the queue. -/
  begins : ∀ m t u, s.Runs t → (s.event m).pvTcbOwn = some t → (s.event m).pvPtr = 0 →
    s.peventPtr u = some m →
    ∃ ptcb, (s.event m).waitQ.Waits ptcb ∧ step attr s (.post t m) = some (s.dequeue t m ptcb)
  /-- Until it has been made the owner, only time-outs come in between. -/
  between : ∀ t m ptcb, s.handing = some (t, m, ptcb) → (s.event m).ulCounter = false ∧
    (s.event m).pvTcbOwn = some t ∧
    ∀ a s', step attr s a = some s' → a = .handOver ∨ s'.handing = s.handing
  passes : ∀ t m ptcb, s.handing = some (t, m, ptcb) →
    ∃ s', step attr s .handOver = some s' ∧ (s'.event m).ulCounter = false ∧
      (s'.event m).pvTcbOwn = some ptcb ∧ s'.peventPtr ptcb = none ∧
      ∀ u, u ≠ ptcb → s'.peventPtr u = s.peventPtr u

omit [DecidableEq M] in
theorem Ok.taken (h : Ok attr s) {t : T} {m : M} (hown : (s.event m).pvTcbOwn = some t) :
    (s.event m).ulCounter = false := by
  cases hc : (s.event m).ulCounter with
  | false => rfl
  | true =>
    rw [(h.fits m).free.mp hc] at hown
    cases hown

theorem handing_stays {t u : T} {m : M} (hhanding : s.handing = some (t, m, u)) {a : Action T M}
    (hstep : step attr s a = some s') : a = .handOver ∨ s'.handing = s.handing := by
  cases step_does hstep with
  | refuse => exact Or.inr rfl
  | handOver => exact Or.inl rfl
  | timeOut => exact Or.inr rfl
  | take hruns => exact absurd (hruns.1.symm.trans hhanding) (by simp)
  | nest hruns => exact absurd (hruns.1.symm.trans hhanding) (by simp)
  | block hruns => exact absurd (hruns.1.symm.trans hhanding) (by simp)
  | unnest hruns => exact absurd (hruns.1.symm.trans hhanding) (by simp)
  | dequeue hruns => exact absurd (hruns.1.symm.trans hhanding) (by simp)
  | free hruns => exact absurd (hruns.1.symm.trans hhanding) (by simp)

omit [DecidableEq M] in
theorem Ok.depth (h : Ok attr s) {t : T} {m : M} (hown : (s.event m).pvTcbOwn = some t) :
    s.posts t m < s.pends t m ∧
      (s.event m).pvPtr = BitVec.ofNat w (s.pends t m - s.posts t m - 1) := by
  obtain ⟨k, hk⟩ := (h.fits m).depth t
  rw [Event.depthOf, if_pos hown] at hk
  have hless : s.posts t m < s.pends t m := by omega
  have hdiff : s.pends t m - s.posts t m - 1 = (s.event m).pvPtr.toNat + k * 2 ^ w := by omega
  refine ⟨hless, BitVec.eq_of_toNat_eq ?_⟩
  rw [hdiff, BitVec.toNat_ofNat, Nat.add_mul_mod_self_right]
  exact (Nat.mod_eq_of_lt (s.event m).pvPtr.isLt).symm

theorem Ok.begins (h : Ok attr s) {t u : T} {m : M} (hruns : s.Runs t)
    (hown : (s.event m).pvTcbOwn = some t) (hlast : (s.event m).pvPtr = 0)
    (hu : s.peventPtr u = some m) :
    ∃ ptcb, (s.event m).waitQ.Waits ptcb ∧ step attr s (.post t m) = some (s.dequeue t m ptcb) := by
  have hwaits : (s.event m).waitQ.Waits u := (h.queued.waits m u).mpr ⟨hu, hruns.not_out⟩
  have hnum : (s.event m).waitQ.eventWaitNum ≠ 0 := fun hzero =>
    eventWaitNum_eq_zero.mp hzero u hwaits
  obtain ⟨ptcb, hptcb⟩ := (h.queued.fits m).eventQGetTcb_isSome hwaits
  refine ⟨ptcb, waits_of_eventQGetTcb hptcb, ?_⟩
  simp only [step]
  rw [if_pos hruns, semaphoreMPost, if_neg (not_not.mpr hown), if_neg (not_not.mpr hlast),
    if_pos hnum, hptcb]
  rfl

theorem Ok.owned_state (h : Ok attr s) : s.Owned attr where
  free m := by
    refine ⟨fun hfree => ?_, fun hidle => (h.fits m).free.mpr hidle.1⟩
    have hnone := (h.fits m).free.mp hfree
    obtain ⟨hzero, hblocked⟩ := (h.fits m).idle hnone
    exact ⟨hnone, hblocked, hzero⟩
  owner m htaken := by
    obtain ⟨t, ht⟩ := Option.ne_none_iff_exists'.mp (h.owned htaken)
    exact ⟨t, ht, fun u hu => Option.some.inj (hu.symm.trans ht)⟩
  depth m t hown := h.depth hown
  pended _ _ _ := semaphoreMPend_counts
  posted _ _ _ _ hpost := semaphoreMPost_counts hpost
  refused m t hown := by rw [semaphoreMPost, if_pos hown]
  begins m t u hruns hown hlast hu := h.begins hruns hown hlast hu
  between t m ptcb hhanding := by
    have hown := (h.handing t m ptcb hhanding).1
    exact ⟨h.taken hown, hown, fun a s' hstep => handing_stays hhanding hstep⟩
  passes t m ptcb hhanding := by
    have htaken := h.taken (h.handing t m ptcb hhanding).1
    refine ⟨s.handOver t m ptcb, by simp [step, hhanding], ?_⟩
    simp only [State.handOver, update_self]
    exact ⟨htaken, trivial, trivial, fun u hu => update_of_ne hu none s.peventPtr⟩

/-- Along every run of pends, posts, hand-overs and time-outs of any threads on any mutexes, every
mutex is owned as its words say. -/
theorem mutexes_owned (ucPriority : T → Fin 256) (actions : List (Action T M)) :
    Visits (step attr) (State.Owned attr) (State.create ucPriority : State T M w) actions :=
  (visits_of_steps (fun _ _ _ hok hstep => Ok.next hok hstep) (ok_create ucPriority)).mono
    fun _ hok => hok.owned_state

example : ((run (step fun _ : Fin 1 => ⟨0, ⟨true, true, false, false⟩⟩)
    (State.create ![20, 10] : State (Fin 2) (Fin 1) 32)
    [.pend 0 0 false, .pend 0 0 false, .pend 1 0 false, .post 0 0, .post 0 0, .handOver]).map
      fun s => ((s.event 0).pvTcbOwn, (s.event 0).ulCounter, s.peventPtr 1, s.ucPriority 0)) =
    some (some 1, false, none, 20) := by decide

end Steps

end SylixOS.SemaphoreM
