import Mathlib.Algebra.BigOperators.Group.Finset.Basic
import Mathlib.Algebra.BigOperators.Intervals
import SylixOS.Mqueue

/-! A message queue refines a bounded priority queue: the step that stores a message
appends to the list of queued messages, and the step that takes one out takes the oldest
of the highest priority. -/

namespace SylixOS.Mqueue
open StepRuns BinarySemaphore BitmapLib LinkedChain ListLink PriorityQueue RingBuffer Function
open scoped BigOperators

variable {α T : Type}

structure Holds (attr : Attr) (m : Store α) (ring : Slot → List ℕ) (q : List (Msg (List α))) :
    Prop where
  family : RingFamily m.links m.header ring
  map : ∀ p < mqPrioMax, m.map.getLsbD p = true ↔ ring (.prio p) ≠ []
  bodies : ∀ p < mqPrioMax,
    (ring (.prio p)).map m.body = (level q (prioConvert p)).map Msg.body
  prios : ∀ x ∈ q, x.prio < mqPrioMax
  count : m.curmsgs = q.length
  total : q.length + (ring .free).length = attr.maxmsg

theorem prioConvert_lt (p : ℕ) : prioConvert p < mqPrioMax := by
  unfold prioConvert mqPrioMax
  omega

theorem prioConvert_prioConvert {p : ℕ} (hp : p < mqPrioMax) : prioConvert (prioConvert p) = p := by
  unfold prioConvert mqPrioMax at *
  omega

theorem prioConvert_eq_iff {p k : ℕ} (hp : p < mqPrioMax) (hk : k < mqPrioMax) :
    prioConvert p = k ↔ p = prioConvert k := by
  unfold prioConvert mqPrioMax at *
  omega

variable {attr : Attr} {m : Store α} {ring : Slot → List ℕ} {q : List (Msg (List α))}

theorem Holds.header_eq (h : Holds attr m ring q) (k : Slot) : m.header k = (ring k).head? :=
  (h.family.isRing k).header_eq

theorem Holds.header_eq_none_iff (h : Holds attr m ring q) (k : Slot) :
    m.header k = none ↔ ring k = [] := by
  rw [h.header_eq, List.head?_eq_none_iff]

theorem Holds.ring_cons (h : Holds attr m ring q) {k : Slot} {n : ℕ} (hn : m.header k = some n) :
    ∃ rest, ring k = n :: rest := by
  rw [h.header_eq, List.head?_eq_some_iff] at hn
  exact hn

theorem Holds.level_length (h : Holds attr m ring q) {p : ℕ} (hp : p < mqPrioMax) :
    (ring (.prio p)).length = (level q (prioConvert p)).length := by
  have hlen := congrArg List.length (h.bodies p hp)
  simpa using hlen

theorem Holds.level_eq_nil_iff (h : Holds attr m ring q) {p : ℕ} (hp : p < mqPrioMax) :
    ring (.prio p) = [] ↔ level q (prioConvert p) = [] := by
  rw [← List.length_eq_zero_iff, ← List.length_eq_zero_iff, h.level_length hp]

theorem sum_level (n : ℕ) (hq : ∀ x ∈ q, x.prio < n) :
    ∑ k ∈ Finset.range n, (level q k).length = q.length := by
  induction q with
  | nil => simp [level]
  | cons x q ih =>
    have hcons : ∀ k, (level (x :: q) k).length =
        (level q k).length + if x.prio = k then 1 else 0 := by
      intro k
      by_cases hk : x.prio = k <;> simp [level, hk]
    have hx := hq x List.mem_cons_self
    rw [Finset.sum_congr rfl fun k _ => hcons k, Finset.sum_add_distrib,
      ih fun y hy => hq y (List.mem_cons_of_mem x hy), Finset.sum_ite_eq,
      if_pos (Finset.mem_range.mpr hx), List.length_cons]

theorem Holds.queued (h : Holds attr m ring q) :
    ∑ p ∈ Finset.range mqPrioMax, (ring (.prio p)).length = m.curmsgs := by
  have hlevels : ∀ p ∈ Finset.range mqPrioMax,
      (ring (.prio p)).length = (level q (mqPrioMax - 1 - p)).length := fun p hp =>
    h.level_length (Finset.mem_range.mp hp)
  rw [Finset.sum_congr rfl hlevels,
    Finset.sum_range_reflect (fun k => (level q k).length) mqPrioMax, sum_level _ h.prios, h.count]

theorem body_sendMsg (m : Store α) (n p : ℕ) (msg : List α) (x : ℕ) :
    (sendMsg m n msg p).body x = if x = n then msg else m.body x := by
  by_cases hx : x = n
  · rw [if_pos hx, hx]
    simp only [Store.body, sendMsg, update_self, slice_put]
  · rw [if_neg hx]
    unfold Store.body sendMsg
    simp only [update_of_ne hx]

theorem Holds.send (h : Holds attr m ring q) {n : ℕ} (hn : m.header .free = some n) {p : ℕ}
    (hp : p < mqPrioMax) (msg : List α) :
    q.length < attr.maxmsg ∧
      ∃ ring', Holds attr (sendMsg m n msg p) ring' (q ++ [⟨prioConvert p, msg⟩]) := by
  obtain ⟨rest, hfree⟩ := h.ring_cons hn
  have htotal := h.total
  rw [hfree, List.length_cons] at htotal
  refine ⟨by omega, update (update ring .free rest) (.prio p)
    (ring (.prio p) ++ [n]), ?_⟩
  have hslots : Slot.free ≠ .prio p := Slot.noConfusion
  obtain ⟨-, hfamily⟩ := ringFamily_move h.family hslots hfree
  have hring : ∀ k, update (update ring .free rest) (.prio p)
      (ring (.prio p) ++ [n]) (.prio k) =
        if k = p then ring (.prio p) ++ [n] else ring (.prio k) := by
    intro k
    by_cases hk : k = p
    · subst hk
      simp
    · have hslot : (Slot.prio k) ≠ .prio p := fun e => hk (Slot.prio.inj e)
      rw [update_of_ne hslot, if_neg hk]
      simp
  have hout : ∀ k, n ∉ ring (.prio k) := fun k hk =>
    nomatch h.family.disjoint hk (hfree ▸ List.mem_cons_self : n ∈ ring .free)
  refine ⟨hfamily, fun k hk => ?_, fun k hk => ?_, fun x hx => ?_, ?_, ?_⟩
  · rw [hring]
    unfold sendMsg
    simp only
    by_cases hempty : m.header (.prio p) = none
    · rw [if_pos hempty, BitVec.getLsbD_or, getLsbD_shift hp, Bool.or_eq_true, h.map k hk,
        decide_eq_true_eq]
      by_cases hkp : k = p
      · simp [hkp]
      · simp [hkp]
    · rw [if_neg hempty, h.map k hk]
      have hne := mt (h.header_eq_none_iff (.prio p)).mpr hempty
      by_cases hkp : k = p
      · simp [hkp, hne]
      · simp [hkp]
  · rw [hring, level_append]
    have hkeep : ∀ l : List ℕ, n ∉ l → l.map (sendMsg m n msg p).body = l.map m.body := by
      intro l hl
      apply List.map_congr_left
      intro x hx
      rw [body_sendMsg, if_neg (ne_of_mem_of_not_mem hx hl)]
    by_cases hkp : k = p
    · subst hkp
      rw [if_pos rfl, if_pos rfl, List.map_append, List.map_append, hkeep _ (hout k), h.bodies k hk]
      simp [body_sendMsg]
    · have hne : prioConvert p ≠ prioConvert k := by
        intro e
        rw [prioConvert_eq_iff hp (prioConvert_lt k), prioConvert_prioConvert hk] at e
        exact hkp e.symm
      rw [if_neg hkp, if_neg hne, hkeep _ (hout k), h.bodies k hk]
  · rcases List.mem_append.mp hx with hx | hx
    · exact h.prios x hx
    · rw [List.mem_singleton.mp hx]
      exact prioConvert_lt p
  · simp [sendMsg, h.count]
  · rw [update_of_ne hslots, update_self, List.length_append,
      List.length_singleton]
    omega

theorem Holds.seek (h : Holds attr m ring q) (hne : m.curmsgs ≠ 0) :
    mqueueSeekPrio m < mqPrioMax ∧ ring (.prio (mqueueSeekPrio m)) ≠ [] ∧
      ∀ x ∈ q, x.prio ≤ prioConvert (mqueueSeekPrio m) := by
  have hlevel : ∀ x ∈ q, ring (.prio (prioConvert x.prio)) ≠ [] := by
    intro x hx hnil
    rw [h.level_eq_nil_iff (prioConvert_lt _), prioConvert_prioConvert (h.prios x hx)] at hnil
    have hmem : x ∈ level q x.prio := List.mem_filter.mpr ⟨hx, by simp⟩
    rw [hnil] at hmem
    cases hmem
  have hmap : m.map ≠ 0#32 := by
    have hq : q ≠ [] := by
      rintro rfl
      exact hne h.count
    obtain ⟨x, hx⟩ := List.exists_mem_of_ne_nil q hq
    exact ne_zero_iff_getLsbD.mpr ⟨prioConvert x.prio, prioConvert_lt _,
      (h.map _ (prioConvert_lt _)).mpr (hlevel x hx)⟩
  obtain ⟨p, hp, hlsb, hbit, hlow⟩ := archFindLsb_spec hmap
  have hseek : mqueueSeekPrio m = p := by
    rw [mqueueSeekPrio, hlsb, Nat.add_sub_cancel]
  rw [hseek]
  refine ⟨hp, (h.map p hp).mp hbit, fun x hx => ?_⟩
  have hx' := h.prios x hx
  by_contra hgt
  have hlt : prioConvert x.prio < p := by
    unfold prioConvert mqPrioMax at *
    omega
  have hzero := hlow _ hlt
  rw [Bool.eq_false_iff] at hzero
  exact hzero ((h.map _ (prioConvert_lt _)).mpr (hlevel x hx))

theorem body_recvMsg (m : Store α) (n p x : ℕ) : (recvMsg m n p).body x = m.body x := rfl

theorem Holds.recv (h : Holds attr m ring q) (hne : m.curmsgs ≠ 0) {n : ℕ}
    (hn : m.header (.prio (mqueueSeekPrio m)) = some n) :
    best q = some ⟨prioConvert (mqueueSeekPrio m), m.body n⟩ ∧
      ∃ ring', Holds attr (recvMsg m n (mqueueSeekPrio m)) ring' (pop q) := by
  obtain ⟨hp, hring, hle⟩ := h.seek hne
  generalize mqueueSeekPrio m = p at hn hp hring hle ⊢
  obtain ⟨rest, hrest⟩ := h.ring_cons hn
  have hk : level q (prioConvert p) ≠ [] := mt (h.level_eq_nil_iff hp).mpr hring
  have hbodies := h.bodies p hp
  obtain ⟨x, tail, hlevel⟩ := List.exists_cons_of_ne_nil hk
  rw [hrest, hlevel, List.map_cons, List.map_cons, List.cons.injEq] at hbodies
  have hxprio : x.prio = prioConvert p := by
    have hmem : x ∈ level q (prioConvert p) := hlevel ▸ List.mem_cons_self
    simpa using (List.mem_filter.mp hmem).2
  have hbest : best q = some ⟨prioConvert p, m.body n⟩ := by
    rw [best_eq hle hk, hlevel, List.head?_cons, hbodies.1, ← hxprio]
  refine ⟨hbest, update (update ring (.prio p) rest) .free
    (ring .free ++ [n]), ?_⟩
  have hslots : Slot.prio p ≠ .free := Slot.noConfusion
  obtain ⟨hheader, hfamily⟩ := ringFamily_move h.family hslots hrest
  have hring' : ∀ k, update (update ring (.prio p) rest) .free
      (ring .free ++ [n]) (.prio k) = if k = p then rest else ring (.prio k) := by
    intro k
    rw [update_of_ne Slot.noConfusion]
    by_cases hkp : k = p
    · rw [hkp, update_self, if_pos rfl]
    · rw [update_of_ne fun e => hkp (Slot.prio.inj e), if_neg hkp]
  have hlen := length_pop hbest
  refine ⟨hfamily, fun k hk' => ?_, fun k hk' => ?_, fun y hy => ?_, ?_, ?_⟩
  · rw [hring']
    unfold recvMsg
    simp only
    rw [hheader]
    by_cases hempty : rest = []
    · rw [if_pos (List.head?_eq_none_iff.mpr hempty), BitVec.getLsbD_and, BitVec.getLsbD_not, getLsbD_shift hp]
      by_cases hkp : k = p
      · simp [hkp, hempty]
      · have hk32 : k < 32 := hk'
        have hmap := h.map k hk'
        rw [BitVec.getLsbD_eq_getElem hk32] at hmap
        simp [hkp, hk32, hmap]
    · rw [if_neg (mt List.head?_eq_none_iff.mp hempty), h.map k hk']
      by_cases hkp : k = p
      · simp [hkp, hempty, hring]
      · simp [hkp]
  · rw [hring', level_pop hle ‹_›]
    have hsame : (recvMsg m n p).body = m.body := funext fun x => body_recvMsg m n p x
    rw [hsame]
    by_cases hkp : k = p
    · rw [hkp, if_pos rfl, if_pos rfl, hlevel, List.tail_cons, hbodies.2]
    · have hne' : prioConvert k ≠ prioConvert p := by
        intro e
        rw [prioConvert_eq_iff hk' (prioConvert_lt p), prioConvert_prioConvert hp] at e
        exact hkp e
      rw [if_neg hkp, if_neg hne', h.bodies k hk']
  · exact h.prios y (List.mem_of_mem_eraseP hy)
  · have hcount := h.count
    simp only [recvMsg]
    omega
  · have htotal := h.total
    rw [update_self, List.length_append, List.length_singleton]
    omega

/-- The block in which a queue is created holds all of its nodes, and lies in the address space. -/
structure Attr.Fits (attr : Attr) (pcMem : ℕ) : Prop where
  size : attr.memBufferSize = attr.bytesPerMsg * attr.maxmsg
  block : pcMem + attr.memBufferSize ≤ 2 ^ attr.word.bits

def Phase.result? : Phase α → Option (Ret α)
  | .sendPostRead => some .sent
  | .sendPostWrite => some .sent
  | .sendUnlock => some .sent
  | .recvTooBig => some .emsgsize
  | .recvPostWrite ret => some ret
  | .recvPostRead ret => some ret
  | .recvUnlock ret => some ret
  | _ => none

def event (e : State α T × Act α T × State α T) : Event (List α) :=
  match e with
  | (s, .go t _, s') =>
    match s.phase t, (s'.phase t).result? with
    | .sendTest c, some _ => .sent ⟨prioConvert c.uiRealPrio, c.msg⟩
    | .recvTest _, some (.received msg prio) => .received ⟨prio, msg⟩
    | .recvTest _, some _ => .refused
    | _, _ => .silent
  | _ => .silent

/-- The result of a call that has met the queue, and not its time limit. -/
def Ret.met? : Ret α → Option (Ret α)
  | .sent => some .sent
  | .received msg prio => some (.received msg prio)
  | .emsgsize => some .emsgsize
  | _ => none

def toldOf : Event (List α) → Option (Ret α)
  | .sent _ => some .sent
  | .received m => some (.received m.body m.prio)
  | .refused => some .emsgsize
  | .silent => none

def Act.caller? : Act α T → Option T
  | .go t _ => some t
  | .expire t => some t
  | _ => none

section
variable [DecidableEq T]

def answer (t : T) (e : State α T × Act α T × State α T) : Option (Ret α) :=
  match e with
  | (_, a, s') =>
    if a.caller? = some t then
      match s'.phase t with
      | .idle (some r) => r.met?
      | _ => none
    else none

def verdict (t : T) (e : State α T × Act α T × State α T) : Option (Ret α) :=
  if e.2.1.caller? = some t then toldOf (event e) else none

def asked (t : T) (e : State α T × Act α T × State α T) : Option (Msg (List α)) :=
  match e with
  | (_, .send u msg msgprio _, _) => if u = t then some ⟨msgprio, msg⟩ else none
  | _ => none

end

def Phase.send? : Phase α → Option (Send α)
  | .sendLock c _ => some c
  | .sendTest c => some c
  | .sendLeave c => some c
  | .sendWait c => some c
  | .sendAsleep c => some c
  | _ => none

def PriosOk (s : State α T) : Prop :=
  ∀ t c, (s.phase t).send? = some c → c.uiRealPrio < mqPrioMax

structure Keeps (s s' : State α T) : Prop where
  mq : s'.mq = s.mq
  send : ∀ t c, (s'.phase t).send? = some c → (s.phase t).send? = some c

theorem Keeps.refl (s : State α T) : Keeps s s := ⟨rfl, fun _ _ h => h⟩

theorem Keeps.trans {s m s' : State α T} (h : Keeps s m) (h' : Keeps m s') : Keeps s s' :=
  ⟨h'.mq.trans h.mq, fun t c hc => h.send t c (h'.send t c hc)⟩

variable [DecidableEq T]

theorem Keeps.of_update {s s' : State α T} {t : T} {p : Phase α} (hmq : s'.mq = s.mq)
    (hphase : s'.phase = update s.phase t p)
    (hp : p.send? = none ∨ p.send? = (s.phase t).send?) : Keeps s s' := by
  refine ⟨hmq, fun u c hc => ?_⟩
  rw [hphase] at hc
  by_cases hu : u = t
  · rw [hu, update_self] at hc
    rcases hp with hp | hp
    · rw [hp] at hc
      cases hc
    · rw [hu, ← hp, hc]
  · rwa [update_of_ne hu] at hc

theorem keeps_wake (s : State α T) (t : Option T) : Keeps s (s.wake t) := by
  cases t with
  | none => exact Keeps.refl s
  | some t =>
    cases hphase : s.phase t with
    | sendAsleep c =>
      simp only [State.wake, hphase]
      exact Keeps.of_update rfl rfl (Or.inr (by rw [hphase]; rfl))
    | recvAsleep c =>
      simp only [State.wake, hphase]
      exact Keeps.of_update rfl rfl (Or.inl rfl)
    | _ =>
      simp only [State.wake, hphase]
      exact Keeps.refl s

theorem keeps_postRead (s : State α T) (i : ℕ) : Keeps s (s.postRead i) :=
  Keeps.trans (m := { s with readSync := (s.readSync.post i).2 }) ⟨rfl, fun _ _ h => h⟩
    (keeps_wake _ _)

theorem keeps_postWrite (s : State α T) (i : ℕ) : Keeps s (s.postWrite i) :=
  Keeps.trans (m := { s with writeSync := (s.writeSync.post i).2 }) ⟨rfl, fun _ _ h => h⟩
    (keeps_wake _ _)

theorem keeps_setPhase {s : State α T} {t : T} {p : Phase α}
    (hp : p.send? = none ∨ p.send? = (s.phase t).send?) : Keeps s (s.setPhase t p) :=
  Keeps.of_update rfl rfl hp

theorem keeps_sendWait {s : State α T} {t : T} {c : Send α} (hc : (s.phase t).send? = some c) :
    Keeps s (sendWait s t c) := by
  unfold sendWait
  split_ifs
  · exact Keeps.of_update rfl rfl (Or.inr hc.symm)
  · exact keeps_setPhase (Or.inl rfl)
  · exact Keeps.of_update rfl rfl (Or.inr hc.symm)

theorem keeps_recvWait (s : State α T) (t : T) (c : Recv) : Keeps s (recvWait s t c) := by
  unfold recvWait
  split_ifs
  · exact Keeps.of_update rfl rfl (Or.inl rfl)
  · exact keeps_setPhase (Or.inl rfl)
  · exact Keeps.of_update rfl rfl (Or.inl rfl)

theorem keeps_lock {s s' : State α T} {t : T} {p : Phase α} (hs : lock s t p = some s')
    (hp : p.send? = none ∨ p.send? = (s.phase t).send?) : Keeps s s' := by
  unfold lock at hs
  split_ifs at hs
  obtain rfl := Option.some.inj hs
  exact Keeps.of_update rfl rfl hp

theorem keeps_expire {s s' : State α T} {t : T} (hs : expire s t = some s') : Keeps s s' := by
  unfold expire at hs
  split at hs
  all_goals first
    | (split_ifs at hs
       obtain rfl := Option.some.inj hs
       exact Keeps.of_update rfl rfl (Or.inl rfl))
    | cases hs

def Refines (attr : Attr) (s : State α T) (q : List (Msg (List α))) : Prop :=
  (∃ ring, Holds attr s.mq ring q) ∧ PriosOk s

omit [DecidableEq T] in
theorem Refines.keeps {s s' : State α T} {q : List (Msg (List α))} (h : Refines attr s q)
    (hk : Keeps s s') : ∃ q', Step attr.maxmsg q .silent q' ∧ Refines attr s' q' := by
  refine ⟨q, rfl, ?_, fun t c hc => h.2 t c (hk.send t c hc)⟩
  rw [hk.mq]
  exact h.1

theorem sendTest_stored {s : State α T} {n : ℕ} (hfree : s.mq.header .free = some n) (t : T)
    (c : Send α) :
    (sendTest s t c).mq = sendMsg s.mq n c.msg c.uiRealPrio ∧
      ∃ p, (sendTest s t c).phase = update s.phase t p ∧ p.result? = some .sent := by
  unfold sendTest
  rw [hfree]
  refine ⟨rfl, _, rfl, ?_⟩
  split_ifs <;> rfl

theorem sendTest_full {s : State α T} (hfree : s.mq.header .free = none) (t : T) (c : Send α) :
    (sendTest s t c).mq = s.mq ∧ (sendTest s t c).phase = update s.phase t (.sendLeave c) := by
  unfold sendTest
  rw [hfree]
  exact ⟨rfl, rfl⟩

theorem recvTest_cases {s s' : State α T} {t : T} {c : Recv} (hs : recvTest s t c = some s') :
    (s'.mq = s.mq ∧ s'.phase = update s.phase t (.recvLeave c)) ∨
    (s'.mq = s.mq ∧ s'.phase = update s.phase t .recvTooBig) ∨
    (s.mq.curmsgs ≠ 0 ∧ ∃ n, s.mq.header (.prio (mqueueSeekPrio s.mq)) = some n ∧
      s'.mq = recvMsg s.mq n (mqueueSeekPrio s.mq) ∧
      ∃ p, s'.phase = update s.phase t p ∧ p.send? = none ∧
        p.result? = some (.received (s.mq.body n) (prioConvert (mqueueSeekPrio s.mq)))) := by
  unfold recvTest at hs
  by_cases hzero : s.mq.curmsgs = 0
  · rw [if_pos hzero] at hs
    obtain rfl := Option.some.inj hs
    exact Or.inl ⟨rfl, rfl⟩
  · rw [if_neg hzero] at hs
    simp only at hs
    cases hn : s.mq.header (.prio (mqueueSeekPrio s.mq)) with
    | none =>
      rw [hn] at hs
      cases hs
    | some n =>
      rw [hn] at hs
      simp only at hs
      by_cases hbig : c.msglen < s.mq.msgLen n
      · rw [if_pos hbig] at hs
        obtain rfl := Option.some.inj hs
        exact Or.inr (Or.inl ⟨rfl, rfl⟩)
      · rw [if_neg hbig] at hs
        obtain rfl := Option.some.inj hs
        refine Or.inr (Or.inr ⟨hzero, n, rfl, rfl, _, rfl, ?_, ?_⟩) <;> split_ifs <;> rfl

theorem keeps_optional_postWrite (s : State α T) (i : ℕ) (c : Prop) [Decidable c] :
    Keeps s (if c then s else s.postWrite i) := by
  split_ifs
  · exact Keeps.refl s
  · exact keeps_postWrite s i

theorem keeps_optional_postRead (s : State α T) (i : ℕ) (c : Prop) [Decidable c] :
    Keeps s (if c then s else s.postRead i) := by
  split_ifs
  · exact Keeps.refl s
  · exact keeps_postRead s i

theorem keeps_go {s s' : State α T} {t : T} {i : ℕ} (hs : go s t i = some s')
    (hsend : ∀ c, s.phase t ≠ .sendTest c) (hrecv : ∀ c, s.phase t ≠ .recvTest c) :
    Keeps s s' := by
  unfold go at hs
  cases hphase : s.phase t with
  | sendTest c => exact absurd hphase (hsend c)
  | recvTest c => exact absurd hphase (hrecv c)
  | sendLock c woken =>
    rw [hphase] at hs
    exact keeps_lock hs (Or.inr (by rw [hphase]; rfl))
  | sendLeave c =>
    rw [hphase] at hs
    obtain rfl := Option.some.inj hs
    exact Keeps.of_update rfl rfl (Or.inr (by rw [hphase]; rfl))
  | sendWait c =>
    rw [hphase] at hs
    obtain rfl := Option.some.inj hs
    exact keeps_sendWait (by rw [hphase]; rfl)
  | sendPostRead =>
    rw [hphase] at hs
    obtain rfl := Option.some.inj hs
    exact (keeps_setPhase (Or.inl rfl)).trans (keeps_postRead _ i)
  | sendPostWrite =>
    rw [hphase] at hs
    obtain rfl := Option.some.inj hs
    exact (keeps_setPhase (Or.inl rfl)).trans (keeps_optional_postWrite _ i _)
  | sendUnlock =>
    rw [hphase] at hs
    obtain rfl := Option.some.inj hs
    exact Keeps.of_update rfl rfl (Or.inl rfl)
  | recvLock c woken =>
    rw [hphase] at hs
    exact keeps_lock hs (Or.inl rfl)
  | recvLeave c =>
    rw [hphase] at hs
    obtain rfl := Option.some.inj hs
    exact Keeps.of_update rfl rfl (Or.inl rfl)
  | recvWait c =>
    rw [hphase] at hs
    obtain rfl := Option.some.inj hs
    exact keeps_recvWait s t c
  | recvTooBig =>
    rw [hphase] at hs
    obtain rfl := Option.some.inj hs
    exact (keeps_setPhase (Or.inl rfl)).trans (keeps_postRead _ i)
  | recvPostWrite ret =>
    rw [hphase] at hs
    obtain rfl := Option.some.inj hs
    exact (keeps_setPhase (Or.inl rfl)).trans (keeps_postWrite _ i)
  | recvPostRead ret =>
    rw [hphase] at hs
    obtain rfl := Option.some.inj hs
    exact (keeps_setPhase (Or.inl rfl)).trans (keeps_optional_postRead _ i _)
  | recvUnlock ret =>
    rw [hphase] at hs
    obtain rfl := Option.some.inj hs
    exact Keeps.of_update rfl rfl (Or.inl rfl)
  | _ =>
    rw [hphase] at hs
    cases hs

def Consistent (attr : Attr) (m : Store α) : Prop :=
  ∃ ring, RingFamily m.links m.header ring ∧
    m.curmsgs = ∑ p ∈ Finset.range mqPrioMax, (ring (.prio p)).length ∧
    (∑ p ∈ Finset.range mqPrioMax, (ring (.prio p)).length) + (ring .free).length = attr.maxmsg ∧
    ∀ p < mqPrioMax, m.map.getLsbD p = true ↔ ring (.prio p) ≠ []

omit [DecidableEq T] in
theorem Refines.consistent {s : State α T} {q : List (Msg (List α))} (h : Refines attr s q) :
    Consistent attr s.mq := by
  obtain ⟨⟨ring, hholds⟩, -⟩ := h
  refine ⟨ring, hholds.family, hholds.queued.symm, ?_, hholds.map⟩
  rw [hholds.queued, hholds.count]
  exact hholds.total

end SylixOS.Mqueue
