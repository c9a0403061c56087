import SylixOS.BitmapLib
import SylixOS.ListLink
import SylixOS.PriorityQueue
import SylixOS.RingBuffer

/-! The message store of the kernel message queue (_MsgQueueLib.c) with its nodes
as records: a pool of nodes, one list of them for each priority and a map of the
lists that are not empty. It holds a priority queue. -/

namespace SylixOS.MsgQueueLib
open BitmapLib LinkedChain ListLink PriorityQueue RingBuffer Function

def msgQPrio : ℕ := 8

def msgQPrioLow : ℕ := 7

variable {α : Type}

/-- `LW_CLASS_MSGQUEUE`. A node is its number in `MSGQUEUE_pvBuffer`, with its
`MSGNODE_stMsgLen` and its bytes. -/
structure MsgQueue (α : Type) where
  next : ℕ → Option ℕ
  pmonoFree : Option ℕ
  pmonoHeader : ℕ → Option ℕ
  pmonoTail : ℕ → Option ℕ
  uiMap : BitVec 32
  stMsgLen : ℕ → ℕ
  buffer : ℕ → ℕ → α

variable (m : MsgQueue α)

def clearLoop (m : MsgQueue α) : (left i : ℕ) → MsgQueue α
  | 0, _ => m
  | left + 1, i =>
    let r := listMonoFree m.next m.pmonoFree i
    clearLoop { m with next := r.1, pmonoFree := r.2 } left (i + 1)

def msgQueueClear (ulMsgTotal : ℕ) : MsgQueue α :=
  clearLoop
    { m with
      pmonoFree := none
      uiMap := 0
      pmonoHeader := fun _ => none
      pmonoTail := fun _ => none }
    ulMsgTotal 0

def MsgQueue.body (pmsgnode : ℕ) : List α := slice (m.buffer pmsgnode) 0 (m.stMsgLen pmsgnode)

/-- What `_MsgQueueGet` gives: the bytes that fit into the caller's buffer, and the whole message
(ghost). -/
structure Got (α : Type) where
  bytes : List α
  whole : List α

def msgQueueGet (stMaxByteSize : ℕ) : Option (Got α × MsgQueue α) :=
  let iQ := archFindLsb m.uiMap - 1
  match listMonoAllocateSeq m.next (m.pmonoHeader iQ) (m.pmonoTail iQ) with
  | none => none
  | some (pmsgnode, header, tail) =>
    let uiMap := if header = none then m.uiMap &&& ~~~(1#32 <<< iQ) else m.uiMap
    let stMsgLen :=
      if stMaxByteSize < m.stMsgLen pmsgnode then stMaxByteSize else m.stMsgLen pmsgnode
    let r := listMonoFree m.next m.pmonoFree pmsgnode
    some (⟨slice (m.buffer pmsgnode) 0 stMsgLen, m.body pmsgnode⟩,
      { m with
        next := r.1
        pmonoFree := r.2
        pmonoHeader := update m.pmonoHeader iQ header
        pmonoTail := update m.pmonoTail iQ tail
        uiMap := uiMap })

def msgQueuePut (msg : List α) (uiPrio : ℕ) : MsgQueue α :=
  match listMonoAllocate m.next m.pmonoFree with
  | none => m
  | some (pmsgnode, free) =>
    let uiMap := if m.pmonoHeader uiPrio = none then m.uiMap ||| (1#32 <<< uiPrio) else m.uiMap
    let r := listMonoFreeSeq m.next (m.pmonoHeader uiPrio) (m.pmonoTail uiPrio) pmsgnode
    { next := r.1
      pmonoFree := free
      pmonoHeader := update m.pmonoHeader uiPrio r.2.1
      pmonoTail := update m.pmonoTail uiPrio r.2.2
      uiMap := uiMap
      stMsgLen := update m.stMsgLen pmsgnode msg.length
      buffer := update m.buffer pmsgnode (put (m.buffer pmsgnode) 0 msg) }

def msgQueueMsgLen : ℕ :=
  match m.pmonoHeader (archFindLsb m.uiMap - 1) with
  | none => 0
  | some pmsgnode => m.stMsgLen pmsgnode

inductive Slot where
  | free
  | prio (p : ℕ)
  deriving DecidableEq

def MsgQueue.head : Slot → Option ℕ
  | .free => m.pmonoFree
  | .prio p => m.pmonoHeader p

def urgency (uiPrio : ℕ) : ℕ := msgQPrioLow - uiPrio

structure Holds (ulMaxCounter : ℕ) (m : MsgQueue α) (chain : Slot → List ℕ)
    (q : List (Msg (List α))) : Prop where
  mono : ∀ k, IsMono m.next (m.head k) (chain k)
  nodup : ∀ k, (chain k).Nodup
  disjoint : ∀ k k' x, x ∈ chain k → x ∈ chain k' → k = k'
  tail : ∀ p, m.pmonoTail p = (chain (.prio p)).getLast?
  map : ∀ p < msgQPrio, m.uiMap.getLsbD p = true ↔ chain (.prio p) ≠ []
  high : ∀ p, msgQPrio ≤ p → m.uiMap.getLsbD p = false
  bodies : ∀ p < msgQPrio,
    (chain (.prio p)).map m.body = (level q (urgency p)).map Msg.body
  prios : ∀ x ∈ q, x.prio < msgQPrio
  total : q.length + (chain .free).length = ulMaxCounter
  bound : ∀ k, ∀ x ∈ chain k, x < ulMaxCounter

variable {m} {ulMaxCounter : ℕ} {chain : Slot → List ℕ} {q : List (Msg (List α))}

theorem urgency_lt (p : ℕ) : urgency p < msgQPrio := by
  unfold urgency msgQPrio msgQPrioLow
  omega

theorem urgency_urgency {p : ℕ} (hp : p < msgQPrio) : urgency (urgency p) = p := by
  unfold urgency msgQPrioLow msgQPrio at *
  omega

theorem urgency_inj {p k : ℕ} (hp : p < msgQPrio) (hk : k < msgQPrio) :
    urgency p = urgency k ↔ p = k := by
  unfold urgency msgQPrioLow msgQPrio at *
  omega

theorem Holds.header_none (h : Holds ulMaxCounter m chain q) (p : ℕ) :
    m.pmonoHeader p = none ↔ chain (.prio p) = [] := by
  have hhead : m.pmonoHeader p = (chain (.prio p)).head? := (h.mono (.prio p)).head_eq
  rw [hhead, List.head?_eq_none_iff]

theorem Holds.level_nil (h : Holds ulMaxCounter m chain q) {p : ℕ} (hp : p < msgQPrio) :
    chain (.prio p) = [] ↔ level q (urgency p) = [] := by
  have hlen := congrArg List.length (h.bodies p hp)
  rw [List.length_map, List.length_map] at hlen
  rw [← List.length_eq_zero_iff, ← List.length_eq_zero_iff, hlen]

theorem Holds.put (h : Holds ulMaxCounter m chain q) (hroom : q.length < ulMaxCounter)
    (msg : List α) {p : ℕ} (hp : p < msgQPrio) :
    ∃ chain', Holds ulMaxCounter (msgQueuePut m msg p) chain' (q ++ [⟨urgency p, msg⟩]) := by
  have htotal := h.total
  cases hpool : chain .free with
  | nil =>
    rw [hpool] at htotal
    simp only [List.length_nil] at htotal
    omega
  | cons n pool =>
    obtain ⟨hfree, hmono⟩ : m.pmonoFree = some n ∧ IsMono m.next (m.next n) pool := by
      have hmono := h.mono .free
      rw [hpool] at hmono
      exact hmono
    have hnodup := h.nodup .free
    rw [hpool] at hnodup
    obtain ⟨hn, hrest⟩ := List.nodup_cons.mp hnodup
    have hout : ∀ k, n ∉ chain (.prio k) := by
      intro k hk
      have hin : n ∈ chain .free := by simp [hpool]
      exact nomatch h.disjoint _ _ n hin hk
    have hheader : IsMono m.next (m.pmonoHeader p) (chain (.prio p)) := h.mono (.prio p)
    obtain ⟨hlist, hlast, hkeep⟩ := listMonoFreeSeq_spec hheader (h.tail p)
      (h.nodup (.prio p)) (hout p)
    have hother : ∀ k x, k ≠ Slot.prio p → x ∈ chain k → x ≠ n →
        (listMonoFreeSeq m.next (m.pmonoHeader p) (m.pmonoTail p) n).1 x = m.next x := by
      intro k x hk hx hxn
      exact hkeep x (fun hxp => hk (h.disjoint _ _ x hx hxp)) hxn
    have hput : msgQueuePut m msg p =
        { next := (listMonoFreeSeq m.next (m.pmonoHeader p) (m.pmonoTail p) n).1
          pmonoFree := m.next n
          pmonoHeader := update m.pmonoHeader p
            (listMonoFreeSeq m.next (m.pmonoHeader p) (m.pmonoTail p) n).2.1
          pmonoTail := update m.pmonoTail p
            (listMonoFreeSeq m.next (m.pmonoHeader p) (m.pmonoTail p) n).2.2
          uiMap := if m.pmonoHeader p = none then m.uiMap ||| (1#32 <<< p) else m.uiMap
          stMsgLen := update m.stMsgLen n msg.length
          buffer := update m.buffer n (RingBuffer.put (m.buffer n) 0 msg) } := by
      simp [msgQueuePut, listMonoAllocate, hfree]
    have hp32 : p < 32 := by
      unfold msgQPrio at hp
      omega
    have hbody : ∀ x, (msgQueuePut m msg p).body x = if x = n then msg else m.body x := by
      intro x
      rw [hput]
      by_cases hx : x = n
      · simp [hx, MsgQueue.body, slice_put]
      · simp [hx, MsgQueue.body]
    have hkeepBody : ∀ k, (chain (.prio k)).map (msgQueuePut m msg p).body =
        (chain (.prio k)).map m.body := by
      intro k
      apply List.map_congr_left
      intro x hx
      rw [hbody, if_neg (ne_of_mem_of_not_mem hx (hout k))]
    refine ⟨update (update chain .free pool) (.prio p) (chain (.prio p) ++ [n]),
      ?_⟩
    have hchain : ∀ k, update (update chain .free pool) (.prio p)
        (chain (.prio p) ++ [n]) (.prio k) =
          if k = p then chain (.prio p) ++ [n] else chain (.prio k) := by
      intro k
      by_cases hk : k = p
      · simp [hk]
      · simp [hk]
    -- only `n` has moved
    have hin : ∀ k x, x ∈ update (update chain .free pool) (.prio p)
        (chain (.prio p) ++ [n]) k → (x = n ∧ k = .prio p) ∨ (x ≠ n ∧ x ∈ chain k) := by
      intro k x hx
      cases k with
      | free =>
        have hx : x ∈ pool := by simpa using hx
        exact Or.inr ⟨ne_of_mem_of_not_mem hx hn, by simp [hpool, hx]⟩
      | prio k =>
        rw [hchain] at hx
        by_cases hk : k = p
        · rw [if_pos hk] at hx
          rcases List.mem_append.mp hx with hx | hx
          · exact Or.inr ⟨ne_of_mem_of_not_mem hx (hout p), by rwa [hk]⟩
          · exact Or.inl ⟨List.mem_singleton.mp hx, by rw [hk]⟩
        · rw [if_neg hk] at hx
          exact Or.inr ⟨ne_of_mem_of_not_mem hx (hout k), hx⟩
    constructor
    case mono =>
      intro k
      rw [hput]
      cases k with
      | free =>
        simp only [MsgQueue.head, ne_eq, reduceCtorEq, not_false_eq_true, update_of_ne,
          update_self]
        apply hmono.congr
        intro x hx
        exact hother .free x (by simp) (by simp [hpool, hx]) (ne_of_mem_of_not_mem hx hn)
      | prio k =>
        rw [hchain]
        by_cases hk : k = p
        · subst hk
          simpa [MsgQueue.head] using hlist
        · rw [if_neg hk]
          simp only [MsgQueue.head, update_of_ne hk]
          apply (h.mono (.prio k)).congr
          intro x hx
          exact hother (.prio k) x (by simpa using hk) hx (ne_of_mem_of_not_mem hx (hout k))
    case nodup =>
      intro k
      cases k with
      | free => simpa using hrest
      | prio k =>
        rw [hchain]
        split
        · simpa using (h.nodup (.prio p)).concat (hout p)
        · exact h.nodup (.prio k)
    case disjoint =>
      intro k k' x hx hx'
      rcases hin k x hx with ⟨rfl, rfl⟩ | ⟨hne, hx⟩
      · rcases hin k' x hx' with ⟨-, rfl⟩ | ⟨hne, -⟩
        · rfl
        · exact absurd rfl hne
      · rcases hin k' x hx' with ⟨rfl, -⟩ | ⟨-, hx'⟩
        · exact absurd rfl hne
        · exact h.disjoint k k' x hx hx'
    case tail =>
      intro k
      rw [hput, hchain]
      by_cases hk : k = p
      · subst hk
        simp [hlast]
      · simp [hk, h.tail k]
    case map =>
      intro k hk
      rw [hput, hchain]
      by_cases hempty : m.pmonoHeader p = none
      · simp only [if_pos hempty, BitVec.getLsbD_or, getLsbD_shift hp32, Bool.or_eq_true,
          h.map k hk, decide_eq_true_eq]
        by_cases hkp : k = p <;> simp [hkp]
      · simp only [if_neg hempty, h.map k hk]
        have hne := mt (h.header_none p).mpr hempty
        by_cases hkp : k = p <;> simp [hkp, hne]
    case high =>
      intro k hk
      have hkp : k ≠ p := by omega
      rw [hput]
      by_cases hempty : m.pmonoHeader p = none
      · simp [hempty, BitVec.getLsbD_or, getLsbD_shift hp32, h.high k hk, hkp]
      · simp [hempty, h.high k hk]
    case bodies =>
      intro k hk
      rw [hchain, level_append]
      by_cases hkp : k = p
      · subst hkp
        rw [if_pos rfl, if_pos rfl, List.map_append, List.map_append, hkeepBody, h.bodies k hk]
        simp [hbody]
      · have hne : urgency p ≠ urgency k := by
          rw [ne_eq, urgency_inj hp hk]
          exact Ne.symm hkp
        rw [if_neg hkp, if_neg hne, hkeepBody, h.bodies k hk]
    case prios =>
      intro x hx
      rcases List.mem_append.mp hx with hx | hx
      · exact h.prios x hx
      · rw [List.mem_singleton.mp hx]
        exact urgency_lt p
    case total =>
      rw [hpool, List.length_cons] at htotal
      simp only [List.length_append, List.length_singleton, ne_eq, reduceCtorEq,
        not_false_eq_true, update_of_ne, update_self]
      omega
    case bound =>
      intro k x hx
      rcases hin k x hx with ⟨rfl, -⟩ | ⟨-, hx⟩
      · exact h.bound .free x (by simp [hpool])
      · exact h.bound k x hx

theorem Holds.seek (h : Holds ulMaxCounter m chain q) (hne : q ≠ []) :
    ∃ p < msgQPrio, archFindLsb m.uiMap - 1 = p ∧ chain (.prio p) ≠ [] ∧
      ∀ x ∈ q, x.prio ≤ urgency p := by
  have hlevel : ∀ x ∈ q, chain (.prio (urgency x.prio)) ≠ [] := by
    intro x hx hnil
    rw [h.level_nil (urgency_lt _), urgency_urgency (h.prios x hx)] at hnil
    have hmem : x ∈ level q x.prio := List.mem_filter.mpr ⟨hx, by simp⟩
    rw [hnil] at hmem
    cases hmem
  have hmap : m.uiMap ≠ 0#32 := by
    obtain ⟨x, hx⟩ := List.exists_mem_of_ne_nil q hne
    have hlt := urgency_lt x.prio
    apply ne_zero_iff_getLsbD.mpr
    exact ⟨urgency x.prio, Nat.lt_trans hlt (by decide), (h.map _ hlt).mpr (hlevel x hx)⟩
  obtain ⟨p, -, hlsb, hbit, hlow⟩ := archFindLsb_spec hmap
  have hp : p < msgQPrio := by
    by_contra hp
    simp [h.high p (by omega)] at hbit
  refine ⟨p, hp, by omega, (h.map p hp).mp hbit, fun x hx => ?_⟩
  have hx' := h.prios x hx
  by_contra hgt
  have hlt : urgency x.prio < p := by
    unfold urgency msgQPrioLow msgQPrio at *
    omega
  have hbit := (h.map _ (urgency_lt _)).mpr (hlevel x hx)
  rw [hlow _ hlt] at hbit
  cases hbit

theorem take_slice (buf : ℕ → α) {k n : ℕ} (h : k ≤ n) :
    slice buf 0 k = (slice buf 0 n).take k := by
  unfold slice
  rw [← List.map_take, List.take_range, Nat.min_eq_left h]

theorem Holds.get (h : Holds ulMaxCounter m chain q) (hne : q ≠ []) (stMaxByteSize : ℕ) :
    ∃ p msg m' chain', best q = some ⟨p, msg⟩ ∧ msgQueueMsgLen m = msg.length ∧
      msgQueueGet m stMaxByteSize = some (⟨msg.take stMaxByteSize, msg⟩, m') ∧
      Holds ulMaxCounter m' chain' (pop q) := by
  obtain ⟨p, hp, hseek, hchain, hle⟩ := h.seek hne
  obtain ⟨n, rest, hrest⟩ := List.exists_cons_of_ne_nil hchain
  have hheader : IsMono m.next (m.pmonoHeader p) (n :: rest) := by
    have hmono := h.mono (.prio p)
    rw [hrest] at hmono
    exact hmono
  have hnodup := h.nodup (.prio p)
  have htail := h.tail p
  rw [hrest] at hnodup htail
  obtain ⟨hn, hnodup'⟩ := List.nodup_cons.mp hnodup
  obtain ⟨halloc, hmono⟩ := listMonoAllocateSeq_spec hheader htail hnodup
  have hmine : n ∈ chain (.prio p) := by simp [hrest]
  have hout : ∀ k, k ≠ Slot.prio p → n ∉ chain k := fun k hk hin =>
    hk (h.disjoint _ _ n hin hmine)
  have hk : level q (urgency p) ≠ [] := mt (h.level_nil hp).mpr hchain
  have hbodies := h.bodies p hp
  obtain ⟨x, tail, hlevel⟩ := List.exists_cons_of_ne_nil hk
  rw [hrest, hlevel, List.map_cons, List.map_cons, List.cons.injEq] at hbodies
  have hxprio : x.prio = urgency p := by
    have hmem : x ∈ level q (urgency p) := by simp [hlevel]
    simpa using (List.mem_filter.mp hmem).2
  have hbest : best q = some ⟨urgency p, m.body n⟩ := by
    rw [best_eq hle hk, hlevel, List.head?_cons, hbodies.1, ← hxprio]
  have hlen : (m.body n).length = m.stMsgLen n := by simp [MsgQueue.body]
  have hcut : slice (m.buffer n) 0
      (if stMaxByteSize < m.stMsgLen n then stMaxByteSize else m.stMsgLen n) =
        (m.body n).take stMaxByteSize := by
    unfold MsgQueue.body
    split
    case isTrue hlt => exact take_slice _ (Nat.le_of_lt hlt)
    case isFalse hge => rw [List.take_of_length_le (by simpa using Nat.le_of_not_lt hge)]
  have hp32 : p < 32 := Nat.lt_trans hp (by decide)
  refine ⟨urgency p, m.body n,
    { m with
      next := update m.next n m.pmonoFree
      pmonoFree := some n
      pmonoHeader := update m.pmonoHeader p rest.head?
      pmonoTail := update m.pmonoTail p rest.getLast?
      uiMap := if rest.head? = none then m.uiMap &&& ~~~(1#32 <<< p) else m.uiMap },
    update (update chain (.prio p) rest) .free (n :: chain .free), hbest, ?_, ?_,
    ?_⟩
  · simp [msgQueueMsgLen, hseek, hheader.1, hlen]
  · simp only [msgQueueGet, hseek, halloc, listMonoFree, hcut]
  have hslot : ∀ k, update (update chain (.prio p) rest) .free
      (n :: chain .free) (.prio k) = if k = p then rest else chain (.prio k) := by
    intro k
    by_cases hkp : k = p
    · simp [hkp]
    · simp [hkp]
  have htotal := h.total
  have hpop := length_pop hbest
  -- only `n` has moved
  have hin : ∀ k y, y ∈ update (update chain (.prio p) rest) .free
      (n :: chain .free) k → (y = n ∧ k = .free) ∨ (y ≠ n ∧ y ∈ chain k) := by
    intro k y hy
    cases k with
    | free =>
      simp only [update_self] at hy
      rcases List.mem_cons.mp hy with rfl | hy
      · exact Or.inl ⟨rfl, rfl⟩
      · exact Or.inr ⟨ne_of_mem_of_not_mem hy (hout .free (by simp)), hy⟩
    | prio k =>
      rw [hslot] at hy
      by_cases hkp : k = p
      · rw [if_pos hkp] at hy
        exact Or.inr ⟨ne_of_mem_of_not_mem hy hn, by simp [hkp, hrest, hy]⟩
      · rw [if_neg hkp] at hy
        exact Or.inr ⟨ne_of_mem_of_not_mem hy (hout (.prio k) (by simpa using hkp)), hy⟩
  constructor
  case mono =>
    intro k
    cases k with
    | free =>
      refine ⟨rfl, ?_⟩
      simp only [update_self]
      apply (h.mono .free).congr
      intro y hy
      have hyn : y ≠ n := ne_of_mem_of_not_mem hy (hout .free (by simp))
      simp [hyn]
    | prio k =>
      rw [hslot]
      by_cases hkp : k = p
      · subst hkp
        rw [if_pos rfl]
        simp only [MsgQueue.head, update_self]
        apply hmono.congr
        intro y hy
        have hyn : y ≠ n := ne_of_mem_of_not_mem hy hn
        simp [hyn]
      · rw [if_neg hkp]
        simp only [MsgQueue.head, update_of_ne hkp]
        apply (h.mono (.prio k)).congr
        intro y hy
        have hyn : y ≠ n := ne_of_mem_of_not_mem hy (hout (.prio k) (by simpa using hkp))
        simp [hyn]
  case nodup =>
    intro k
    cases k with
    | free =>
      simp only [update_self]
      exact List.nodup_cons.mpr ⟨hout .free (by simp), h.nodup .free⟩
    | prio k =>
      rw [hslot]
      split
      · exact hnodup'
      · exact h.nodup (.prio k)
  case disjoint =>
    intro k k' y hy hy'
    rcases hin k y hy with ⟨rfl, rfl⟩ | ⟨hyn, hy⟩
    · rcases hin k' y hy' with ⟨-, rfl⟩ | ⟨hyn, -⟩
      · rfl
      · exact absurd rfl hyn
    · rcases hin k' y hy' with ⟨rfl, -⟩ | ⟨-, hy'⟩
      · exact absurd rfl hyn
      · exact h.disjoint k k' y hy hy'
  case tail =>
    intro k
    rw [hslot]
    by_cases hkp : k = p
    · simp [hkp]
    · simp [hkp, h.tail k]
  case map =>
    intro k hk
    rw [hslot]
    by_cases hempty : rest = []
    · have hk32 : k < 32 := Nat.lt_trans hk (by decide)
      have hbit := h.map k hk
      rw [BitVec.getLsbD_eq_getElem hk32] at hbit
      simp only [hempty, List.head?_nil, if_true, BitVec.getLsbD_and, BitVec.getLsbD_not,
        getLsbD_shift hp32]
      by_cases hkp : k = p
      · simp [hkp]
      · simp [hkp, hk32, hbit]
    · simp only [List.head?_eq_none_iff, if_neg hempty, h.map k hk]
      by_cases hkp : k = p
      · simp [hkp, hempty, hrest]
      · simp [hkp]
  case high =>
    intro k hk
    by_cases hempty : rest = []
    · simp [hempty, h.high k hk]
    · simp [hempty, h.high k hk]
  case bodies =>
    intro k hk
    rw [hslot, level_pop hle ‹_›]
    by_cases hkp : k = p
    · subst hkp
      simp only [if_true, hlevel, List.tail_cons]
      exact hbodies.2
    · have hne' : urgency k ≠ urgency p := by rwa [ne_eq, urgency_inj hk hp]
      simp only [if_neg hkp, if_neg hne']
      exact h.bodies k hk
  case prios => exact fun y hy => h.prios y (List.mem_of_mem_eraseP hy)
  case total =>
    simp only [update_self, List.length_cons]
    omega
  case bound =>
    intro k y hy
    rcases hin k y hy with ⟨rfl, -⟩ | ⟨-, hy⟩
    · exact h.bound (.prio p) y hmine
    · exact h.bound k y hy

theorem clearLoop_spec {m : MsgQueue α} (left i : ℕ)
    (h : IsMono m.next m.pmonoFree (List.range i).reverse) :
    IsMono (clearLoop m left i).next (clearLoop m left i).pmonoFree
        (List.range (i + left)).reverse ∧
      (clearLoop m left i).pmonoHeader = m.pmonoHeader ∧
      (clearLoop m left i).pmonoTail = m.pmonoTail ∧ (clearLoop m left i).uiMap = m.uiMap := by
  induction left generalizing m i with
  | zero => exact ⟨h, rfl, rfl, rfl⟩
  | succ left ih =>
    have hfresh : i ∉ (List.range i).reverse := by simp
    have hstep := listMonoFree_spec h hfresh
    rw [show i :: (List.range i).reverse = (List.range (i + 1)).reverse by
      rw [List.range_succ, List.reverse_append]; rfl] at hstep
    obtain ⟨hmono, hheader, htail, hmap⟩ := ih (m := { m with
      next := (listMonoFree m.next m.pmonoFree i).1
      pmonoFree := (listMonoFree m.next m.pmonoFree i).2 }) (i + 1) hstep
    rw [show i + 1 + left = i + (left + 1) by omega] at hmono
    exact ⟨hmono, hheader, htail, hmap⟩

theorem holds_clear (m : MsgQueue α) (ulMaxCounter : ℕ) :
    ∃ chain, Holds ulMaxCounter (msgQueueClear m ulMaxCounter) chain [] := by
  have hnil : IsMono m.next none (List.range 0).reverse := rfl
  obtain ⟨hmono, hheader, htail, hmap⟩ := clearLoop_spec (m := { m with
    pmonoFree := none
    uiMap := 0
    pmonoHeader := fun _ => none
    pmonoTail := fun _ => none }) ulMaxCounter 0 hnil
  rw [Nat.zero_add] at hmono
  refine ⟨fun k => match k with | .free => (List.range ulMaxCounter).reverse | .prio _ => [], ?_⟩
  constructor
  case mono =>
    intro k
    cases k with
    | free => exact hmono
    | prio p => exact congrFun hheader p
  case nodup =>
    intro k
    cases k with
    | free => exact List.nodup_reverse.mpr List.nodup_range
    | prio p => exact List.nodup_nil
  case disjoint =>
    intro k k' x hx hx'
    cases k with
    | prio p => cases hx
    | free =>
      cases k' with
      | prio p => cases hx'
      | free => rfl
  case tail => exact fun p => congrFun htail p
  case map =>
    intro p _
    unfold msgQueueClear
    rw [hmap]
    simp
  case high =>
    intro p _
    unfold msgQueueClear
    rw [hmap]
    simp
  case bodies => exact fun p _ => rfl
  case prios => exact fun x hx => nomatch hx
  case total => simp
  case bound =>
    intro k x hx
    cases k with
    | free => simpa using hx
    | prio p => cases hx

end SylixOS.MsgQueueLib
