import SylixOS.ListLink
import Mathlib.Data.List.Sort
import Mathlib.Data.List.TakeWhile
import Mathlib.Data.Fin.VecNotation

/-! The priority wait queue of a kernel event (_EventQueue.c,
inlSearchEventQueue.h): eight rings of waiting threads, each for 32 priorities,
over the links `TCB_ringEvent`. A thread is put in front of the first thread of
its ring that is lower, so that a ring is the list into which the threads were
inserted in their order. -/

namespace SylixOS.EventQueue
open LinkedChain ListLink Function

variable {T : Type*}

def eventIndexQPriority (ucPriority : Fin 256) : Fin 8 :=
  ⟨ucPriority.val >>> 5, by rw [Nat.shiftRight_eq_div_pow]; omega⟩

structure WaitQ (T : Type*) where
  ringEvent : Links T
  pringPrio : Fin 8 → Option T
  usNum : BitVec 16

/-- The loop of `_AddTCBToEventPriority`: the first thread behind the header that is lower, or the
header again. -/
def searchLower (prio : T → Fin 256) [DecidableEq T] (next : T → Option T) (ucPriority : Fin 256)
    (header : T) : ℕ → Option T → Option T
  | 0, _ => none
  | _, none => none
  | n + 1, some pringList =>
    if pringList = header then some header
    else if ucPriority < prio pringList then some pringList
    else searchLower prio next ucPriority header n (next pringList)

section Operations

variable [DecidableEq T] (prio : T → Fin 256) (q : WaitQ T)

def WaitQ.addAhead (ptcb : T) (i : Fin 8) : WaitQ T :=
  let r := listRingAddAhead q.ringEvent ptcb (q.pringPrio i)
  { ringEvent := r.1
    pringPrio := update q.pringPrio i r.2
    usNum := q.usNum + 1 }

def addTCBToEventPriority (ptcb : T) (i : Fin 8) : Option (WaitQ T) :=
  match q.pringPrio i with
  | none => some (q.addAhead ptcb i)
  | some pringListHeader =>
    if prio ptcb < prio pringListHeader then some (q.addAhead ptcb i)
    else
      (searchLower prio q.ringEvent.next (prio ptcb) pringListHeader q.usNum.toNat
          (q.ringEvent.next pringListHeader)).map fun pringList =>
        { q with
          ringEvent := (listRingAddLast q.ringEvent ptcb (some pringList)).1
          usNum := q.usNum + 1 }

def delTCBFromEventPriority (ptcb : T) (i : Fin 8) : WaitQ T :=
  let r := listRingDel q.ringEvent ptcb (q.pringPrio i)
  { ringEvent := r.1
    pringPrio := update q.pringPrio i r.2
    usNum := q.usNum - 1 }

omit [DecidableEq T] in
def eventDelQPriority : Option (Fin 8) :=
  (List.finRange 8).find? fun i => (q.pringPrio i).isSome

omit [DecidableEq T] in
def eventQGetTcbPriority (i : Fin 8) : Option T := q.pringPrio i

def eventReadyPriorityLowLevel : Option (T × WaitQ T) :=
  (eventDelQPriority q).bind fun i =>
    (eventQGetTcbPriority q i).map fun ptcb => (ptcb, delTCBFromEventPriority q ptcb i)

end Operations

section Rings

variable [DecidableEq T] {prio : T → Fin 256} {L : Links T} {t h : T} {l : List T}

def insertPriority (prio : T → Fin 256) (t : T) (l : List T) : List T :=
  l.orderedInsert (fun a b => prio a < prio b) t

omit [DecidableEq T] in
theorem insertPriority_eq (prio : T → Fin 256) (t : T) (l : List T) :
    insertPriority prio t l =
      l.takeWhile (fun x => !decide (prio t < prio x)) ++
        t :: l.dropWhile (fun x => !decide (prio t < prio x)) := by
  unfold insertPriority
  rw [List.orderedInsert_eq_take_drop]
  simp only [decide_not]

omit [DecidableEq T] in
theorem perm_insertPriority (prio : T → Fin 256) (t : T) (l : List T) :
    (insertPriority prio t l).Perm (t :: l) := List.perm_orderedInsert _ t l

theorem searchLower_spec (prio : T → Fin 256) {p : Option T} (ucPriority : Fin 256) (linked : Linked L p l (some h))
    (fresh : h ∉ l) {fuel : ℕ} (enough : l.length < fuel) :
    searchLower prio L.next ucPriority h fuel (l.head?.or (some h)) =
      some ((l.find? fun x => decide (ucPriority < prio x)).getD h) := by
  induction l generalizing p fuel with
  | nil =>
    cases fuel with
    | zero => simp at enough
    | succ n => simp [searchLower]
  | cons x rest ih =>
    cases fuel with
    | zero => simp at enough
    | succ n =>
      obtain ⟨-, hnext, hrest⟩ := linked
      have hxh : x ≠ h := fun e => fresh (e ▸ List.mem_cons_self)
      have hstep := ih hrest (fun hm => fresh (List.mem_cons_of_mem x hm))
        (Nat.lt_of_succ_lt_succ enough)
      simp only [List.head?_cons, Option.some_or, searchLower, if_neg hxh]
      by_cases hlow : ucPriority < prio x
      · rw [if_pos hlow, List.find?_cons_of_pos (by simpa using hlow)]
        rfl
      · rw [if_neg hlow, List.find?_cons_of_neg (by simpa using hlow), hnext]
        exact hstep

theorem isRing_addLast_inner {front back : List T} {x : T}
    (ring : IsRing L (some h) (h :: front ++ x :: back)) (fresh : t ∉ h :: front ++ x :: back) :
    IsRing (listRingAddLast L t (some x)).1 (some h) (h :: front ++ t :: x :: back) ∧
    ∀ y, y ∉ t :: (h :: front ++ x :: back) →
      (listRingAddLast L t (some x)).1.next y = L.next y ∧
      (listRingAddLast L t (some x)).1.prev y = L.prev y := by
  have turned : IsRing L (some x) (x :: back ++ (h :: front)) := by
    have hturn := IsRing.rotate ring
    simpa using hturn
  have hfresh : t ∉ x :: back ++ (h :: front) := by
    intro hm
    refine fresh ?_
    rw [List.mem_append] at hm ⊢
    exact hm.symm
  obtain ⟨added, frame⟩ := listRingAddLast_spec turned hfresh
  have hback : IsRing (listRingAddLast L t (some x)).1 (listRingAddLast L t (some x)).2
      ((x :: back) ++ (h :: front ++ [t])) := by
    simpa using added
  have hring := IsRing.rotate hback
  refine ⟨by simpa using hring, fun y hy => frame y ?_⟩
  intro hm
  refine hy ?_
  simp only [List.mem_append, List.mem_cons, List.not_mem_nil, or_false] at hm ⊢
  tauto

theorem addTCBToEventPriority_spec (prio : T → Fin 256) {q : WaitQ T} {ring : Fin 8 → List T}
    (family : RingFamily q.ringEvent q.pringPrio ring) (fresh : ∀ i, t ∉ ring i) (i : Fin 8)
    (enough : (ring i).length ≤ q.usNum.toNat) :
    ∃ q', addTCBToEventPriority prio q t i = some q' ∧ q'.usNum = q.usNum + 1 ∧
      RingFamily q'.ringEvent q'.pringPrio
        (update ring i (insertPriority prio t (ring i))) := by
  have hring := family.isRing i
  have apart : ∀ {l' : List T}, l'.Perm (t :: ring i) → ∀ k, k ≠ i → ∀ x ∈ ring k, x ∉ l' := by
    intro l' hperm k hk x hx hm
    rw [hperm.mem_iff, List.mem_cons] at hm
    cases hm with
    | inl hxt => exact fresh k (hxt ▸ hx)
    | inr hxi => exact hk (family.disjoint hx hxi)
  -- both ways put a node in front of the header
  have ahead : ∀ l', l' = t :: ring i → ∃ q', some (q.addAhead t i) = some q' ∧
      q'.usNum = q.usNum + 1 ∧
      RingFamily q'.ringEvent q'.pringPrio (update ring i l') := by
    rintro l' rfl
    obtain ⟨added, frame⟩ := listRingAddAhead_spec hring (fresh i)
    refine ⟨_, rfl, rfl, family.update added (fun k hk x hx => frame x ?_)
      (apart (List.Perm.refl _))⟩
    exact apart (List.Perm.refl _) k hk x hx
  unfold addTCBToEventPriority
  cases hl : ring i with
  | nil =>
    have hheader : q.pringPrio i = none := by rw [hring.header_eq, hl, List.head?_nil]
    rw [hheader]
    simp only
    exact ahead _ (by rw [hl]; rfl)
  | cons h rest =>
    have hheader : q.pringPrio i = some h := by rw [hring.header_eq, hl, List.head?_cons]
    rw [hheader]
    simp only
    split
    next hlow =>
      refine ahead _ ?_
      rw [hl]
      simp [insertPriority, hlow]
    next hlow =>
      rw [hl, hheader] at hring
      have hh : h ∉ rest := (List.nodup_cons.mp hring.nodup).1
      have hfresh : t ∉ h :: rest := hl ▸ fresh i
      have hnext : q.ringEvent.next h = rest.head?.or (some h) := by
        have hstep := hring.linked.2.1
        simpa using hstep
      have hlength : rest.length < q.usNum.toNat := by
        rw [hl, List.length_cons] at enough
        exact enough
      have hlinked : Linked q.ringEvent (some h) rest (some h) := by
        have hrest := hring.linked.2.2
        simpa using hrest
      have hsearch := searchLower_spec prio (prio t) hlinked hh hlength
      rw [hnext, hsearch, Option.map_some]
      refine ⟨_, rfl, rfl, ?_⟩
      -- the header stays
      have hsame : q.pringPrio = update q.pringPrio i (some h) := by
        rw [← hheader, update_eq_self]
      have hinsert : insertPriority prio t (h :: rest) = h :: insertPriority prio t rest := by
        simp [insertPriority, hlow]
      simp only
      rw [hsame, hinsert]
      cases hfind : rest.find? fun x => decide (prio t < prio x) with
      | none =>
        have hnone : ∀ x ∈ rest, ¬prio t < prio x := by
          simpa using List.find?_eq_none.mp hfind
        have hlast : insertPriority prio t rest = rest ++ [t] := by
          have htake : rest.takeWhile (fun x => !decide (prio t < prio x)) = rest := by
            rw [List.takeWhile_eq_self_iff]
            simpa using hnone
          have hdrop : rest.dropWhile (fun x => !decide (prio t < prio x)) = [] := by
            rw [List.dropWhile_eq_nil_iff]
            simpa using hnone
          rw [insertPriority_eq, htake, hdrop]
        obtain ⟨added, frame⟩ := listRingAddLast_spec hring hfresh
        have hperm : (h :: (rest ++ [t])).Perm (t :: ring i) := by
          rw [hl]
          exact List.perm_append_singleton t (h :: rest)
        rw [hlast]
        refine family.update added (fun k hk x hx => frame x ?_) (apart hperm)
        exact apart hperm k hk x hx
      | some x =>
        obtain ⟨hx, front, back, hsplit, hfront⟩ := List.find?_eq_some_iff_append.mp hfind
        have hx' : prio t < prio x := by simpa using hx
        have hfront' : ∀ y ∈ front, ¬prio t < prio y := by simpa using hfront
        have hplace : insertPriority prio t rest = front ++ t :: x :: back := by
          have htake : rest.takeWhile (fun x => !decide (prio t < prio x)) = front := by
            rw [hsplit, List.takeWhile_append_of_pos (by simpa using hfront')]
            simp [hx']
          have hdrop : rest.dropWhile (fun x => !decide (prio t < prio x)) = x :: back := by
            rw [hsplit, List.dropWhile_append_of_pos (by simpa using hfront')]
            simp [hx']
          rw [insertPriority_eq, htake, hdrop]
        rw [hsplit] at hring hfresh
        obtain ⟨added, frame⟩ := isRing_addLast_inner hring hfresh
        have hperm : (h :: (front ++ t :: x :: back)).Perm (t :: ring i) := by
          rw [hl, hsplit, ← hplace]
          refine ((perm_insertPriority prio t rest).cons h).trans ?_
          rw [hsplit]
          exact List.Perm.swap t h _
        rw [hplace]
        refine family.update added (fun k hk y hy => frame y ?_) (apart hperm)
        intro hm
        refine apart hperm k hk y hy (hperm.mem_iff.mpr ?_)
        rw [hl, hsplit]
        exact hm

theorem delTCBFromEventPriority_spec {q : WaitQ T} {ring : Fin 8 → List T}
    (family : RingFamily q.ringEvent q.pringPrio ring) {i : Fin 8} (mem : t ∈ ring i) :
    RingFamily (delTCBFromEventPriority q t i).ringEvent (delTCBFromEventPriority q t i).pringPrio
      (update ring i ((ring i).erase t)) := by
  obtain ⟨cut, -, -, frame⟩ := listRingDel_spec (family.isRing i) mem
  apply family.update cut
  · exact fun k hk x hx => frame x fun hin => hk (family.disjoint hx hin)
  · exact fun k hk x hx hin => hk (family.disjoint hx (List.mem_of_mem_erase hin))

omit [DecidableEq T] in
theorem eventDelQPriority_spec {q : WaitQ T} {ring : Fin 8 → List T}
    (family : RingFamily q.ringEvent q.pringPrio ring) {i : Fin 8}
    (found : eventDelQPriority q = some i) :
    (∃ h rest, ring i = h :: rest ∧ q.pringPrio i = some h) ∧ ∀ j < i, ring j = [] := by
  have hheader : ∀ j, (q.pringPrio j).isSome = true ↔ ring j ≠ [] := by
    intro j
    rw [(family.isRing j).header_eq]
    cases ring j <;> simp
  unfold eventDelQPriority at found
  obtain ⟨hi, front, back, hsplit, hfront⟩ := List.find?_eq_some_iff_append.mp found
  constructor
  · obtain ⟨h, rest, hl⟩ := List.exists_cons_of_ne_nil ((hheader i).mp hi)
    exact ⟨h, rest, hl, by rw [(family.isRing i).header_eq, hl, List.head?_cons]⟩
  · intro j hj
    have hsorted : (List.finRange 8).Pairwise (· < ·) := List.pairwise_lt_finRange 8
    have hmem : j ∈ List.finRange 8 := List.mem_finRange j
    rw [hsplit] at hsorted hmem
    rw [List.pairwise_append] at hsorted
    rw [List.mem_append, List.mem_cons] at hmem
    have hin : j ∈ front := by
      rcases hmem with hm | hm | hm
      · exact hm
      · exact absurd hm (ne_of_lt hj)
      · have hlt := (List.pairwise_cons.mp hsorted.2.1).1 j hm
        exact absurd hlt (not_lt.mpr (le_of_lt hj))
    by_contra hne
    have hsome := (hheader j).mpr hne
    have hnot := hfront j hin
    rw [hsome] at hnot
    cases hnot

omit [DecidableEq T] in
theorem eventDelQPriority_isSome {q : WaitQ T} {ring : Fin 8 → List T}
    (family : RingFamily q.ringEvent q.pringPrio ring) {j : Fin 8} (filled : ring j ≠ []) :
    ∃ i, eventDelQPriority q = some i := by
  rw [← Option.isSome_iff_exists, eventDelQPriority, List.find?_isSome]
  refine ⟨j, List.mem_finRange j, ?_⟩
  rw [(family.isRing j).header_eq]
  cases hl : ring j with
  | nil => exact absurd hl filled
  | cons h rest => rfl

end Rings

end SylixOS.EventQueue
