import Mathlib.Data.List.Perm.Basic
import SylixOS.StepRuns

/-! A bounded priority queue: messages in the order of their arrival, taken out
with the highest priority first and the oldest first among equals. -/

namespace SylixOS.PriorityQueue
open StepRuns

structure Msg (β : Type*) where
  prio : ℕ
  body : β

variable {β : Type*}

def IsTop (q : List (Msg β)) (m : Msg β) : Bool := q.all fun m' => m'.prio ≤ m.prio

def best (q : List (Msg β)) : Option (Msg β) := q.find? (IsTop q)

def pop (q : List (Msg β)) : List (Msg β) := q.eraseP (IsTop q)

inductive Event (β : Type*) where
  | sent (m : Msg β)
  | received (m : Msg β)
  /-- a message was refused and nothing changed -/
  | refused
  | silent

def Step (cap : ℕ) (q : List (Msg β)) : Event β → List (Msg β) → Prop
  | .sent m, q' => q.length < cap ∧ q' = q ++ [m]
  | .received m, q' => best q = some m ∧ q' = pop q
  | .refused, q' => q' = q
  | .silent, q' => q' = q

def Event.sent? : Event β → Option (Msg β)
  | .sent m => some m
  | _ => none

def Event.received? : Event β → Option (Msg β)
  | .received m => some m
  | _ => none

theorem perm_pop {q : List (Msg β)} {m : Msg β} (h : best q = some m) : q.Perm (m :: pop q) := by
  obtain ⟨hm, a, b, rfl, ha⟩ := List.find?_eq_some_iff_append.mp h
  have hno : ∀ x ∈ a, ¬ IsTop (a ++ m :: b) x = true := by
    intro x hx
    simpa using ha x hx
  have hpop : pop (a ++ m :: b) = a ++ b := by
    unfold pop
    rw [List.eraseP_append_right _ hno, List.eraseP_cons_of_pos hm]
  rw [hpop]
  exact List.perm_middle

def level (q : List (Msg β)) (k : ℕ) : List (Msg β) := q.filter fun m => m.prio = k

theorem level_append (q : List (Msg β)) (m : Msg β) (k : ℕ) :
    level (q ++ [m]) k = if m.prio = k then level q k ++ [m] else level q k := by
  unfold level
  rw [List.filter_append]
  by_cases hm : m.prio = k
  · simp [hm]
  · simp [hm]

theorem isTop_iff {q : List (Msg β)} {k : ℕ} (hle : ∀ m ∈ q, m.prio ≤ k) (hk : level q k ≠ [])
    {m : Msg β} (hm : m ∈ q) : IsTop q m = true ↔ m.prio = k := by
  obtain ⟨t, ht⟩ := List.exists_mem_of_ne_nil _ hk
  obtain ⟨htq, htk⟩ := List.mem_filter.mp ht
  simp only [decide_eq_true_eq] at htk
  simp only [IsTop, List.all_eq_true, decide_eq_true_eq]
  constructor
  · intro htop
    have h1 := htop t htq
    have h2 := hle m hm
    omega
  · intro hmk x hx
    have := hle x hx
    omega

theorem best_eq {q : List (Msg β)} {k : ℕ} (hle : ∀ m ∈ q, m.prio ≤ k) (hk : level q k ≠ []) :
    best q = (level q k).head? := by
  unfold best level
  rw [← List.head?_filter]
  congr 1
  apply List.filter_congr
  intro m hm
  rw [Bool.eq_iff_iff, isTop_iff hle hk hm, decide_eq_true_eq]

theorem eraseP_congr {γ : Type*} {p p' : γ → Bool} {l : List γ} (h : ∀ a ∈ l, p a = p' a) :
    l.eraseP p = l.eraseP p' := by
  induction l with
  | nil => rfl
  | cons a l ih =>
    simp only [List.eraseP_cons]
    rw [h a List.mem_cons_self, ih fun b hb => h b (List.mem_cons_of_mem a hb)]

theorem pop_eq {q : List (Msg β)} {k : ℕ} (hle : ∀ m ∈ q, m.prio ≤ k) (hk : level q k ≠ []) :
    pop q = q.eraseP fun m => m.prio = k := by
  apply eraseP_congr
  intro m hm
  rw [Bool.eq_iff_iff, isTop_iff hle hk hm, decide_eq_true_eq]

theorem level_eraseP (q : List (Msg β)) (k j : ℕ) :
    level (q.eraseP fun m => m.prio = k) j = if j = k then (level q k).tail else level q j := by
  unfold level
  induction q with
  | nil => simp
  | cons m q ih =>
    by_cases hm : m.prio = k
    · rw [List.eraseP_cons_of_pos (by simpa using hm)]
      by_cases hj : j = k
      · simp [hj, hm]
      · have hmj : m.prio ≠ j := fun h => hj (h.symm.trans hm)
        simp [hj, hmj]
    · rw [List.eraseP_cons_of_neg (by simpa using hm)]
      by_cases hj : j = k
      · subst hj
        simp only [List.filter_cons, hm, if_true] at ih ⊢
        simpa using ih
      · simp only [hj, if_false] at ih ⊢
        simp only [List.filter_cons, ih]

theorem level_pop {q : List (Msg β)} {k : ℕ} (hle : ∀ m ∈ q, m.prio ≤ k) (hk : level q k ≠ [])
    (j : ℕ) : level (pop q) j = if j = k then (level q k).tail else level q j := by
  rw [pop_eq hle hk, level_eraseP]

theorem length_pop {q : List (Msg β)} {m : Msg β} (h : best q = some m) :
    (pop q).length + 1 = q.length := by
  rw [(perm_pop h).length_eq, List.length_cons]

end SylixOS.PriorityQueue
