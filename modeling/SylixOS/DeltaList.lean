import Mathlib.Data.List.Sort
import Mathlib.Algebra.GroupWithZero.Nat
import Mathlib.Data.List.Nodup

/-! Delta lists. A list of things that fall due is kept as the differences of
successive due times, the first one relative to a base. Sums are taken modulo
a word size; a list that spans less than a word never wraps. -/

namespace SylixOS.DeltaList

variable {ι α : Type*}

/-- An entry that falls due in `n`, put behind those that fall due no later. -/
def insert (x : ι) : Nat → List (ι × Nat) → List (ι × Nat)
  | n, [] => [(x, n)]
  | n, (y, c) :: rest =>
    if c ≤ n then (y, c) :: insert x (n - c) rest else (x, n) :: (y, c - n) :: rest

variable (word : Nat)

def postpone (c : Nat) : List (ι × Nat) → List (ι × Nat)
  | [] => []
  | (y, d) :: rest => (y, (d + c) % word) :: rest

def remove [DecidableEq ι] (x : ι) : List (ι × Nat) → List (ι × Nat)
  | [] => []
  | (y, c) :: rest => if y = x then postpone word c rest else (y, c) :: remove x rest

def sumTo [DecidableEq ι] (x : ι) : Nat → List (ι × Nat) → Nat
  | _, [] => 0
  | sum, (y, c) :: rest =>
    if y = x then (sum + c) % word else sumTo x ((sum + c) % word) rest

variable (key : α → ι) (due : α → Nat)

def deltas : Nat → List α → List (ι × Nat)
  | _, [] => []
  | base, a :: l => (key a, due a - base) :: deltas (due a) l

def Ordered : Nat → List α → Prop
  | _, [] => True
  | base, a :: l => base ≤ due a ∧ Ordered (due a) l

variable {word key due} {base : Nat} {a b : α} {l : List α} {x : ι}

@[simp] theorem deltas_nil : deltas key due base [] = [] := rfl

@[simp] theorem deltas_cons :
    deltas key due base (a :: l) = (key a, due a - base) :: deltas key due (due a) l := rfl

@[simp] theorem ordered_cons : Ordered due base (a :: l) ↔ base ≤ due a ∧ Ordered due (due a) l :=
  Iff.rfl

theorem deltas_keys : (deltas key due base l).map Prod.fst = l.map key := by
  induction l generalizing base with
  | nil => rfl
  | cons a l ih => simp [ih]

theorem deltas_head : (deltas key due base l).head?.map Prod.fst = l.head?.map key := by
  cases l <;> rfl

theorem Ordered.le (h : Ordered due base l) (ha : a ∈ l) : base ≤ due a := by
  induction l generalizing base with
  | nil => simp at ha
  | cons b l ih =>
    simp only [ordered_cons] at h
    rcases List.mem_cons.mp ha with rfl | ha
    · exact h.1
    · have := ih h.2 ha
      omega

theorem ordered_iff :
    Ordered due base l ↔ (∀ a ∈ l, base ≤ due a) ∧ l.Pairwise fun a b => due a ≤ due b := by
  induction l generalizing base with
  | nil => simp [Ordered]
  | cons a l ih =>
    simp only [ordered_cons, ih, List.mem_cons, forall_eq_or_imp, List.pairwise_cons]
    constructor
    · intro h
      refine ⟨⟨h.1, fun b hb => ?_⟩, h.2⟩
      exact Nat.le_trans h.1 (h.2.1 b hb)
    · intro h
      exact ⟨h.1.1, h.2⟩

theorem deltas_base {base' : Nat} (h : Ordered due base l) (hbase : base' ≤ base)
    (hspan : ∀ a ∈ l, due a - base' < word) :
    deltas key due base' l = postpone word (base - base') (deltas key due base l) := by
  cases l with
  | nil => rfl
  | cons a l =>
    simp only [ordered_cons] at h
    have hfirst := hspan a (by simp)
    have hsum : due a - base + (base - base') = due a - base' := by omega
    simp [postpone, hsum, Nat.mod_eq_of_lt hfirst]

theorem insert_deltas (h : Ordered due base l) (ha : base ≤ due a) :
    insert (key a) (due a - base) (deltas key due base l) =
      deltas key due base (l.orderedInsert (fun a b => due a < due b) a) := by
  induction l generalizing base with
  | nil => rfl
  | cons b l ih =>
    simp only [ordered_cons] at h
    simp only [deltas_cons, insert, List.orderedInsert]
    by_cases hlt : due a < due b
    · have hnot : ¬ due b - base ≤ due a - base := by omega
      have hrest : due b - base - (due a - base) = due b - due a := by omega
      simp [hlt, hnot, hrest]
    · have hle : due b - base ≤ due a - base := by omega
      have hrest : due a - base - (due b - base) = due a - due b := by omega
      simp [hlt, hle, hrest, ih h.2 (by omega)]

theorem remove_deltas [DecidableEq ι] (h : Ordered due base l) (hkeys : (l.map key).Nodup)
    (hspan : ∀ a ∈ l, due a - base < word) :
    remove word x (deltas key due base l) =
      deltas key due base (l.filter fun a => key a ≠ x) := by
  induction l generalizing base with
  | nil => rfl
  | cons b l ih =>
    simp only [ordered_cons] at h
    simp only [List.map_cons, List.nodup_cons] at hkeys
    have hrest : ∀ a ∈ l, due a - due b < word := by
      intro a ha
      have := hspan a (by simp [ha])
      omega
    by_cases hx : key b = x
    · have hkept : l.filter (fun a => key a ≠ x) = l := by
        apply List.filter_eq_self.mpr
        intro a ha
        have hne : key a ≠ key b := fun he => hkeys.1 (List.mem_map.mpr ⟨a, ha, he⟩)
        simpa [← hx] using hne
      simp only [deltas_cons, remove, hx, if_true]
      rw [List.filter_cons_of_neg (by simp [hx]), hkept]
      exact (deltas_base h.2 h.1 fun a ha => hspan a (by simp [ha])).symm
    · rw [List.filter_cons_of_pos (by simpa using hx)]
      simp [remove, hx, ih h.2 hkeys.2 hrest]

theorem sumTo_absent [DecidableEq ι] {d : List (ι × Nat)} {sum : Nat}
    (h : x ∉ d.map Prod.fst) : sumTo word x sum d = 0 := by
  induction d generalizing sum with
  | nil => rfl
  | cons e d ih =>
    simp only [List.map_cons, List.mem_cons, not_or] at h
    simp [sumTo, Ne.symm h.1, ih h.2]

theorem sumTo_deltas [DecidableEq ι] {sum : Nat} (h : Ordered due base l)
    (hkeys : (l.map key).Nodup) (hspan : ∀ a ∈ l, sum + (due a - base) < word) (ha : a ∈ l) :
    sumTo word (key a) sum (deltas key due base l) = sum + (due a - base) := by
  induction l generalizing base sum with
  | nil => simp at ha
  | cons b l ih =>
    simp only [ordered_cons] at h
    simp only [List.map_cons, List.nodup_cons] at hkeys
    have hfirst := Nat.mod_eq_of_lt (hspan b (by simp))
    rcases List.mem_cons.mp ha with rfl | hmem
    · simp [sumTo, hfirst]
    · have hne : key b ≠ key a := fun he => hkeys.1 (List.mem_map.mpr ⟨a, hmem, he.symm⟩)
      have hlater : due b ≤ due a := h.2.le hmem
      have hrest : ∀ c ∈ l, sum + (due b - base) + (due c - due b) < word := by
        intro c hc
        have := hspan c (by simp [hc])
        have := h.2.le hc
        omega
      simp only [deltas_cons, sumTo, hne, if_false, hfirst]
      rw [ih h.2 hkeys.2 hrest hmem]
      omega

section Distance
variable {y : ι} {n : Nat} {d e : List (ι × Nat)}

theorem insert_keys : ((insert x n d).map Prod.fst).Perm (x :: d.map Prod.fst) := by
  induction d generalizing n with
  | nil => exact List.Perm.refl _
  | cons p d ih =>
    simp only [insert]
    split
    · exact ((ih (n := n - p.2)).cons p.1).trans (List.Perm.swap x p.1 _)
    · exact List.Perm.refl _

theorem mem_insert_keys : y ∈ (insert x n d).map Prod.fst ↔ y = x ∨ y ∈ d.map Prod.fst := by
  rw [insert_keys.mem_iff, List.mem_cons]

theorem insert_sum : ((insert x n d).map Prod.snd).sum = max n (d.map Prod.snd).sum := by
  induction d generalizing n with
  | nil => simp [insert]
  | cons p d ih =>
    simp only [insert]
    split
    · simp only [List.map_cons, List.sum_cons, ih]
      omega
    · simp only [List.map_cons, List.sum_cons]
      omega

theorem insert_append :
    insert x n (d ++ e) = if n < (d.map Prod.snd).sum then insert x n d ++ e
      else d ++ insert x (n - (d.map Prod.snd).sum) e := by
  induction d generalizing n with
  | nil => simp
  | cons p d ih =>
    simp only [List.cons_append, insert, List.map_cons, List.sum_cons]
    by_cases hle : p.2 ≤ n
    · rw [if_pos hle, if_pos hle, ih]
      by_cases hlt : n < p.2 + (d.map Prod.snd).sum
      · rw [if_pos hlt, if_pos (by omega)]
        rfl
      · rw [if_neg hlt, if_neg (by omega), Nat.sub_add_eq]
    · rw [if_neg hle, if_neg hle, if_pos (by omega)]
      rfl

variable [DecidableEq ι]

def distance (x : ι) : List (ι × Nat) → Nat
  | [] => 0
  | (y, c) :: rest => if y = x then c else c + distance x rest

theorem distance_cons_self (x : ι) (c : Nat) (d : List (ι × Nat)) :
    distance x ((x, c) :: d) = c := by
  simp [distance]

theorem distance_cons_of_ne (h : y ≠ x) (c : Nat) (d : List (ι × Nat)) :
    distance x ((y, c) :: d) = c + distance x d := by
  simp [distance, h]

theorem distance_append_left (h : x ∈ d.map Prod.fst) : distance x (d ++ e) = distance x d := by
  induction d with
  | nil => simp at h
  | cons p d ih =>
    by_cases hp : p.1 = x
    · simp [distance, hp]
    · have hmem : x ∈ d.map Prod.fst := by
        simpa [Ne.symm hp] using h
      simp [distance, hp, ih hmem]

theorem distance_append_right (h : x ∉ d.map Prod.fst) :
    distance x (d ++ e) = (d.map Prod.snd).sum + distance x e := by
  induction d with
  | nil => simp
  | cons p d ih =>
    simp only [List.map_cons, List.mem_cons, not_or] at h
    simp [distance, Ne.symm h.1, ih h.2, Nat.add_assoc]

theorem distance_insert_self (h : x ∉ d.map Prod.fst) : distance x (insert x n d) = n := by
  induction d generalizing n with
  | nil => simp [insert, distance]
  | cons p d ih =>
    simp only [List.map_cons, List.mem_cons, not_or] at h
    simp only [insert]
    split
    next hle =>
      rw [distance_cons_of_ne (Ne.symm h.1), ih h.2]
      omega
    next => exact distance_cons_self x n _

theorem distance_insert_of_ne (hy : y ∈ d.map Prod.fst) (hne : y ≠ x) :
    distance y (insert x n d) = distance y d := by
  induction d generalizing n with
  | nil => simp at hy
  | cons p d ih =>
    obtain ⟨z, c⟩ := p
    simp only [insert]
    split
    next =>
      by_cases hz : z = y
      · simp [distance, hz]
      · have hmem : y ∈ d.map Prod.fst := by simpa [Ne.symm hz] using hy
        rw [distance_cons_of_ne hz, distance_cons_of_ne hz, ih hmem]
    next hlt =>
      rw [distance_cons_of_ne (Ne.symm hne)]
      by_cases hz : z = y
      · simp only [hz, distance_cons_self]
        omega
      · rw [distance_cons_of_ne hz, distance_cons_of_ne hz]
        omega

omit [DecidableEq ι] in
@[simp] theorem postpone_keys (c : Nat) : (postpone word c d).map Prod.fst = d.map Prod.fst := by
  cases d <;> rfl

theorem remove_keys : (remove word x d).map Prod.fst = (d.map Prod.fst).erase x := by
  induction d with
  | nil => rfl
  | cons p d ih =>
    simp only [remove, List.map_cons, List.erase_cons]
    by_cases hp : p.1 = x
    · simp [hp]
    · simp [hp, ih]

theorem mem_remove_keys (hkeys : (d.map Prod.fst).Nodup) :
    y ∈ (remove word x d).map Prod.fst ↔ y ≠ x ∧ y ∈ d.map Prod.fst := by
  rw [remove_keys, hkeys.mem_erase_iff]

omit [DecidableEq ι] in
theorem postpone_sum_le (c : Nat) :
    ((postpone word c d).map Prod.snd).sum ≤ c + (d.map Prod.snd).sum := by
  cases d with
  | nil => simp [postpone]
  | cons p d =>
    have hmod := Nat.mod_le (p.2 + c) word
    simp only [postpone, List.map_cons, List.sum_cons]
    omega

theorem remove_sum_le : ((remove word x d).map Prod.snd).sum ≤ (d.map Prod.snd).sum := by
  induction d with
  | nil => simp [remove]
  | cons p d ih =>
    have hpost : ((postpone word p.2 d).map Prod.snd).sum ≤ p.2 + (d.map Prod.snd).sum :=
      postpone_sum_le p.2
    simp only [remove]
    split
    · simpa using hpost
    · simpa using ih

theorem distance_remove_of_ne (hspan : (d.map Prod.snd).sum < word) (hy : y ∈ d.map Prod.fst)
    (hne : y ≠ x) : distance y (remove word x d) = distance y d := by
  induction d with
  | nil => simp at hy
  | cons p d ih =>
    obtain ⟨z, c⟩ := p
    simp only [List.map_cons, List.sum_cons] at hspan
    simp only [remove]
    split
    next hz =>
      subst hz
      have hmem : y ∈ d.map Prod.fst := by simpa [hne] using hy
      rw [distance_cons_of_ne (Ne.symm hne)]
      cases d with
      | nil => simp at hmem
      | cons q d =>
        simp only [List.map_cons, List.sum_cons] at hspan
        have hfit : (q.2 + c) % word = q.2 + c := Nat.mod_eq_of_lt (by omega)
        simp only [postpone, distance, hfit]
        split <;> omega
    next =>
      by_cases hz : z = y
      · simp [distance, hz]
      · have hmem : y ∈ d.map Prod.fst := by simpa [Ne.symm hz] using hy
        rw [distance_cons_of_ne hz, distance_cons_of_ne hz, ih (by omega) hmem]

theorem distance_eq_zero_iff (hkeys : (d.map Prod.fst).Nodup) :
    (∀ y ∈ d.map Prod.fst, distance y d = 0) ↔ ∀ p ∈ d, p.2 = 0 := by
  induction d with
  | nil => simp
  | cons p d ih =>
    obtain ⟨z, c⟩ := p
    simp only [List.map_cons, List.nodup_cons] at hkeys
    have hother : ∀ y ∈ d.map Prod.fst, distance y ((z, c) :: d) = c + distance y d := by
      intro y hy
      exact distance_cons_of_ne (fun heq : z = y => hkeys.1 (heq ▸ hy)) c d
    simp only [List.map_cons, List.mem_cons, forall_eq_or_imp, distance_cons_self]
    rw [← ih hkeys.2]
    constructor
    · intro h
      refine ⟨h.1, fun y hy => ?_⟩
      have hzero := h.2 y hy
      rw [hother y hy] at hzero
      omega
    · intro h
      refine ⟨h.1, fun y hy => ?_⟩
      rw [hother y hy, h.1, h.2 y hy]

end Distance

end SylixOS.DeltaList
