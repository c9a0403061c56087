import Mathlib.Data.List.Induction

/-! A list of path components read from left to right onto a stack, and two readings that differ in
components which the one keeps and the other takes as a step up. -/

namespace SylixOS.PathStack

inductive Kind where
  | skip
  | up
  | name
  deriving DecidableEq

variable {α : Type*} {kind kind' : α → Kind} {s l : List α} {x : α}

def push (kind : α → Kind) (s : List α) (x : α) : List α :=
  match kind x with
  | .skip => s
  | .up => s.dropLast
  | .name => s ++ [x]

def resolve (kind : α → Kind) (l : List α) : List α := l.foldl (push kind) []

theorem push_skip (h : kind x = .skip) : push kind s x = s := by
  rw [push, h]

theorem push_up (h : kind x = .up) : push kind s x = s.dropLast := by
  rw [push, h]

theorem push_name (h : kind x = .name) : push kind s x = s ++ [x] := by
  rw [push, h]

theorem resolve_concat (l : List α) (x : α) :
    resolve kind (l ++ [x]) = push kind (resolve kind l) x := by
  rw [resolve, List.foldl_append]
  rfl

theorem resolve_sublist (l : List α) : (resolve kind l).Sublist l := by
  induction l using List.reverseRecOn with
  | nil => exact List.Sublist.refl _
  | append_singleton l x ih =>
    rw [resolve_concat]
    cases hx : kind x with
    | skip =>
      rw [push_skip hx]
      exact ih.trans (List.sublist_append_left l [x])
    | up =>
      rw [push_up hx]
      exact (List.dropLast_sublist _).trans (ih.trans (List.sublist_append_left l [x]))
    | name =>
      rw [push_name hx]
      exact ih.append (List.Sublist.refl _)

theorem mem_resolve (hx : x ∈ resolve kind l) : x ∈ l ∧ kind x = .name := by
  induction l using List.reverseRecOn with
  | nil => exact absurd hx List.not_mem_nil
  | append_singleton l y ih =>
    rw [resolve_concat] at hx
    cases hy : kind y with
    | skip =>
      rw [push_skip hy] at hx
      exact ⟨List.mem_append_left _ (ih hx).1, (ih hx).2⟩
    | up =>
      rw [push_up hy] at hx
      have hmem := ih (List.dropLast_subset _ hx)
      exact ⟨List.mem_append_left _ hmem.1, hmem.2⟩
    | name =>
      rw [push_name hy, List.mem_append, List.mem_singleton] at hx
      rcases hx with hx | rfl
      · exact ⟨List.mem_append_left _ (ih hx).1, (ih hx).2⟩
      · exact ⟨List.mem_append_right _ (List.mem_singleton_self x), hy⟩

theorem resolve_names (h : ∀ x ∈ l, kind x = .name) : resolve kind l = l := by
  induction l using List.reverseRecOn with
  | nil => rfl
  | append_singleton l x ih =>
    have hl : ∀ y ∈ l, kind y = .name := fun y hy => h y (List.mem_append_left _ hy)
    have hx : kind x = .name := h x (List.mem_append_right _ (List.mem_singleton_self x))
    rw [resolve_concat, ih hl, push_name hx]

theorem resolve_cons_skip (h : kind x = .skip) : resolve kind (x :: l) = resolve kind l := by
  rw [resolve, List.foldl_cons, push_skip h]
  rfl

section Readings

variable (hkind : ∀ x, kind' x = kind x ∨ kind x = .name ∧ kind' x = .up)

include hkind

theorem length_resolve_le (l : List α) :
    (resolve kind' l).length ≤ (resolve kind l).length := by
  induction l using List.reverseRecOn with
  | nil => exact Nat.le_refl _
  | append_singleton l x ih =>
    rw [resolve_concat, resolve_concat]
    rcases hkind x with heq | ⟨hname, hup⟩
    · cases hx : kind x with
      | skip =>
        rw [push_skip hx, push_skip (heq.trans hx)]
        exact ih
      | up =>
        rw [push_up hx, push_up (heq.trans hx), List.length_dropLast, List.length_dropLast]
        omega
      | name =>
        rw [push_name hx, push_name (heq.trans hx), List.length_append, List.length_append]
        omega
    · rw [push_name hname, push_up hup, List.length_dropLast, List.length_append]
      omega

theorem length_resolve_lt {pre mid : List α} (hne : kind' x ≠ kind x)
    (hkeep : ∀ m r, mid = m ++ r → resolve kind (pre ++ x :: m) ≠ []) :
    (resolve kind' (pre ++ x :: mid)).length < (resolve kind (pre ++ x :: mid)).length := by
  induction mid using List.reverseRecOn with
  | nil =>
    obtain ⟨hname, hup⟩ := (hkind x).resolve_left hne
    have hle := length_resolve_le hkind pre
    rw [resolve_concat, resolve_concat, push_name hname, push_up hup, List.length_dropLast,
      List.length_append, List.length_singleton]
    omega
  | append_singleton mid y ih =>
    have hlt := ih fun m r hm => hkeep m (r ++ [y]) (by rw [hm, List.append_assoc])
    have hsplit : pre ++ x :: (mid ++ [y]) = pre ++ x :: mid ++ [y] := by simp
    have hpos := List.length_pos_iff.mpr (hkeep (mid ++ [y]) [] (List.append_nil _).symm)
    rw [hsplit, resolve_concat] at hpos ⊢
    rw [resolve_concat]
    rcases hkind y with heq | ⟨hname, hup⟩
    · cases hy : kind y with
      | skip =>
        rw [push_skip hy, push_skip (heq.trans hy)]
        exact hlt
      | up =>
        rw [push_up hy, List.length_dropLast] at hpos
        rw [push_up hy, push_up (heq.trans hy), List.length_dropLast, List.length_dropLast]
        omega
      | name =>
        rw [push_name hy, push_name (heq.trans hy), List.length_append, List.length_append]
        omega
    · rw [push_name hname, push_up hup, List.length_dropLast, List.length_append]
      omega

theorem resolve_eq_iff (l : List α) :
    resolve kind' l = resolve kind l ↔
      ∀ pre x post, l = pre ++ x :: post → kind' x ≠ kind x →
        ∃ mid rest, post = mid ++ rest ∧ resolve kind (pre ++ x :: mid) = [] := by
  constructor
  · rintro heq pre x post rfl hne
    by_contra hnone
    have hlt : (resolve kind' (pre ++ x :: post)).length < (resolve kind (pre ++ x :: post)).length :=
      length_resolve_lt hkind hne fun m r hm hnil => hnone ⟨m, r, hm, hnil⟩
    exact Nat.ne_of_lt hlt (congrArg List.length heq)
  · intro hall
    induction l using List.reverseRecOn with
    | nil => rfl
    | append_singleton l y ih =>
      by_cases hnil : resolve kind (l ++ [y]) = []
      · -- nothing remains in either reading
        have hle := length_resolve_le hkind (l ++ [y])
        rw [hnil, List.length_nil, Nat.le_zero, List.length_eq_zero_iff] at hle
        rw [hle, hnil]
      · have hy : kind' y = kind y := by
          by_contra hne
          obtain ⟨mid, rest, hmid, hempty⟩ := hall l y [] rfl hne
          obtain ⟨rfl, -⟩ := List.append_eq_nil_iff.mp hmid.symm
          exact hnil hempty
        have hl : resolve kind' l = resolve kind l := by
          refine ih ?_
          rintro pre x post rfl hne
          obtain ⟨mid, rest, hmid, hempty⟩ := hall pre x (post ++ [y]) (by simp) hne
          rcases List.eq_nil_or_concat rest with rfl | ⟨rest, z, rfl⟩
          · refine absurd ?_ hnil
            rw [List.append_nil] at hmid
            subst hmid
            rw [List.append_assoc]
            exact hempty
          · rw [List.concat_eq_append, ← List.append_assoc] at hmid
            exact ⟨mid, rest, (List.append_inj' hmid rfl).1, hempty⟩
        rw [resolve_concat, resolve_concat, hl, push, push, hy]

end Readings

end SylixOS.PathStack
