import Mathlib.Data.Nat.ModEq
import Mathlib.Algebra.Group.Nat.Defs
import Mathlib.Algebra.BigOperators.Group.List.Basic

/-! Sums in one's complement. Words run up to `m`, and what goes over it comes back at the bottom,
so that `m` and 0 are both zero modulo `m`. -/

namespace SylixOS.OnesSum

variable {m a b : ℕ} {ws : List ℕ}

def add (m a b : ℕ) : ℕ := if m < a + b then a + b - m else a + b

def total (m : ℕ) (ws : List ℕ) : ℕ := ws.foldr (add m) 0

@[simp] theorem total_nil : total m [] = 0 := rfl

@[simp] theorem total_cons : total m (a :: ws) = add m a (total m ws) := rfl

theorem add_le (ha : a ≤ m) (hb : b ≤ m) : add m a b ≤ m := by
  unfold add
  split_ifs <;> omega

theorem add_modEq : add m a b ≡ a + b [MOD m] := by
  unfold add
  split_ifs with hlt
  · exact (Nat.add_modEq_right (n := m)).symm.trans (by rw [Nat.sub_add_cancel (by omega)])
  · rfl

theorem add_eq_zero_iff (ha : a ≤ m) : add m a b = 0 ↔ a = 0 ∧ b = 0 := by
  unfold add
  split_ifs <;> omega

theorem total_le (h : ∀ w ∈ ws, w ≤ m) : total m ws ≤ m := by
  induction ws with
  | nil => exact Nat.zero_le m
  | cons w ws ih =>
    exact add_le (h w List.mem_cons_self) (ih fun x hx => h x (List.mem_cons_of_mem w hx))

theorem total_modEq : total m ws ≡ ws.sum [MOD m] := by
  induction ws with
  | nil => rfl
  | cons w ws ih =>
    rw [total_cons, List.sum_cons]
    exact add_modEq.trans (ih.add_left w)

theorem total_eq_zero_iff (h : ∀ w ∈ ws, w ≤ m) : total m ws = 0 ↔ ws.sum = 0 := by
  induction ws with
  | nil => simp
  | cons w ws ih =>
    rw [total_cons, add_eq_zero_iff (h w List.mem_cons_self), List.sum_cons, Nat.add_eq_zero_iff,
      ih fun x hx => h x (List.mem_cons_of_mem w hx)]

theorem total_eq_max_iff (hm : 0 < m) (h : ∀ w ∈ ws, w ≤ m) :
    total m ws = m ↔ m ∣ ws.sum ∧ ws.sum ≠ 0 := by
  have hle := total_le h
  have hzero := total_eq_zero_iff h
  have hdvd : m ∣ ws.sum ↔ m ∣ total m ws := (total_modEq.dvd_iff (dvd_refl m)).symm
  rw [hdvd, Ne, ← hzero]
  constructor
  · intro heq
    rw [heq]
    exact ⟨dvd_refl m, by omega⟩
  · rintro ⟨hd, hne⟩
    exact le_antisymm hle (Nat.le_of_dvd (by omega) hd)

end SylixOS.OnesSum
