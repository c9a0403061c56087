import Mathlib.Algebra.Order.Ring.Nat
import Mathlib.Data.Nat.Basic

/-! A ring of `N` slots in pages of `P`, filled with consecutive serial
numbers. Starting a page clears it, so behind the newest slot the rest of
its page is empty, and the later pages hold the previous lap if there was
one. -/

namespace SylixOS.SerialRing

def ringAt (N P : Nat) : Nat → Nat → Option Nat
  | 0, _ => none
  | S + 1, i =>
    if i ≤ S % N then some (S - (S % N - i))
    else if i < (S % N / P + 1) * P then none
    else if N ≤ S then some (S - S % N - N + i)
    else none

variable {N P : Nat}

theorem ringAt_of_le {S i : Nat} (h : i ≤ S % N) :
    ringAt N P (S + 1) i = some (S - (S % N - i)) := if_pos h

theorem ringAt_newest (S : Nat) : ringAt N P (S + 1) (S % N) = some S := by
  rw [ringAt_of_le le_rfl, Nat.sub_self, Nat.sub_zero]

theorem ringAt_later {S i : Nat} (hi : S % N < i) (hpage : ¬ i < (S % N / P + 1) * P) :
    ringAt N P (S + 1) i = if N ≤ S then some (S - S % N - N + i) else none := by
  rw [ringAt, if_neg (by omega), if_neg hpage]

theorem le_sub_mod {S : Nat} (h : N ≤ S) : N ≤ S - S % N := by
  rcases Nat.eq_zero_or_pos N with rfl | hN
  · exact Nat.zero_le _
  · have hdiv := Nat.div_add_mod S N
    have hone : N * 1 ≤ N * (S / N) := Nat.mul_le_mul_left _ ((Nat.one_le_div_iff hN).mpr h)
    omega

theorem ringAt_behind {S i x : Nat} (hi : S % N < i) (hN : i < N)
    (h : ringAt N P (S + 1) i = some x) : x + S % N < S := by
  rw [ringAt, if_neg (by omega)] at h
  split at h
  · cases h
  · split at h
    · rename_i hle
      simp only [Option.some.injEq] at h
      have hmod := le_sub_mod hle
      omega
    · cases h

theorem ringAt_before {S i x : Nat} (hi : i ≤ S % N) (h : ringAt N P (S + 1) i = some x) :
    x + S % N = S + i := by
  rw [ringAt_of_le hi] at h
  simp only [Option.some.injEq] at h
  have hmod := Nat.mod_le S N
  omega

theorem ringAt_le {S i x : Nat} (hN : i < N) (h : ringAt N P (S + 1) i = some x) : x ≤ S := by
  rcases Nat.lt_or_ge (S % N) i with hi | hi
  · have hlt := ringAt_behind hi hN h
    omega
  · have heq := ringAt_before hi h
    omega

theorem succ_mod_cases (hN : 1 < N) (S : Nat) :
    S % N + 1 = N ∧ (S + 1) % N = 0 ∨ S % N + 1 < N ∧ (S + 1) % N = S % N + 1 := by
  have hlt := Nat.mod_lt S (by omega : N > 0)
  have hone : 1 % N = 1 := Nat.mod_eq_of_lt hN
  rw [Nat.add_mod_eq_ite, hone]
  split <;> omega

theorem div_eq_iff_of_le (hP : 0 < P) {m i : Nat} (h : m ≤ i) :
    i / P = m / P ↔ i < (m / P + 1) * P := by
  have hle : m / P ≤ i / P := Nat.div_le_div_right h
  rw [← Nat.div_lt_iff_lt_mul hP]
  omega

theorem ringAt_succ (hP : 0 < P) (hN : 1 < N) (n : Nat) {i : Nat} (hi : i < N) :
    ringAt N P (n + 1) i =
      if i / P = n % N / P then
        if i < n % N then ringAt N P n i else if i = n % N then some n else none
      else ringAt N P n i := by
  have hlt := Nat.mod_lt n (by omega : N > 0)
  by_cases hpage : i / P = n % N / P
  · rw [if_pos hpage]
    rcases Nat.lt_trichotomy i (n % N) with hbefore | rfl | hbehind
    · rw [if_pos hbefore, ringAt_of_le (by omega)]
      cases n with
      | zero => simp at hbefore
      | succ S =>
        rcases succ_mod_cases hN S with ⟨-, hmod⟩ | ⟨-, hmod⟩
        · omega
        · rw [ringAt_of_le (by omega), hmod]
          congr 1
          have hle := Nat.mod_le S N
          omega
    · rw [if_neg (by omega), if_pos rfl, ringAt_newest]
    · rw [if_neg (by omega), if_neg (by omega), ringAt, if_neg (by omega), if_pos]
      exact (div_eq_iff_of_le hP (by omega)).mp hpage
  · rw [if_neg hpage]
    cases n with
    | zero =>
      have hpos : 0 < i := by
        rcases Nat.eq_zero_or_pos i with rfl | hp
        · simp at hpage
        · exact hp
      have hnot : ¬ i < (0 % N / P + 1) * P := by
        intro hc
        exact hpage ((div_eq_iff_of_le hP (by simp)).mpr hc)
      rw [ringAt_later (by simpa using hpos) hnot, if_neg (by omega), ringAt]
    | succ S =>
      have hSle := Nat.mod_le S N
      rcases succ_mod_cases hN S with ⟨hS, hmod⟩ | ⟨hS, hmod⟩
      · -- the new lap starts: the old one fills the other pages
        have hpos : 0 < i := by
          rcases Nat.eq_zero_or_pos i with rfl | hp
          · rw [hmod] at hpage
            simp at hpage
          · exact hp
        have hnot : ¬ i < ((S + 1) % N / P + 1) * P := by
          intro hc
          exact hpage ((div_eq_iff_of_le hP (by omega)).mpr hc)
        rw [ringAt_of_le (S := S) (by omega), ringAt_later (by omega) hnot, if_pos (by omega)]
        congr 1
        omega
      · rcases Nat.lt_or_ge i (S % N + 1) with hb | hb
        · rw [ringAt_of_le (by omega), ringAt_of_le (by omega)]
          congr 1
          omega
        · have hi' : (S + 1) % N < i := by
            rcases Nat.lt_or_ge ((S + 1) % N) i with h | h
            · exact h
            · have heq : i = (S + 1) % N := by omega
              rw [heq] at hpage
              exact absurd rfl hpage
          have hnot : ¬ i < ((S + 1) % N / P + 1) * P := by
            intro hc
            exact hpage ((div_eq_iff_of_le hP (by omega)).mpr hc)
          have hnot' : ¬ i < (S % N / P + 1) * P := by
            intro hc
            have hmono : S % N / P ≤ (S + 1) % N / P := Nat.div_le_div_right (by omega)
            have hmul : (S % N / P + 1) * P ≤ ((S + 1) % N / P + 1) * P :=
              Nat.mul_le_mul_right _ (by omega)
            omega
          rw [ringAt_later hi' hnot, ringAt_later (by omega) hnot']
          have hne : S + 1 ≠ N := by
            intro hc
            rw [← hc, Nat.mod_eq_of_lt (by omega)] at hS
            omega
          by_cases hlap : N ≤ S
          · rw [if_pos (by omega), if_pos hlap]
            congr 1
            omega
          · rw [if_neg (by omega), if_neg hlap]

end SylixOS.SerialRing
