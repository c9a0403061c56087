import Mathlib.Data.List.Basic
import Mathlib.Logic.Function.Basic

/-! Ring buffers: an array of `N` places read and written in pieces that may
wrap around its end. What is stored is a list, from the output place on. -/

namespace SylixOS.RingBuffer

variable {α : Type*}

def slice (buf : ℕ → α) (off n : ℕ) : List α := (List.range n).map fun i => buf (off + i)

def put (buf : ℕ → α) (off : ℕ) (l : List α) : ℕ → α :=
  fun i => if off ≤ i then (l[i - off]?).getD (buf i) else buf i

def content (buf : ℕ → α) (N off n : ℕ) : List α :=
  (List.range n).map fun i => buf ((off + i) % N)

def wrapGet (buf : ℕ → α) (N off n : ℕ) : List α :=
  slice buf off (min n (N - off)) ++ slice buf 0 (n - (N - off))

def wrapPut (buf : ℕ → α) (N off : ℕ) (l : List α) : ℕ → α :=
  put (put buf off (l.take (N - off))) 0 (l.drop (N - off))

variable {buf : ℕ → α} {N off n : ℕ} {l : List α}

@[simp] theorem length_slice : (slice buf off n).length = n := by simp [slice]

@[simp] theorem length_content : (content buf N off n).length = n := by simp [content]

theorem content_append (a b : ℕ) :
    content buf N off (a + b) = content buf N off a ++ content buf N ((off + a) % N) b := by
  simp only [content, List.range_add, List.map_append, List.map_map]
  congr 1
  apply List.map_congr_left
  intro i _
  simp [Nat.add_assoc]

theorem content_eq_slice (h : off + n ≤ N) : content buf N off n = slice buf off n := by
  unfold content slice
  apply List.map_congr_left
  intro i hi
  rw [Nat.mod_eq_of_lt]
  have := List.mem_range.mp hi
  omega

theorem wrapGet_eq (hoff : off < N) (hn : n ≤ N) : wrapGet buf N off n = content buf N off n := by
  unfold wrapGet
  by_cases h : n ≤ N - off
  · rw [Nat.min_eq_left h, Nat.sub_eq_zero_of_le h, content_eq_slice (by omega)]
    simp [slice]
  · have hsum : n = (N - off) + (n - (N - off)) := by omega
    have hend : (off + (N - off)) % N = 0 := by
      rw [Nat.add_sub_cancel' (Nat.le_of_lt hoff), Nat.mod_self]
    rw [Nat.min_eq_right (by omega)]
    conv_rhs => rw [hsum, content_append, hend]
    rw [content_eq_slice (by omega), content_eq_slice (by omega)]

variable (buf off) in
theorem put_inside (i : ℕ) (h : i < l.length) : put buf off l (off + i) = l[i] := by
  simp [put, h]

theorem put_outside {i : ℕ} (h : i < off ∨ off + l.length ≤ i) : put buf off l i = buf i := by
  unfold put
  by_cases hoff : off ≤ i
  · rw [if_pos hoff, List.getElem?_eq_none (by omega), Option.getD_none]
  · rw [if_neg hoff]

theorem slice_put (buf : ℕ → α) (l : List α) : slice (put buf 0 l) 0 l.length = l := by
  apply List.ext_getElem
  · simp
  · intro i h1 h2
    have hput := put_inside buf 0 i h2
    simpa [slice] using hput

theorem wrap_cases (hoff : off < N) {i : ℕ} (hi : i < N) :
    (off + i < N ∧ (off + i) % N = off + i) ∨
      (N ≤ off + i ∧ (off + i) % N = i - (N - off)) := by
  by_cases h : off + i < N
  · exact Or.inl ⟨h, Nat.mod_eq_of_lt h⟩
  · right
    rw [Nat.mod_eq_sub_mod (by omega), Nat.mod_eq_of_lt (by omega)]
    omega

theorem wrapPut_inside (hoff : off < N) (hl : l.length ≤ N) (i : ℕ) (hi : i < l.length) :
    wrapPut buf N off l ((off + i) % N) = l[i] := by
  unfold wrapPut
  rcases wrap_cases hoff (i := i) (by omega) with ⟨hlt, hmod⟩ | ⟨hge, hmod⟩
  · have hfirst : i < (l.take (N - off)).length := by
      rw [List.length_take]
      omega
    rw [hmod, put_outside, put_inside _ _ i hfirst, List.getElem_take]
    rw [List.length_drop]
    omega
  · have hsecond : i - (N - off) < (l.drop (N - off)).length := by
      rw [List.length_drop]
      omega
    have hput := put_inside (put buf off (l.take (N - off))) 0 _ hsecond
    rw [Nat.zero_add] at hput
    rw [hmod, hput, List.getElem_drop]
    congr 1
    omega

theorem wrapPut_outside (hoff : off < N) {i : ℕ} (hlo : l.length ≤ i)
    (hi : i < N) : wrapPut buf N off l ((off + i) % N) = buf ((off + i) % N) := by
  unfold wrapPut
  rcases wrap_cases hoff hi with ⟨hlt, hmod⟩ | ⟨hge, hmod⟩
  · rw [hmod, put_outside, put_outside]
    · rw [List.length_take]
      omega
    · rw [List.length_drop]
      omega
  · rw [hmod, put_outside, put_outside]
    · rw [List.length_take]
      omega
    · rw [List.length_drop]
      omega

theorem content_wrapPut_self (hoff : off < N) (hl : l.length ≤ N) :
    content (wrapPut buf N off l) N off l.length = l := by
  apply List.ext_getElem
  · simp
  · intro i h1 h2
    simp only [content, List.getElem_map, List.getElem_range]
    exact wrapPut_inside hoff hl i h2

theorem content_wrapPut (hoff : off < N) (h : n + l.length ≤ N) :
    content (wrapPut buf N ((off + n) % N) l) N off (n + l.length) =
      content buf N off n ++ l := by
  have hin : (off + n) % N < N := Nat.mod_lt _ (by omega)
  rw [content_append, content_wrapPut_self hin (by omega)]
  congr 1
  unfold content
  apply List.map_congr_left
  intro i hi
  have hlt := List.mem_range.mp hi
  -- place `i` counted from the output place is place `N - n + i` counted from the input place
  have hplace : (off + i) % N = ((off + n) % N + (N - n + i)) % N := by
    rw [Nat.mod_add_mod, show off + n + (N - n + i) = off + i + N by omega, Nat.add_mod_right]
  rw [hplace]
  exact wrapPut_outside hin (by omega) (by omega)

theorem wrapPut_of_le (h : l.length ≤ N - off) : wrapPut buf N off l = put buf off l := by
  unfold wrapPut
  rw [List.take_of_length_le h, List.drop_of_length_le h]
  funext i
  exact put_outside (Or.inr (Nat.zero_le _))

theorem put_singleton (x : α) : put buf off [x] = Function.update buf off x := by
  funext i
  by_cases hi : i = off
  · subst hi
    rw [Function.update_self]
    exact put_inside (l := [x]) buf i 0 Nat.one_pos
  · rw [Function.update_of_ne hi]
    refine put_outside ?_
    rw [List.length_singleton]
    omega

def next (N i : ℕ) : ℕ := if i = N - 1 then 0 else i + 1

theorem next_eq {i : ℕ} (h : i < N) : next N i = (i + 1) % N := by
  unfold next
  split
  next hlast =>
    rw [hlast, Nat.sub_add_cancel (by omega), Nat.mod_self]
  next hinner => rw [Nat.mod_eq_of_lt (by omega)]

theorem next_lt {i : ℕ} (h : i < N) : next N i < N := by
  rw [next_eq h]
  exact Nat.mod_lt _ (by omega)

theorem place_ne {i j : ℕ} (hij : i < j) (hj : j < N) : (off + i) % N ≠ (off + j) % N := by
  intro h
  have hdiff := Nat.sub_mod_eq_zero_of_mod_eq h.symm
  rw [Nat.mod_eq_of_lt (by omega)] at hdiff
  omega

def mapRing (f : α → α) (N : ℕ) : ℕ → ℕ → (ℕ → α) → ℕ → α
  | 0, _, buf => buf
  | n + 1, i, buf => mapRing f N n (next N i) (Function.update buf i (f (buf i)))

theorem mapRing_place (f : α → α) (hoff : off < N) (hn : n ≤ N) (p : ℕ) :
    mapRing f N n off buf p =
      if ∃ k, k < n ∧ p = (off + k) % N then f (buf p) else buf p := by
  induction n generalizing off buf with
  | zero => simp [mapRing]
  | succ n ih =>
    have hshift : ∀ k, (next N off + k) % N = (off + (k + 1)) % N := by
      intro k
      rw [next_eq hoff, Nat.mod_add_mod, Nat.add_assoc, Nat.add_comm 1 k]
    rw [mapRing, ih (next_lt hoff) (by omega)]
    by_cases hp : p = off
    · -- the first place is not reached again
      have hnot : ¬∃ k, k < n ∧ p = (next N off + k) % N := by
        rintro ⟨k, hk, he⟩
        have hne : (off + 0) % N ≠ (off + (k + 1)) % N := place_ne (by omega) (by omega)
        rw [Nat.add_zero, Nat.mod_eq_of_lt hoff] at hne
        rw [hshift, hp] at he
        exact hne he
      have hfirst : ∃ k, k < n + 1 ∧ p = (off + k) % N :=
        ⟨0, by omega, by rw [Nat.add_zero, Nat.mod_eq_of_lt hoff, hp]⟩
      rw [if_neg hnot, if_pos hfirst, hp, Function.update_self]
    · rw [Function.update_of_ne hp]
      have hiff : (∃ k, k < n ∧ p = (next N off + k) % N) ↔
          ∃ k, k < n + 1 ∧ p = (off + k) % N := by
        constructor
        · rintro ⟨k, hk, he⟩
          exact ⟨k + 1, by omega, by rw [he, hshift]⟩
        · rintro ⟨k, hk, he⟩
          cases k with
          | zero => exact absurd (by rw [he, Nat.add_zero, Nat.mod_eq_of_lt hoff]) hp
          | succ k => exact ⟨k, by omega, by rw [he, hshift]⟩
      simp only [hiff]

end SylixOS.RingBuffer
