import Mathlib.Data.List.Basic
import Mathlib.Algebra.GroupWithZero.Nat
import Mathlib.Logic.Function.Basic

/-! The two-level priority bitmap of `kernel/core/_BitmapLib.c`. Bit `g` of the map
stands for the word `g` of the sub maps, and bit `b` of that word for the priority
`32 g + b`. A bitmap represents a set of priorities. -/

namespace SylixOS.BitmapLib
open Function

structure Bmap where
  uiMap : BitVec 32
  uiSubMap : Nat → BitVec 32

def archFindLsb (w : BitVec 32) : Nat :=
  match (List.range 32).find? (fun i => w.getLsbD i) with
  | none => 0
  | some i => i + 1

def bitmapInit : Bmap := ⟨0#32, fun _ => 0#32⟩

def bitmapAdd (pbmap : Bmap) (ucPriority : Nat) : Bmap where
  uiMap := pbmap.uiMap ||| (1#32 <<< (ucPriority / 32))
  uiSubMap := update pbmap.uiSubMap (ucPriority / 32)
    (pbmap.uiSubMap (ucPriority / 32) ||| (1#32 <<< (ucPriority % 32)))

def bitmapDel (pbmap : Bmap) (ucPriority : Nat) : Bmap :=
  let sub := pbmap.uiSubMap (ucPriority / 32) &&& ~~~(1#32 <<< (ucPriority % 32))
  { uiMap :=
      if sub = 0#32 then pbmap.uiMap &&& ~~~(1#32 <<< (ucPriority / 32)) else pbmap.uiMap
    uiSubMap := update pbmap.uiSubMap (ucPriority / 32) sub }

def bitmapHigh (pbmap : Bmap) : Nat :=
  let uiHigh := archFindLsb pbmap.uiMap
  if uiHigh = 0 then 0
  else
    let uiLow := (archFindLsb (pbmap.uiSubMap (uiHigh - 1)) + (2 ^ 32 - 1)) % 2 ^ 32
    ((uiHigh - 1) <<< 5 ||| uiLow) % 256

def bitmapIsEmpty (pbmap : Bmap) : Bool := pbmap.uiMap == 0#32

structure Represents (pbmap : Bmap) (S : Nat → Prop) : Prop where
  sub : ∀ p < 256, (pbmap.uiSubMap (p / 32)).getLsbD (p % 32) = true ↔ S p
  map : ∀ g, pbmap.uiMap.getLsbD g = true ↔ g < 8 ∧ pbmap.uiSubMap g ≠ 0#32

theorem getLsbD_shift {i j : Nat} (hi : i < 32) : (1#32 <<< i).getLsbD j = decide (j = i) := by
  rw [← BitVec.twoPow_eq, BitVec.getLsbD_twoPow]
  simp [hi, eq_comm]

theorem ne_zero_iff_getLsbD {w : BitVec 32} :
    w ≠ 0#32 ↔ ∃ i < 32, w.getLsbD i = true := by
  constructor
  · intro h
    by_contra none
    push Not at none
    refine h (BitVec.eq_of_getLsbD_eq ?_)
    intro i hi
    simpa using none i hi
  · rintro ⟨i, _, bit⟩ rfl
    simp at bit

theorem archFindLsb_spec {w : BitVec 32} (some : w ≠ 0#32) :
    ∃ i < 32, archFindLsb w = i + 1 ∧ w.getLsbD i = true ∧ ∀ j < i, w.getLsbD j = false := by
  obtain ⟨k, hk, bit⟩ := ne_zero_iff_getLsbD.mp some
  unfold archFindLsb
  cases found : (List.range 32).find? (fun i => w.getLsbD i) with
  | none =>
    have out := List.find?_eq_none.mp found k (by simpa using hk)
    exact absurd bit out
  | some i =>
    have mem := List.mem_of_find?_eq_some found
    have here := List.find?_some found
    refine ⟨i, by simpa using mem, rfl, here, ?_⟩
    intro j hj
    obtain ⟨_, n, hn, rfl, first⟩ := List.find?_eq_some_iff_getElem.mp found
    have before := first j (by simpa using hj)
    simpa using before

namespace Represents

variable {pbmap : Bmap} {S : Nat → Prop}

theorem congr (rep : Represents pbmap S) {S' : Nat → Prop} (same : ∀ p < 256, S p ↔ S' p) :
    Represents pbmap S' :=
  ⟨fun p hp => (rep.sub p hp).trans (same p hp), rep.map⟩

theorem add (rep : Represents pbmap S) {p : Nat} (hp : p < 256) :
    Represents (bitmapAdd pbmap p) (fun q => S q ∨ q = p) := by
  have high : p / 32 < 32 := by omega
  have low : p % 32 < 32 := Nat.mod_lt _ (by omega)
  constructor
  · intro q hq
    by_cases group : q / 32 = p / 32
    · have split : q = p ↔ q % 32 = p % 32 := by omega
      simp only [bitmapAdd, group, update_self, BitVec.getLsbD_or, Bool.or_eq_true,
        getLsbD_shift low, decide_eq_true_eq, split]
      rw [← group, rep.sub q hq]
    · have apart : q ≠ p := fun e => group (e ▸ rfl)
      simp only [bitmapAdd, update_of_ne group, rep.sub q hq, apart, or_false]
  · intro g
    simp only [bitmapAdd, BitVec.getLsbD_or, Bool.or_eq_true, getLsbD_shift high,
      decide_eq_true_eq, rep.map g]
    by_cases group : g = p / 32
    · have bit : (pbmap.uiSubMap (p / 32) ||| (1#32 <<< (p % 32))) ≠ 0#32 := by
        refine ne_zero_iff_getLsbD.mpr ⟨p % 32, low, ?_⟩
        simp [getLsbD_shift low]
      rw [group, update_self]
      constructor
      · intro _
        exact ⟨by omega, bit⟩
      · intro _
        exact Or.inr rfl
    · simp [group]

theorem del (rep : Represents pbmap S) {p : Nat} (hp : p < 256) :
    Represents (bitmapDel pbmap p) (fun q => S q ∧ q ≠ p) := by
  have high : p / 32 < 32 := by omega
  have low : p % 32 < 32 := Nat.mod_lt _ (by omega)
  constructor
  · intro q hq
    by_cases group : q / 32 = p / 32
    · have split : q ≠ p ↔ q % 32 ≠ p % 32 := by omega
      have small : q % 32 < 32 := Nat.mod_lt _ (by omega)
      simp only [bitmapDel, group, update_self, BitVec.getLsbD_and, BitVec.getLsbD_not,
        getLsbD_shift low, Bool.and_eq_true, small, decide_true, Bool.true_and,
        Bool.not_eq_true', decide_eq_false_iff_not, split]
      rw [← group, rep.sub q hq]
    · have apart : q ≠ p := fun e => group (e ▸ rfl)
      simp only [bitmapDel, update_of_ne group, rep.sub q hq, apart, ne_eq,
        not_false_eq_true, and_true]
  · intro g
    by_cases group : g = p / 32
    · rw [group]
      simp only [bitmapDel, update_self]
      split
      next none =>
        simp [none, high]
      next some =>
        have old : pbmap.uiSubMap (p / 32) ≠ 0#32 := by
          intro e
          simp [e] at some
        rw [rep.map]
        simp [old, some]
    · simp only [bitmapDel, update_of_ne group]
      rw [← rep.map g]
      split
      next =>
        by_cases hg : g < 32
        · simp only [BitVec.getLsbD_and, BitVec.getLsbD_not, getLsbD_shift high, hg, decide_true,
            group, decide_false, Bool.not_false, Bool.and_true]
        · simp [BitVec.getLsbD_of_ge _ _ (Nat.le_of_not_lt hg)]
      next => rfl

theorem isEmpty_iff (rep : Represents pbmap S) :
    bitmapIsEmpty pbmap = true ↔ ∀ p < 256, ¬ S p := by
  rw [bitmapIsEmpty, beq_iff_eq]
  constructor
  · intro zero p hp mem
    have bit := (rep.sub p hp).mpr mem
    have word : pbmap.uiSubMap (p / 32) ≠ 0#32 :=
      ne_zero_iff_getLsbD.mpr ⟨p % 32, Nat.mod_lt _ (by omega), bit⟩
    have summary := (rep.map (p / 32)).mpr ⟨by omega, word⟩
    simp [zero] at summary
  · intro none
    by_contra some
    obtain ⟨g, _, bit⟩ := ne_zero_iff_getLsbD.mp some
    obtain ⟨hg, word⟩ := (rep.map g).mp bit
    obtain ⟨i, hi, low⟩ := ne_zero_iff_getLsbD.mp word
    have split : (32 * g + i) / 32 = g ∧ (32 * g + i) % 32 = i := by omega
    refine none (32 * g + i) (by omega) ((rep.sub _ (by omega)).mp ?_)
    rw [split.1, split.2]
    exact low

theorem high_spec (rep : Represents pbmap S) (some : bitmapIsEmpty pbmap = false) :
    bitmapHigh pbmap < 256 ∧ S (bitmapHigh pbmap) ∧
    ∀ q < 256, S q → bitmapHigh pbmap ≤ q := by
  have nonzero : pbmap.uiMap ≠ 0#32 := by
    intro e
    simp [bitmapIsEmpty, e] at some
  obtain ⟨g, _, high, bit, firstWord⟩ := archFindLsb_spec nonzero
  obtain ⟨hg, word⟩ := (rep.map g).mp bit
  obtain ⟨i, hi, low, lowBit, firstBit⟩ := archFindLsb_spec word
  have shift : g <<< 5 ||| i = 32 * g + i := by
    rw [Nat.shiftLeft_eq, Nat.mul_comm, show 2 ^ 5 = 32 from rfl,
      show 32 * g = 2 ^ 5 * g from rfl, Nat.two_pow_add_eq_or_of_lt hi g]
  have value : bitmapHigh pbmap = 32 * g + i := by
    have wrap : (i + 1 + (2 ^ 32 - 1)) % 2 ^ 32 = i := by omega
    simp only [bitmapHigh, high, Nat.add_one_sub_one, low, wrap, shift]
    rw [if_neg (by omega)]
    omega
  have split : (32 * g + i) / 32 = g ∧ (32 * g + i) % 32 = i := by omega
  rw [value]
  refine ⟨by omega, (rep.sub _ (by omega)).mp (by rw [split.1, split.2]; exact lowBit), ?_⟩
  intro q hq mem
  have qbit := (rep.sub q hq).mpr mem
  have qword : pbmap.uiSubMap (q / 32) ≠ 0#32 :=
    ne_zero_iff_getLsbD.mpr ⟨q % 32, Nat.mod_lt _ (by omega), qbit⟩
  have summary := (rep.map (q / 32)).mpr ⟨by omega, qword⟩
  have group : g ≤ q / 32 := by
    by_contra below
    simp [firstWord (q / 32) (by omega)] at summary
  by_cases same : q / 32 = g
  · have bitOrder : i ≤ q % 32 := by
      by_contra below
      rw [same] at qbit
      simp [firstBit (q % 32) (by omega)] at qbit
    omega
  · omega

end Represents

end SylixOS.BitmapLib
