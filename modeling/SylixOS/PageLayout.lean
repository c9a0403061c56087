import SylixOS.PageLib
import SylixOS.IntervalTiling

/-! What holds of a page zone between two calls, and what the statements of a call
do to it one after the other. -/

namespace SylixOS.PageLib
open LinkedChain ListLink IntervalTiling

variable {Z P : Type*} {cfg : Config} {s s₀ s' : Store Z P} {z : Z}

def Store.freePages (s : Store Z P) (blocks : List P) : ℕ :=
  (blocks.map fun p => if s.bUsed p then 0 else s.ulCount p).sum

def Store.Parted (s : Store Z P) (blocks : List P) : Prop :=
  blocks.IsChain fun p q => s.bUsed p = true ∨ s.bUsed q = true

def Store.CoversZone (cfg : Config) (s : Store Z P) (z : Z) (blocks : List P) : Prop :=
  Covers s.ulPageAddr (fun p => s.ulCount p <<< cfg.pageShift) (s.ulAddr z) blocks
    (s.ulAddr z + (s.stSize z >>> cfg.pageShift) <<< cfg.pageShift)

def Store.AreaOk (cfg : Config) (s : Store Z P) (z : Z) (free : Set P) (i : ℕ) : Prop :=
  ∃ l, IsLine s.lineFreeHash l ∧ s.lineFreeHeader z i = l.head? ∧ s.faCount z i = l.length ∧
    ∀ p, p ∈ l ↔ p ∈ free ∧ pageFreeHashIndex cfg (s.ulCount p) = i

def Store.freeBlocks (s : Store Z P) (blocks : List P) : Set P :=
  {p | p ∈ blocks ∧ s.bUsed p = false}

structure Zone (cfg : Config) (s : Store Z P) (z : Z) (blocks : List P) : Prop where
  line : IsLine s.lineManage blocks
  /-- The blocks are the control blocks that are given out for this zone. -/
  owned : ∀ p, p ∈ blocks ↔ s.allocated p = true ∧ s.pvmzoneOwner p = z
  covers : s.CoversZone cfg z blocks
  freePage : s.ulFreePage z = s.freePages blocks
  areas : ∀ i < cfg.maxOrder, s.AreaOk cfg z (s.freeBlocks blocks) i
  parted : s.Parted blocks

def Store.Ok (cfg : Config) (s : Store Z P) : Prop :=
  ∀ z, if s.created z then ∃ blocks, Zone cfg s z blocks
    else ∀ p, s.allocated p = true → s.pvmzoneOwner p ≠ z

theorem pageFreeHashIndex_lt (ulPageNum : ℕ) : pageFreeHashIndex cfg ulPageNum < cfg.maxOrder := by
  have hpos := cfg.maxOrder_pos
  unfold pageFreeHashIndex
  dsimp only
  split <;> omega

theorem pageFreeHashLoop_least {ulPageNum left i : ℕ} (hleft : ulPageNum ≤ 2 ^ (i + left))
    (hi : ∀ j < i, 2 ^ j < ulPageNum) :
    ulPageNum ≤ 2 ^ pageFreeHashLoop ulPageNum left i ∧
      ∀ j < pageFreeHashLoop ulPageNum left i, 2 ^ j < ulPageNum := by
  induction left generalizing i with
  | zero => exact ⟨hleft, hi⟩
  | succ left ih =>
    unfold pageFreeHashLoop
    split
    · rename_i hlt
      apply ih
      · rwa [Nat.add_right_comm]
      · intro j hj
        rcases Nat.lt_succ_iff_lt_or_eq.mp hj with hj | rfl
        · exact hi j hj
        · exact hlt
    · rename_i hge
      exact ⟨Nat.le_of_not_lt hge, hi⟩

theorem freePages_append (s : Store Z P) (l l' : List P) :
    s.freePages (l ++ l') = s.freePages l + s.freePages l' := by
  simp [Store.freePages]

theorem freePages_cons (s : Store Z P) (p : P) (l : List P) :
    s.freePages (p :: l) = (if s.bUsed p then 0 else s.ulCount p) + s.freePages l := by
  simp [Store.freePages]

theorem freePages_congr {l : List P}
    (h : ∀ p ∈ l, s'.bUsed p = s.bUsed p ∧ s'.ulCount p = s.ulCount p) :
    s'.freePages l = s.freePages l := by
  unfold Store.freePages
  congr 1
  apply List.map_congr_left
  intro p hp
  rw [(h p hp).1, (h p hp).2]

theorem Store.Parted.fill {l t mid : List P} (hl : s.Parted l) (ht : s.Parted t)
    (same : ∀ p ∈ l ++ t, s'.bUsed p = s.bUsed p) (hmid : s'.Parted mid) (hne : mid ≠ [])
    (hleft : (∀ p ∈ l.getLast?, s.bUsed p = true) ∨ ∀ q ∈ mid.head?, s'.bUsed q = true)
    (hright : (∀ q ∈ t.head?, s.bUsed q = true) ∨ ∀ p ∈ mid.getLast?, s'.bUsed p = true) :
    s'.Parted (l ++ mid ++ t) := by
  have hkeep : ∀ k : List P, k ⊆ l ++ t → s.Parted k → s'.Parted k := by
    intro k hk hparted
    refine List.IsChain.imp_of_mem_imp (fun p q hp hq hpq => ?_) hparted
    rw [same p (hk hp), same q (hk hq)]
    exact hpq
  have hlast : ∀ p ∈ l.getLast?, p ∈ l ++ t :=
    fun p hp => List.mem_append_left t (List.mem_of_getLast? hp)
  have hhead : ∀ q ∈ t.head?, q ∈ l ++ t :=
    fun q hq => List.mem_append_right l (List.mem_of_mem_head? hq)
  refine List.isChain_append.mpr ⟨List.isChain_append.mpr ⟨?_, hmid, ?_⟩, ?_, ?_⟩
  · exact hkeep l (List.subset_append_left l t) hl
  · intro p hp q hq
    rcases hleft with hleft | hleft
    · rw [same p (hlast p hp)]
      exact Or.inl (hleft p hp)
    · exact Or.inr (hleft q hq)
  · exact hkeep t (List.subset_append_right l t) ht
  · intro p hp q hq
    rw [List.getLast?_append_of_ne_nil l hne] at hp
    rcases hright with hright | hright
    · rw [same q (hhead q hq)]
      exact Or.inr (hright q hq)
    · exact Or.inl (hright p hp)

theorem Store.Parted.around {l t : List P} {p : P} (h : s.Parted (l ++ p :: t))
    (hp : s.bUsed p = false) :
    (∀ q ∈ l.getLast?, s.bUsed q = true) ∧ ∀ q ∈ t.head?, s.bUsed q = true := by
  obtain ⟨-, hright, hleft⟩ := List.isChain_append.mp h
  obtain ⟨hnext, -⟩ := List.isChain_cons.mp hright
  constructor
  · intro q hq
    rcases hleft q hq p (by simp) with hused | hused
    · exact hused
    · rw [hp] at hused
      exact nomatch hused
  · intro q hq
    rcases hnext q hq with hused | hused
    · rw [hp] at hused
      exact nomatch hused
    · exact hused

theorem Store.Parted.sides {l t mid : List P} (h : s.Parted (l ++ mid ++ t)) :
    s.Parted l ∧ s.Parted t := by
  obtain ⟨hleft, ht, -⟩ := List.isChain_append.mp h
  exact ⟨(List.isChain_append.mp hleft).1, ht⟩

end SylixOS.PageLib
