import Mathlib.Data.Nat.Bits
import SylixOS.PageRuns

/-! Which block an allocation takes. The entries of the hash table are searched from
the smallest on, so the first fit in them is the best fit of the zone. -/

namespace SylixOS.PageLib
open LinkedChain ListLink IntervalTiling

variable {Z P : Type*} {cfg : Config} {s s' : Store Z P} {z : Z} {blocks l : List P}
  {p q new r : P} {i j n : ℕ} {left : P → ℕ}

theorem pageFreeHashIndex_mono {m n : ℕ} (h : m ≤ n) :
    pageFreeHashIndex cfg m ≤ pageFreeHashIndex cfg n := by
  have hleast : ∀ k, k ≤ 2 ^ pageFreeHashLoop k k 0 ∧ ∀ j < pageFreeHashLoop k k 0, 2 ^ j < k := by
    intro k
    apply pageFreeHashLoop_least
    · rw [Nat.zero_add]
      exact Nat.lt_two_pow_self.le
    · nofun
  have hloop : pageFreeHashLoop m m 0 ≤ pageFreeHashLoop n n 0 := by
    by_contra hlt
    have hbelow := (hleast m).2 _ (Nat.lt_of_not_le hlt)
    have hreach := (hleast n).1
    omega
  have hpos := cfg.maxOrder_pos
  unfold pageFreeHashIndex
  dsimp only
  split <;> split <;> omega

def Store.Fits (s : Store Z P) (n : ℕ) (left : P → ℕ) (p : P) : Prop := n + left p ≤ s.ulCount p

theorem better_of_fits (fit : Option (P × ℕ)) (h : s.Fits n left q) :
    ∃ p f, s.better n left fit q = some (p, f) ∧ f ≤ s.ulCount q - n ∧
      ∀ p' f', fit = some (p', f') → f ≤ f' := by
  have henough : s.ulCount q ≥ n + left q := h
  unfold Store.better
  rw [if_pos henough]
  rcases fit with _ | ⟨p', f'⟩
  · exact ⟨q, s.ulCount q - n, rfl, le_rfl, nofun⟩
  · dsimp only
    split
    · rename_i hlt
      refine ⟨q, s.ulCount q - n, rfl, le_rfl, ?_⟩
      rintro _ _ ⟨⟩
      exact hlt.le
    · rename_i hge
      refine ⟨p', f', rfl, Nat.le_of_not_lt hge, ?_⟩
      rintro _ _ ⟨⟩
      exact le_rfl

theorem better_of_not_fits {fit : Option (P × ℕ)} (h : ¬ s.Fits n left q) :
    s.better n left fit q = fit := if_neg h

theorem foldl_better_least (fit : Option (P × ℕ)) :
    (l.foldl (s.better n left) fit = none ↔ fit = none ∧ ∀ q ∈ l, ¬ s.Fits n left q) ∧
      ∀ p f, l.foldl (s.better n left) fit = some (p, f) →
        (∀ q ∈ l, s.Fits n left q → f ≤ s.ulCount q - n) ∧
        ∀ p' f', fit = some (p', f') → f ≤ f' := by
  induction l generalizing fit with
  | nil =>
    refine ⟨by simp, fun p f hfit => ⟨by simp, fun p' f' hfit' => ?_⟩⟩
    have heq : some (p, f) = some (p', f') := hfit.symm.trans hfit'
    simp only [Option.some.injEq, Prod.mk.injEq] at heq
    exact heq.2.le
  | cons q l ih =>
    obtain ⟨hnone, hsome⟩ := ih (s.better n left fit q)
    rw [List.foldl_cons]
    by_cases hq : s.Fits n left q
    · obtain ⟨p', f', hbetter, hf', hfit'⟩ := better_of_fits fit hq
      constructor
      · rw [hnone, hbetter]
        simp [hq]
      · intro p f hfold
        obtain ⟨hrest, hbefore⟩ := hsome p f hfold
        have hle := hbefore p' f' hbetter
        constructor
        · intro x hx hfits
          rcases List.mem_cons.mp hx with rfl | hx
          · exact hle.trans hf'
          · exact hrest x hx hfits
        · exact fun p'' f'' h => hle.trans (hfit' p'' f'' h)
    · rw [better_of_not_fits hq] at hnone hsome ⊢
      constructor
      · rw [hnone]
        simp [hq]
      · intro p f hfold
        obtain ⟨hrest, hbefore⟩ := hsome p f hfold
        refine ⟨fun x hx hfits => ?_, hbefore⟩
        rcases List.mem_cons.mp hx with rfl | hx
        · exact absurd hfits hq
        · exact hrest x hx hfits

theorem search_none {orders : ℕ} (h : s.search z n left orders i = none) (hij : i ≤ j)
    (hj : j < i + orders) : ∀ q ∈ s.area z j, ¬ s.Fits n left q := by
  induction orders generalizing i with
  | zero => omega
  | succ orders ih =>
    unfold Store.search at h
    split at h
    · exact nomatch h
    · rename_i hfold
      rcases Nat.eq_or_lt_of_le hij with rfl | hlt
      · exact ((foldl_better_least none).1.mp hfold).2
      · exact ih h hlt (by omega)

theorem search_least {orders f : ℕ} (h : s.search z n left orders i = some (j, p, f)) :
    i ≤ j ∧ (∀ k, i ≤ k → k < j → ∀ q ∈ s.area z k, ¬ s.Fits n left q) ∧
      ∀ q ∈ s.area z j, s.Fits n left q → f ≤ s.ulCount q - n := by
  induction orders generalizing i with
  | zero => exact nomatch h
  | succ orders ih =>
    unfold Store.search at h
    split at h
    · rename_i hfold
      simp only [Option.some.injEq, Prod.mk.injEq] at h
      obtain ⟨rfl, rfl, rfl⟩ := h
      exact ⟨le_rfl, fun k hik hki => by omega, (((foldl_better_least none).2 _ _ hfold).1)⟩
    · rename_i hfold
      obtain ⟨hij, hbefore, hbest⟩ := ih h
      refine ⟨by omega, fun k hik hkj => ?_, hbest⟩
      rcases Nat.eq_or_lt_of_le hik with rfl | hlt
      · exact ((foldl_better_least none).1.mp hfold).2
      · exact hbefore k hlt hkj

theorem Zone.searched (h : Zone cfg s z blocks) (hq : q ∈ s.freeBlocks blocks)
    (hfits : s.Fits n left q) :
    q ∈ s.area z (pageFreeHashIndex cfg (s.ulCount q)) ∧
      pageFreeHashIndex cfg n ≤ pageFreeHashIndex cfg (s.ulCount q) := by
  refine ⟨(h.mem_area (pageFreeHashIndex_lt _) q).mpr ⟨hq, rfl⟩, pageFreeHashIndex_mono ?_⟩
  unfold Store.Fits at hfits
  omega

theorem Zone.search_none_iff (h : Zone cfg s z blocks) :
    s.search z n left (cfg.maxOrder - pageFreeHashIndex cfg n) (pageFreeHashIndex cfg n) = none ↔
      ∀ q ∈ s.freeBlocks blocks, ¬ s.Fits n left q := by
  constructor
  · intro hnone q hq hfits
    obtain ⟨harea, hle⟩ := h.searched hq hfits
    have hlt : pageFreeHashIndex cfg (s.ulCount q) < cfg.maxOrder := pageFreeHashIndex_lt _
    exact search_none hnone hle (by omega) q harea hfits
  · intro hall
    by_contra hsome
    obtain ⟨⟨j, p, f⟩, hfound⟩ := Option.ne_none_iff_exists'.mp hsome
    obtain ⟨⟨l, t, rfl⟩, hfree, -, hfits, -⟩ := h.search hfound
    exact hall p ⟨by simp, hfree⟩ hfits

theorem Zone.search_best (h : Zone cfg s z blocks) {f : ℕ}
    (hfound : s.search z n left (cfg.maxOrder - pageFreeHashIndex cfg n)
      (pageFreeHashIndex cfg n) = some (j, p, f))
    (hq : q ∈ s.freeBlocks blocks) (hfits : s.Fits n left q) : s.ulCount p ≤ s.ulCount q := by
  obtain ⟨-, -, hindex, hpfits, rfl⟩ := h.search hfound
  obtain ⟨-, hbefore, hbest⟩ := search_least hfound
  obtain ⟨harea, hle⟩ := h.searched hq hfits
  by_contra hlt
  have hmono : pageFreeHashIndex cfg (s.ulCount q) ≤ j :=
    hindex ▸ pageFreeHashIndex_mono (Nat.le_of_not_le hlt)
  rcases Nat.eq_or_lt_of_le hmono with heq | hlt'
  · have hleast := hbest q (heq ▸ harea) hfits
    unfold Store.Fits at hfits
    omega
  · exact hbefore _ hle hlt' q harea hfits

theorem or_two_pow_sub_one (a x : ℕ) : (x ||| (2 ^ a - 1)) + 1 = 2 ^ a * (x / 2 ^ a) + 2 ^ a := by
  have hmask : 2 ^ a - 1 < 2 ^ a := Nat.sub_lt (Nat.two_pow_pos a) Nat.one_pos
  have hor : x ||| (2 ^ a - 1) = 2 ^ a * (x / 2 ^ a) ||| (2 ^ a - 1) := by
    apply Nat.eq_of_testBit_eq
    intro i
    simp only [Nat.testBit_or, Nat.testBit_two_pow_sub_one, Nat.testBit_two_pow_mul,
      Nat.testBit_div_two_pow]
    by_cases hi : i < a
    · simp [hi]
    · simp [hi, Nat.le_of_not_lt hi]
  rw [hor, ← Nat.two_pow_add_eq_or_of_lt hmask]
  omega

theorem leftFreePageNum_least {stAlign ulPageAddr : ℕ} (hpos : stAlign ≠ 0)
    (hpow : stAlign &&& (stAlign - 1) = 0) (hpage : 2 ^ cfg.pageShift ∣ ulPageAddr) :
    stAlign ∣ ulPageAddr + leftFreePageNum cfg stAlign ulPageAddr <<< cfg.pageShift ∧
      ∀ k, stAlign ∣ ulPageAddr + k <<< cfg.pageShift →
        leftFreePageNum cfg stAlign ulPageAddr ≤ k := by
  obtain ⟨a, rfl⟩ := (Nat.and_sub_one_eq_zero_iff_isPowerOfTwo hpos).mp hpow
  unfold leftFreePageNum
  dsimp only
  rw [Nat.and_two_pow_sub_one_eq_mod]
  split
  · rename_i haligned
    refine ⟨?_, fun k _ => Nat.zero_le k⟩
    rw [Nat.zero_shiftLeft, Nat.add_zero]
    exact Nat.dvd_of_mod_eq_zero haligned
  · rename_i hrest
    -- a page is smaller than the alignment: else every page is aligned
    have hshift : cfg.pageShift ≤ a := by
      by_contra hlt
      have hdvd : 2 ^ a ∣ ulPageAddr := (Nat.pow_dvd_pow 2 (by omega)).trans hpage
      exact hrest (Nat.mod_eq_zero_of_dvd hdvd)
    have hsplit := Nat.div_add_mod ulPageAddr (2 ^ a)
    have hlt := Nat.mod_lt ulPageAddr (Nat.two_pow_pos a)
    have hgap : (ulPageAddr ||| (2 ^ a - 1)) + 1 - ulPageAddr = 2 ^ a - ulPageAddr % 2 ^ a := by
      rw [or_two_pow_sub_one]
      omega
    have hpages : 2 ^ cfg.pageShift ∣ 2 ^ a - ulPageAddr % 2 ^ a := by
      have hdvd := Nat.pow_dvd_pow 2 hshift
      exact Nat.dvd_sub hdvd ((Nat.dvd_mod_iff hdvd).mpr hpage)
    rw [hgap, Nat.shiftRight_eq_div_pow, Nat.shiftLeft_eq, Nat.div_mul_cancel hpages]
    constructor
    · refine ⟨ulPageAddr / 2 ^ a + 1, ?_⟩
      rw [Nat.mul_add]
      omega
    · intro k hk
      rw [Nat.shiftLeft_eq] at hk
      apply Nat.div_le_of_le_mul
      -- the rest of the address up to the next aligned one has to be passed
      by_contra hshort
      have hk' : 2 ^ a ∣ ulPageAddr % 2 ^ a + k * 2 ^ cfg.pageShift := by
        rw [← hsplit, Nat.add_assoc] at hk
        exact (Nat.dvd_add_right (Nat.dvd_mul_right _ _)).mp hk
      have hreach := Nat.le_of_dvd (by omega) hk'
      rw [Nat.mul_comm] at hshort
      omega

theorem Zone.page_dvd (h : Zone cfg s z blocks) (hbase : 2 ^ cfg.pageShift ∣ s.ulAddr z)
    (hq : q ∈ blocks) : 2 ^ cfg.pageShift ∣ s.ulPageAddr q := by
  refine h.covers.dvd hbase (fun a _ => ?_) q hq
  rw [Nat.shiftLeft_eq]
  exact Nat.dvd_mul_left _ _

def Store.HasAligned (cfg : Config) (s : Store Z P) (n stAlign : ℕ) (q : P) : Prop :=
  ∃ k, k + n ≤ s.ulCount q ∧ stAlign ∣ s.ulPageAddr q + k <<< cfg.pageShift

theorem hasAligned_iff {stAlign : ℕ} (hpos : stAlign ≠ 0) (hpow : stAlign &&& (stAlign - 1) = 0)
    (hpage : 2 ^ cfg.pageShift ∣ s.ulPageAddr q) :
    s.HasAligned cfg n stAlign q ↔
      s.Fits n (fun p => leftFreePageNum cfg stAlign (s.ulPageAddr p)) q := by
  obtain ⟨haligned, hleast⟩ := leftFreePageNum_least hpos hpow hpage
  unfold Store.Fits
  constructor
  · rintro ⟨k, hk, hdvd⟩
    have hle := hleast k hdvd
    dsimp only
    omega
  · intro hfits
    refine ⟨_, ?_, haligned⟩
    dsimp only at hfits
    omega

section Allocate

variable [DecidableEq Z] [DecidableEq P]

theorem pageAllocate_none_iff (h : Zone cfg s z blocks) (n : ℕ) (ty : PageType) (new : P) :
    (pageAllocate cfg s z n ty (some new)).1 = none ↔
      ∀ q ∈ s.freeBlocks blocks, s.ulCount q < n := by
  have hnone : s.search z n (fun _ => 0) _ _ = none ↔ _ := h.search_none_iff
  have hfits : ∀ q, s.Fits n (fun _ => 0) q ↔ n ≤ s.ulCount q := fun q => Iff.rfl
  simp only [hfits, Nat.not_le] at hnone
  rw [← hnone]
  unfold pageAllocate
  dsimp only
  split
  · rename_i hsearch
    simp [hsearch]
  · rename_i hsearch
    rw [hsearch]
    split <;> simp

theorem pageAllocate_best (h : Zone cfg s z blocks) (hnew : s.allocated new = false)
    {ty : PageType} (halloc : pageAllocate cfg s z n ty (some new) = (some p, s')) :
    p ∈ s.freeBlocks blocks ∧ n ≤ s.ulCount p ∧
      (∀ q ∈ s.freeBlocks blocks, n ≤ s.ulCount q → s.ulCount p ≤ s.ulCount q) ∧
      s'.ulPageAddr p = s.ulPageAddr p ∧ s'.ulCount p = n ∧ s'.bUsed p = true := by
  unfold pageAllocate at halloc
  dsimp only at halloc
  split at halloc
  · exact nomatch halloc
  · rename_i i fit f hfound
    obtain ⟨⟨l, t, rfl⟩, hfree, -, hfit, rfl⟩ := h.search hfound
    have hin : fit ∈ l ++ fit :: t := by simp
    have hne : fit ≠ new := fun e => h.fresh hnew (e ▸ hin)
    have hbest := fun q hq => h.search_best (q := q) hfound hq
    split at halloc
    · simp only [Prod.mk.injEq, Option.some.injEq] at halloc
      obtain ⟨rfl, rfl⟩ := halloc
      refine ⟨⟨hin, hfree⟩, hfit, hbest, ?_⟩
      simp [Store.setFreePage, Store.pageAddToFreeHash, Store.areaAdd, Store.areaDel,
        Store.pageStructSeparate, Store.setUsed, Store.pageCbAlloc, hne]
    · simp only [Prod.mk.injEq, Option.some.injEq] at halloc
      obtain ⟨rfl, rfl⟩ := halloc
      have hwhole : s.ulCount fit = n := by omega
      refine ⟨⟨hin, hfree⟩, hfit, hbest, ?_⟩
      simp [Store.setFreePage, Store.areaDel, Store.setUsed, hwhole]

theorem pageAllocateAlign_none_iff (h : Zone cfg s z blocks)
    (hbase : 2 ^ cfg.pageShift ∣ s.ulAddr z) (n : ℕ) {stAlign : ℕ} (hpos : stAlign ≠ 0)
    (hpow : stAlign &&& (stAlign - 1) = 0) (ty : PageType) (left right : P) :
    (pageAllocateAlign cfg s z n stAlign ty (some left) (some right)).1 = none ↔
      ∀ q ∈ s.freeBlocks blocks, ¬ s.HasAligned cfg n stAlign q := by
  have hnone : s.search z n (fun p => leftFreePageNum cfg stAlign (s.ulPageAddr p)) _ _ = none ↔ _ :=
    h.search_none_iff
  have haligned : (∀ q ∈ s.freeBlocks blocks, ¬ s.HasAligned cfg n stAlign q) ↔
      ∀ q ∈ s.freeBlocks blocks,
        ¬ s.Fits n (fun p => leftFreePageNum cfg stAlign (s.ulPageAddr p)) q :=
    forall₂_congr fun q hq => not_congr (hasAligned_iff hpos hpow (h.page_dvd hbase hq.1))
  rw [haligned, ← hnone]
  unfold pageAllocateAlign
  dsimp only
  split
  · rename_i hsearch
    simp [hsearch]
  · rename_i hsearch
    rw [hsearch]
    split <;> split <;> simp

theorem pageAllocateAlign_part (h : Zone cfg s z blocks) (hbase : 2 ^ cfg.pageShift ∣ s.ulAddr z)
    {left right : P} (hleft : s.allocated left = false) (hright : s.allocated right = false)
    (hne : left ≠ right) {stAlign : ℕ} (hpos : stAlign ≠ 0)
    (hpow : stAlign &&& (stAlign - 1) = 0) {ty : PageType}
    (halloc : pageAllocateAlign cfg s z n stAlign ty (some left) (some right) = (some p, s')) :
    stAlign ∣ s'.ulPageAddr p ∧ s'.ulCount p = n ∧ s'.bUsed p = true ∧
      ∃ q ∈ s.freeBlocks blocks, ∃ k, k + n ≤ s.ulCount q ∧
        s'.ulPageAddr p = s.ulPageAddr q + k <<< cfg.pageShift := by
  unfold pageAllocateAlign at halloc
  dsimp only at halloc
  split at halloc
  · exact nomatch halloc
  · rename_i i fit f hfound
    obtain ⟨⟨l, t, rfl⟩, hfree, -, hfit, rfl⟩ := h.search hfound
    have hin : fit ∈ l ++ fit :: t := by simp
    have hfitleft : fit ≠ left := fun e => h.fresh hleft (e ▸ hin)
    have hfitright : fit ≠ right := fun e => h.fresh hright (e ▸ hin)
    have haligned := (leftFreePageNum_least hpos hpow (h.page_dvd hbase hin)).1
    obtain ⟨k, hk⟩ : ∃ k, leftFreePageNum cfg stAlign (s.ulPageAddr fit) = k := ⟨_, rfl⟩
    simp only [hk] at halloc hfit haligned
    have hroom : k + n ≤ s.ulCount fit := by omega
    -- whichever ends are cut off, the block is the pages of `fit` from the `k`-th on
    suffices hpart : s'.ulPageAddr p = s.ulPageAddr fit + k <<< cfg.pageShift ∧ s'.ulCount p = n ∧
        s'.bUsed p = true by
      obtain ⟨haddr, hcount, hused⟩ := hpart
      exact ⟨haddr ▸ haligned, hcount, hused, fit, ⟨hin, hfree⟩, k, hroom, haddr⟩
    split at halloc
    · split at halloc <;> simp only [Prod.mk.injEq, Option.some.injEq] at halloc <;>
        obtain ⟨rfl, rfl⟩ := halloc
      · simp [Store.setFreePage, Store.cutLeft, Store.cutRight, Store.pageAddToFreeHash,
          Store.areaAdd, Store.areaDel, Store.pageStructSeparate, Store.setUsed, Store.pageCbAlloc,
          hne]
      · have hrest : s.ulCount fit - k = n := by omega
        simp [Store.setFreePage, Store.cutLeft, Store.pageAddToFreeHash, Store.areaAdd,
          Store.areaDel, Store.pageStructSeparate, Store.setUsed, Store.pageCbAlloc, hfitleft.symm,
          hrest]
    · rename_i hzero
      obtain rfl : k = 0 := by simpa using hzero
      split at halloc <;> simp only [Prod.mk.injEq, Option.some.injEq] at halloc <;>
        obtain ⟨rfl, rfl⟩ := halloc
      · simp [Store.setFreePage, Store.cutRight, Store.pageAddToFreeHash, Store.areaAdd,
          Store.areaDel, Store.pageStructSeparate, Store.setUsed, Store.pageCbAlloc, hfitright]
      · have hwhole : s.ulCount fit = n := by omega
        simp [Store.setFreePage, Store.areaDel, Store.setUsed, hwhole]

/-- The two allocations, when there are control blocks: one takes the front of a smallest free
block that is large enough, the other an aligned part of a free block, and each fails only where
there is no such block. -/
theorem allocations_fit (h : Zone cfg s z blocks) (hbase : 2 ^ cfg.pageShift ∣ s.ulAddr z)
    {left right : P} (hleft : s.allocated left = false) (hright : s.allocated right = false)
    (hne : left ≠ right) (n : ℕ) {stAlign : ℕ} (hpos : stAlign ≠ 0)
    (hpow : stAlign &&& (stAlign - 1) = 0) (ty : PageType) :
    ((pageAllocate cfg s z n ty (some left)).1 = none ↔
      ∀ q ∈ s.freeBlocks blocks, s.ulCount q < n) ∧
    (∀ p s', pageAllocate cfg s z n ty (some left) = (some p, s') →
      p ∈ s.freeBlocks blocks ∧ n ≤ s.ulCount p ∧
      (∀ q ∈ s.freeBlocks blocks, n ≤ s.ulCount q → s.ulCount p ≤ s.ulCount q) ∧
      s'.ulPageAddr p = s.ulPageAddr p ∧ s'.ulCount p = n ∧ s'.bUsed p = true) ∧
    ((pageAllocateAlign cfg s z n stAlign ty (some left) (some right)).1 = none ↔
      ∀ q ∈ s.freeBlocks blocks, ¬ s.HasAligned cfg n stAlign q) ∧
    ∀ p s', pageAllocateAlign cfg s z n stAlign ty (some left) (some right) = (some p, s') →
      stAlign ∣ s'.ulPageAddr p ∧ s'.ulCount p = n ∧ s'.bUsed p = true ∧
      ∃ q ∈ s.freeBlocks blocks, ∃ k, k + n ≤ s.ulCount q ∧
        s'.ulPageAddr p = s.ulPageAddr q + k <<< cfg.pageShift := by
  refine ⟨pageAllocate_none_iff h n ty left, ?_, ?_, ?_⟩
  · exact fun p s' halloc => pageAllocate_best h hleft halloc
  · exact pageAllocateAlign_none_iff h hbase n hpos hpow ty left right
  · exact fun p s' halloc => pageAllocateAlign_part h hbase hleft hright hne hpos hpow halloc

end Allocate

def smallConfig : Config := ⟨3, 2, by decide⟩

def bootStore : Store Unit ℕ :=
  Store.boot
    { lineFreeHash := ⟨fun _ => none, fun _ => none⟩
      lineManage := ⟨fun _ => none, fun _ => none⟩
      ulCount := fun _ => 0
      ulPageAddr := fun _ => 0
      iPageType := fun _ => .physical
      bUsed := fun _ => false
      pvmzoneOwner := fun _ => ()
      allocated := fun _ => false
      created := fun _ => false
      ulFreePage := fun _ => 0
      ulAddr := fun _ => 0
      stSize := fun _ => 0
      lineFreeHeader := fun _ _ => none
      faCount := fun _ _ => 0 }

def smallStore : Store Unit ℕ := pageZoneCreate smallConfig bootStore () 8 128 .physical (some 0)

theorem smallStore_ok : smallStore.Ok smallConfig := by
  refine Store.Ok.create (.boot _) rfl ?_ 8 128 .physical
  rintro p ⟨⟩
  rfl

/-- Three pages at a multiple of 16, in a zone that starts at 8 -/
theorem allocations_fit_small : ∃ blocks, Zone smallConfig smallStore () blocks ∧
    ∃ p s', pageAllocateAlign smallConfig smallStore () 3 16 .physical (some 1) (some 2) =
      (some p, s') ∧ 16 ∣ s'.ulPageAddr p ∧ s'.ulCount p = 3 := by
  obtain ⟨blocks, h⟩ := smallStore_ok.zone (z := ()) rfl
  have hbase : 2 ^ smallConfig.pageShift ∣ smallStore.ulAddr () := by decide
  have hleft : smallStore.allocated 1 = false := rfl
  have hright : smallStore.allocated 2 = false := rfl
  have hpow : 16 &&& (16 - 1) = 0 := by decide
  have hfits := allocations_fit h hbase hleft hright (by decide) 3 (by decide) hpow .physical
  have hpart := hfits.2.2.2 1 _ rfl
  exact ⟨blocks, h, 1, _, rfl, hpart.1, hpart.2.1⟩

end SylixOS.PageLib
