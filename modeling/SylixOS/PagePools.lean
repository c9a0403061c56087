import SylixOS.PageFit

/-! Where the control blocks of the pages come from, and where they go when a call fails:
to a list or to the kernel heap, as the block itself says. -/

namespace SylixOS.PageLib
open LinkedChain ListLink

variable {Z P : Type*} [DecidableEq Z] [DecidableEq P]

structure Pools (P : Type*) where
  phyPageFreeList : List P
  /-- The blocks that the kernel heap has given out. -/
  kheap : P → Bool

def Pools.pageCbAlloc (c : Pools P) (iPageType : PageType) (answer : Option P) :
    Option P × Pools P :=
  match iPageType with
  | .physical =>
    match c.phyPageFreeList with
    | [] => (none, c)
    | p :: rest => (some p, { c with phyPageFreeList := rest })
  | .virtual =>
    match answer with
    | none => (none, c)
    | some p => (some p, { c with kheap := Function.update c.kheap p true })

def Pools.pageCbFree (c : Pools P) (p : P) (iPageType : PageType) : Pools P :=
  match iPageType with
  | .physical => { c with phyPageFreeList := p :: c.phyPageFreeList }
  | .virtual => { c with kheap := Function.update c.kheap p false }

section Calls

variable (cfg : Config) (s : Store Z P) (c : Pools P)

def pageAllocateFrom (z : Z) (ulPageNum : ℕ) (iPageType : PageType) (answer : Option P) :
    Option P × Store Z P × Pools P :=
  let iHashIndex := pageFreeHashIndex cfg ulPageNum
  match s.search z ulPageNum (fun _ => 0) (cfg.maxOrder - iHashIndex) iHashIndex with
  | none => (none, s, c)
  | some (_, _, ulFit) =>
    if ulFit ≠ 0 then
      match c.pageCbAlloc iPageType answer with
      | (none, c) => (none, s, c)
      | (some new, c) =>
        let (fit, s) := pageAllocate cfg s z ulPageNum iPageType (some new)
        (fit, s, c)
    else
      let (fit, s) := pageAllocate cfg s z ulPageNum iPageType none
      (fit, s, c)

def pageAllocateAlignFrom (z : Z) (ulPageNum stAlign : ℕ) (iPageType : PageType)
    (answerLeft answerRight : Option P) : Option P × Store Z P × Pools P :=
  let iHashIndex := pageFreeHashIndex cfg ulPageNum
  let left := fun p => leftFreePageNum cfg stAlign (s.ulPageAddr p)
  match s.search z ulPageNum left (cfg.maxOrder - iHashIndex) iHashIndex with
  | none => (none, s, c)
  | some (_, fit, ulFit) =>
    let ulLeft := left fit
    if ulLeft ≠ 0 then
      match c.pageCbAlloc iPageType answerLeft with
      | (none, c) => (none, s, c)
      | (some newLeft, c) =>
        if ulFit ≠ ulLeft then
          match c.pageCbAlloc iPageType answerRight with
          | (none, c) =>
            -- the block goes where its field says, and nothing was written to this field yet
            (none, (s.pageCbAlloc newLeft).pageCbFree newLeft,
              c.pageCbFree newLeft (s.iPageType newLeft))
          | (some newRight, c) =>
            let (fit, s) := pageAllocateAlign cfg s z ulPageNum stAlign iPageType (some newLeft)
              (some newRight)
            (fit, s, c)
        else
          let (fit, s) := pageAllocateAlign cfg s z ulPageNum stAlign iPageType (some newLeft) none
          (fit, s, c)
    else if ulFit ≠ ulLeft then
      match c.pageCbAlloc iPageType answerRight with
      | (none, c) => (none, s, c)
      | (some newRight, c) =>
        let (fit, s) := pageAllocateAlign cfg s z ulPageNum stAlign iPageType none (some newRight)
        (fit, s, c)
    else
      let (fit, s) := pageAllocateAlign cfg s z ulPageNum stAlign iPageType none none
      (fit, s, c)

def pageExpandFrom (p : P) (ulExpPageNum : ℕ) (answer : Option P) : Result × Store Z P × Pools P :=
  if s.iPageType p ≠ .virtual then (.vmmPageInval, s, c)
  else
    match s.lineManage.next p with
    | none => (.vmmLowPage, s, c)
    | some r =>
      if s.bUsed r ∨ s.ulCount r < ulExpPageNum then (.vmmLowPage, s, c)
      else if s.ulCount r > ulExpPageNum then
        match c.pageCbAlloc (s.iPageType r) answer with
        | (none, c) => (.kernelLowMemory, s, c)
        | (some new, c) =>
          let (result, s) := pageExpand cfg s p ulExpPageNum (some new)
          (result, s, c.pageCbFree r (s.iPageType r))
      else
        let (result, s) := pageExpand cfg s p ulExpPageNum none
        (result, s, c.pageCbFree r (s.iPageType r))

end Calls

variable {cfg : Config} {s : Store Z P} {c c' : Pools P} {z : Z} {p new : P} {n stAlign : ℕ}
  {ty : PageType} {answer answerLeft answerRight : Option P}

structure Pools.Idle (c : Pools P) (s : Store Z P) (answer : Option P) : Prop where
  nodup : c.phyPageFreeList.Nodup
  listed : ∀ p ∈ c.phyPageFreeList, s.allocated p = false
  heap : ∀ p ∈ answer, s.allocated p = false ∧ c.kheap p = false

theorem pageCbAlloc_cases (c : Pools P) (ty : PageType) (answer : Option P) :
    c.pageCbAlloc ty answer = (none, c) ∨
      ∃ new c', c.pageCbAlloc ty answer = (some new, c') := by
  unfold Pools.pageCbAlloc
  cases ty with
  | physical =>
    rcases c.phyPageFreeList with _ | ⟨p, rest⟩
    · exact Or.inl rfl
    · exact Or.inr ⟨p, _, rfl⟩
  | «virtual» =>
    cases answer with
    | none => exact Or.inl rfl
    | some p => exact Or.inr ⟨p, _, rfl⟩

omit [DecidableEq Z] in
theorem pageCbFree_eq_iff (hidle : c.Idle s answer)
    (halloc : c.pageCbAlloc ty answer = (some new, c')) (stale : PageType) :
    c'.pageCbFree new stale = c ↔ stale = ty := by
  unfold Pools.pageCbAlloc at halloc
  cases ty with
  | physical =>
    rcases hlist : c.phyPageFreeList with _ | ⟨p, rest⟩ <;> rw [hlist] at halloc
    · exact nomatch halloc
    · simp only [Prod.mk.injEq, Option.some.injEq] at halloc
      obtain ⟨rfl, rfl⟩ := halloc
      cases stale with
      | physical => simp [Pools.pageCbFree, ← hlist]
      | «virtual» =>
        refine iff_of_false (fun heq => ?_) nofun
        -- the list is one block short
        have hshort := congrArg (fun c => c.phyPageFreeList.length) heq
        simp [Pools.pageCbFree, hlist] at hshort
  | «virtual» =>
    cases answer with
    | none => exact nomatch halloc
    | some p =>
      simp only [Prod.mk.injEq, Option.some.injEq] at halloc
      obtain ⟨rfl, rfl⟩ := halloc
      cases stale with
      | physical =>
        refine iff_of_false (fun heq => ?_) nofun
        -- the list is one block longer
        have hlong := congrArg (fun c => c.phyPageFreeList.length) heq
        simp [Pools.pageCbFree] at hlong
      | «virtual» =>
        have hfree := (hidle.heap p rfl).2
        simp [Pools.pageCbFree, ← hfree]

omit [DecidableEq Z] in
theorem pageCbAlloc_fresh (hidle : c.Idle s answer)
    (halloc : c.pageCbAlloc ty answer = (some new, c')) : s.allocated new = false := by
  unfold Pools.pageCbAlloc at halloc
  cases ty with
  | physical =>
    rcases hlist : c.phyPageFreeList with _ | ⟨p, rest⟩ <;> rw [hlist] at halloc
    · exact nomatch halloc
    · obtain rfl : p = new := by simpa using congrArg Prod.fst halloc
      exact hidle.listed p (by simp [hlist])
  | «virtual» =>
    cases answer with
    | none => exact nomatch halloc
    | some p =>
      obtain rfl : p = new := by simpa using congrArg Prod.fst halloc
      exact (hidle.heap p rfl).1

def Untouched {R : Type*} (r : R × Store Z P × Pools P) (failed : R → Prop) (s : Store Z P)
    (c : Pools P) : Prop :=
  failed r.1 → r.2 = (s, c)

theorem pageAllocateFrom_untouched :
    Untouched (pageAllocateFrom cfg s c z n ty answer) (· = none) s c := by
  intro hfail
  unfold pageAllocateFrom at hfail ⊢
  dsimp only at hfail ⊢
  cases hfound : s.search z n (fun _ => 0) (cfg.maxOrder - pageFreeHashIndex cfg n)
      (pageFreeHashIndex cfg n) with
  | none => rfl
  | some found =>
    obtain ⟨i, fit, f⟩ := found
    simp only [hfound] at hfail ⊢
    split
    · rename_i hcut
      rw [if_pos hcut] at hfail
      rcases pageCbAlloc_cases c ty answer with hc | ⟨new, c', hc⟩
      · rw [hc]
      · simp [hc, pageAllocate, hfound, hcut] at hfail
    · rename_i hwhole
      rw [if_neg hwhole] at hfail
      simp [pageAllocate, hfound, hwhole] at hfail

theorem pageExpandFrom_untouched :
    Untouched (pageExpandFrom cfg s c p n answer) (· ≠ .none) s c := by
  intro hfail
  unfold pageExpandFrom at hfail ⊢
  split
  · rfl
  rename_i hvirtual
  rw [if_neg hvirtual] at hfail
  cases hnext : s.lineManage.next p with
  | none => rfl
  | some r =>
    simp only [hnext] at hfail ⊢
    split
    · rfl
    rename_i hroom
    rw [if_neg hroom] at hfail
    split
    · rename_i hcut
      rw [if_pos hcut] at hfail
      rcases pageCbAlloc_cases c (s.iPageType r) answer with hc | ⟨new, c', hc⟩
      · rw [hc]
      · simp [hc, pageExpand, hvirtual, hnext, hroom, hcut] at hfail
    · rename_i hwhole
      rw [if_neg hwhole] at hfail
      simp [pageExpand, hvirtual, hnext, hroom, hwhole] at hfail

/-- An aligned allocation that has to cut a block at both ends gets one control block and no
second one, and the field `PAGE_iPageType` of the first still holds another type. -/
def Store.StaleLeft (cfg : Config) (s : Store Z P) (c : Pools P) (z : Z) (n stAlign : ℕ)
    (ty : PageType) (answerLeft answerRight : Option P) : Prop :=
  ∃ i fit ulFit newLeft c',
    s.search z n (fun p => leftFreePageNum cfg stAlign (s.ulPageAddr p))
      (cfg.maxOrder - pageFreeHashIndex cfg n) (pageFreeHashIndex cfg n) = some (i, fit, ulFit) ∧
    leftFreePageNum cfg stAlign (s.ulPageAddr fit) ≠ 0 ∧
    ulFit ≠ leftFreePageNum cfg stAlign (s.ulPageAddr fit) ∧
    c.pageCbAlloc ty answerLeft = (some newLeft, c') ∧
    (c'.pageCbAlloc ty answerRight).1 = none ∧ s.iPageType newLeft ≠ ty

theorem pageAllocateAlignFrom_untouched_iff (hidle : c.Idle s answerLeft) :
    Untouched (pageAllocateAlignFrom cfg s c z n stAlign ty answerLeft answerRight) (· = none) s c ↔
      ¬ s.StaleLeft cfg c z n stAlign ty answerLeft answerRight := by
  unfold Untouched Store.StaleLeft pageAllocateAlignFrom
  dsimp only
  cases hfound : s.search z n (fun p => leftFreePageNum cfg stAlign (s.ulPageAddr p))
      (cfg.maxOrder - pageFreeHashIndex cfg n) (pageFreeHashIndex cfg n) with
  | none => simp
  | some found =>
    obtain ⟨i, fit, f⟩ := found
    simp only [Option.some.injEq, Prod.mk.injEq]
    by_cases hleft : leftFreePageNum cfg stAlign (s.ulPageAddr fit) = 0
    · -- one control block at most is asked for
      refine iff_of_true (fun hfail => ?_) ?_
      · by_cases hright : f = 0
        · simp [hleft, hright, pageAllocateAlign, hfound] at hfail
        · rcases pageCbAlloc_cases c ty answerRight with hc | ⟨new, c', hc⟩
          · simp [hleft, hright, hc]
          · simp [hleft, hright, hc, pageAllocateAlign, hfound] at hfail
      · rintro ⟨_, fit', f', _, _, ⟨rfl, rfl, rfl⟩, hne, -⟩
        exact hne hleft
    · rw [if_pos hleft]
      rcases pageCbAlloc_cases c ty answerLeft with hc | ⟨new, c', hc⟩
      · simp [hc]
      by_cases hright : f = leftFreePageNum cfg stAlign (s.ulPageAddr fit)
      · simp [hc, hright, pageAllocateAlign, hfound, hleft]
      rcases pageCbAlloc_cases c' ty answerRight with hc' | ⟨new', c'', hc'⟩
      · -- the first one goes back
        have hfresh := pageCbAlloc_fresh hidle hc
        have hback := pageCbFree_eq_iff hidle hc (s.iPageType new)
        simp [hc, hc', hright, hleft, pageCbFree_alloc hfresh, hback]
      · simp [hc, hc', hright, pageAllocateAlign, hfound, hleft]

/-- The calls that fail leave the zones and the pools as they were, all but one: an aligned
allocation whose first control block still holds another type when there is no second one. -/
theorem failed_calls_untouched_iff (hidle : c.Idle s answerLeft) :
    (Untouched (pageAllocateFrom cfg s c z n ty answer) (· = none) s c ∧
      Untouched (pageAllocateAlignFrom cfg s c z n stAlign ty answerLeft answerRight) (· = none)
        s c ∧
      Untouched (pageExpandFrom cfg s c p n answer) (· ≠ .none) s c) ↔
      ¬ s.StaleLeft cfg c z n stAlign ty answerLeft answerRight := by
  rw [← pageAllocateAlignFrom_untouched_iff hidle]
  refine ⟨fun h => h.2.1, fun h => ⟨pageAllocateFrom_untouched, h, pageExpandFrom_untouched⟩⟩

def virtualStore : Store Unit ℕ := pageZoneCreate smallConfig bootStore () 8 128 .virtual (some 0)

def virtualPools : Pools ℕ := ⟨[], fun p => p = 0⟩

theorem virtualPools_idle : virtualPools.Idle virtualStore (some 1) := by
  refine ⟨List.nodup_nil, nofun, ?_⟩
  rintro _ ⟨⟩
  exact ⟨rfl, rfl⟩

/-- Three pages at a multiple of 16: the second control block is there, too. -/
theorem failed_calls_untouched_small :
    Untouched (pageAllocateFrom smallConfig virtualStore virtualPools () 3 .virtual none) (· = none)
      virtualStore virtualPools ∧
    Untouched (pageAllocateAlignFrom smallConfig virtualStore virtualPools () 3 16 .virtual (some 1)
      (some 2)) (· = none) virtualStore virtualPools ∧
    Untouched (pageExpandFrom smallConfig virtualStore virtualPools 0 3 none) (· ≠ .none)
      virtualStore virtualPools := by
  refine (failed_calls_untouched_iff virtualPools_idle).mpr ?_
  rintro ⟨_, _, _, _, _, -, -, -, -, hnone, -⟩
  exact nomatch hnone

/-- The kernel heap gives one control block and no second one: the first goes to the list of the
physical ones, and the heap does not get it back. -/
theorem stale_block_changes_pool :
    ¬ Untouched (pageAllocateAlignFrom smallConfig virtualStore virtualPools () 3 16 .virtual
      (some 1) none) (· = none) virtualStore virtualPools := by
  intro huntouched
  have hfail : (pageAllocateAlignFrom smallConfig virtualStore virtualPools () 3 16 .virtual
    (some 1) none).1 = none := by decide
  have hlist : (pageAllocateAlignFrom smallConfig virtualStore virtualPools () 3 16 .virtual
    (some 1) none).2.2.phyPageFreeList = [1] := by decide
  rw [huntouched hfail] at hlist
  exact nomatch hlist

end SylixOS.PageLib
