import SylixOS.PageMoves
import SylixOS.StepRuns

/-! Every call leaves every zone in order, so this holds in every state of every run. -/

namespace SylixOS.PageLib
open LinkedChain ListLink IntervalTiling StepRuns Function

variable {Z P : Type*} [DecidableEq Z] [DecidableEq P] {cfg : Config} {s s₀ s' : Store Z P} {z : Z}
  {blocks l t old mid : List P} {free idle : Set P} {p q new : P} {i n : ℕ}

omit [DecidableEq P] in
theorem lineWalk_eq {L : Links P} (line : IsLine L (l ++ t)) :
    lineWalk L t.length t.head? = t := by
  induction t generalizing l with
  | nil => rfl
  | cons p t ih =>
    have hnext := line.split.2
    have hrest : IsLine L ((l ++ [p]) ++ t) := by simpa using line
    simp only [List.length_cons, List.head?_cons, lineWalk, hnext, ih hrest]

omit [DecidableEq Z] [DecidableEq P] in
theorem Zone.mem_area (h : Zone cfg s z blocks) (hi : i < cfg.maxOrder) (p : P) :
    p ∈ s.area z i ↔ p ∈ s.freeBlocks blocks ∧ pageFreeHashIndex cfg (s.ulCount p) = i := by
  obtain ⟨k, line, head, number, mem⟩ := h.areas i hi
  have hwalk := lineWalk_eq (l := []) line
  unfold Store.area
  rw [number, head, hwalk]
  exact mem p

omit [DecidableEq Z] [DecidableEq P] in
theorem foldl_better {left : P → ℕ} {fit : Option (P × ℕ)} {f : ℕ}
    (h : l.foldl (s.better n left) fit = some (p, f)) :
    fit = some (p, f) ∨ (p ∈ l ∧ n + left p ≤ s.ulCount p ∧ f = s.ulCount p - n) := by
  induction l generalizing fit with
  | nil => exact Or.inl h
  | cons q l ih =>
    rcases ih h with hfit | ⟨hin, hfit⟩
    · -- either `q` was not better than what was there, or it is the best fit from here on
      have hq : fit = some (p, f) ∨ q = p ∧ n + left q ≤ s.ulCount q ∧ f = s.ulCount q - n := by
        unfold Store.better at hfit
        split at hfit
        · rename_i henough
          split at hfit
          · simp only [Option.some.injEq, Prod.mk.injEq] at hfit
            exact Or.inr ⟨hfit.1, henough, hfit.2.symm⟩
          · split at hfit
            · simp only [Option.some.injEq, Prod.mk.injEq] at hfit
              exact Or.inr ⟨hfit.1, henough, hfit.2.symm⟩
            · exact Or.inl hfit
        · exact Or.inl hfit
      rcases hq with hq | ⟨rfl, hq⟩
      · exact Or.inl hq
      · exact Or.inr ⟨List.mem_cons_self, hq⟩
    · exact Or.inr ⟨List.mem_cons_of_mem q hin, hfit⟩

omit [DecidableEq Z] [DecidableEq P] in
theorem search_spec {left : P → ℕ} {orders j f : ℕ}
    (h : s.search z n left orders i = some (j, p, f)) :
    j < i + orders ∧ p ∈ s.area z j ∧ n + left p ≤ s.ulCount p ∧ f = s.ulCount p - n := by
  induction orders generalizing i with
  | zero => exact nomatch h
  | succ orders ih =>
    unfold Store.search at h
    split at h
    · rename_i q f' hfold
      simp only [Option.some.injEq, Prod.mk.injEq] at h
      obtain ⟨rfl, rfl, rfl⟩ := h
      rcases foldl_better hfold with hnone | hfit
      · exact nomatch hnone
      · exact ⟨by omega, hfit⟩
    · obtain ⟨hj, hfit⟩ := ih h
      exact ⟨by omega, hfit⟩

omit [DecidableEq Z] [DecidableEq P] in
theorem Zone.search (h : Zone cfg s z blocks) {left : P → ℕ} {f : ℕ}
    (hsearch : s.search z n left (cfg.maxOrder - pageFreeHashIndex cfg n)
      (pageFreeHashIndex cfg n) = some (i, p, f)) :
    (∃ l t, blocks = l ++ p :: t) ∧ s.bUsed p = false ∧
      pageFreeHashIndex cfg (s.ulCount p) = i ∧ n + left p ≤ s.ulCount p ∧
      f = s.ulCount p - n := by
  obtain ⟨hlt, harea, hfit⟩ := search_spec hsearch
  have hn : pageFreeHashIndex cfg n < cfg.maxOrder := pageFreeHashIndex_lt n
  obtain ⟨⟨hin, hfree⟩, hindex⟩ := (h.mem_area (by omega) p).mp harea
  exact ⟨List.append_of_mem hin, hfree, hindex, hfit⟩

theorem Work.cutRight (h : Work cfg s₀ z s (l ++ p :: t) free idle) (hp : p ∉ free)
    (hnew : new ∈ idle) (hn : n ≤ s.ulCount p) (ty : PageType) :
    Work cfg s₀ z (s.cutRight cfg z p new n ty) (l ++ p :: new :: t) (insert new free)
      (idle \ {new}) := by
  have hpforeign := (h.native p (by simp)).1
  have hnewforeign := (h.unused new hnew).1
  have hfresh : new ∉ free := fun hin => (h.unused new hnew).2 (h.hashed new hin)
  have hmarked := (h.setUsed hpforeign true).setUsed hnewforeign false
  have hcut := hmarked.separate hp hnew hn ty
  exact hcut.addToFreeHash (by simp) hfresh

theorem Work.cutLeft (h : Work cfg s₀ z s (l ++ p :: t) free idle) (hp : p ∉ free)
    (hnew : new ∈ idle) (hn : n ≤ s.ulCount p) :
    Work cfg s₀ z (s.cutLeft cfg z p new n) (l ++ p :: new :: t) (insert p free)
      (idle \ {new}) := by
  have hpforeign := (h.native p (by simp)).1
  have hnewforeign := (h.unused new hnew).1
  have hmarked := (h.setUsed hpforeign false).setUsed hnewforeign true
  have hcut := hmarked.separate hp hnew hn ((s.setUsed p false).setUsed new true |>.iPageType p)
  exact hcut.addToFreeHash (by simp) hp

@[simp] theorem cutRight_bUsed (ty : PageType) : (s.cutRight cfg z p new n ty).bUsed =
    update (update s.bUsed p true) new false := rfl

@[simp] theorem cutRight_ulCount (ty : PageType) : (s.cutRight cfg z p new n ty).ulCount =
    update (update s.ulCount new (s.ulCount p - n)) p n := rfl

@[simp] theorem cutRight_ulPageAddr (ty : PageType) : (s.cutRight cfg z p new n ty).ulPageAddr =
    update s.ulPageAddr new (s.ulPageAddr p + n <<< cfg.pageShift) := rfl

@[simp] theorem cutLeft_bUsed : (s.cutLeft cfg z p new n).bUsed =
    update (update s.bUsed p false) new true := rfl

@[simp] theorem cutLeft_ulCount : (s.cutLeft cfg z p new n).ulCount =
    update (update s.ulCount new (s.ulCount p - n)) p n := rfl

@[simp] theorem cutLeft_ulPageAddr : (s.cutLeft cfg z p new n).ulPageAddr =
    update s.ulPageAddr new (s.ulPageAddr p + n <<< cfg.pageShift) := rfl

omit [DecidableEq Z] [DecidableEq P] in
theorem Work.close (l t old mid : List P) (h : Work cfg s₀ z s (l ++ (mid ++ t)) free idle)
    (hz : Zone cfg s₀ z (l ++ (old ++ t))) (hidle : ∀ p, p ∉ idle)
    (same : ∀ p ∈ l ++ t, s.bUsed p = s₀.bUsed p ∧ s.ulCount p = s₀.ulCount p)
    (hkeep : ∀ p ∈ l ++ t, p ∈ free ↔ p ∈ s₀.freeBlocks (l ++ (old ++ t)))
    (hmid : ∀ p ∈ mid, p ∈ free ↔ s.bUsed p = false)
    (pages : s.ulFreePage z + s₀.freePages old = s₀.ulFreePage z + s.freePages mid)
    (parted : s.Parted mid) (hne : mid ≠ [])
    (hleft : (∀ p ∈ l.getLast?, s₀.bUsed p = true) ∨ ∀ q ∈ mid.head?, s.bUsed q = true)
    (hright : (∀ q ∈ t.head?, s₀.bUsed q = true) ∨ ∀ p ∈ mid.getLast?, s.bUsed p = true) :
    Zone cfg s z (l ++ (mid ++ t)) ∧ (s₀.Ok cfg → s.Ok cfg) := by
  obtain rfl : idle = ∅ := Set.eq_empty_iff_forall_notMem.mpr hidle
  have hsame : ∀ k ⊆ l ++ t, s.freePages k = s₀.freePages k :=
    fun k hk => freePages_congr fun p hp => same p (hk hp)
  have hassoc : ∀ k : List P, l ++ (k ++ t) = l ++ k ++ t :=
    fun k => (List.append_assoc l k t).symm
  suffices hzone : Zone cfg s z (l ++ (mid ++ t)) from ⟨hzone, h.finish hzone⟩
  refine h.zone (fun p hp => ?_) ?_ ?_
  · rw [List.mem_append, List.mem_append] at hp
    by_cases hin : p ∈ mid
    · exact hmid p hin
    · have hout : p ∈ l ++ t := by
        rw [List.mem_append]
        tauto
      rw [hkeep p hout, (same p hout).1]
      have hmem : p ∈ l ++ (old ++ t) := by
        simp only [List.mem_append] at hout ⊢
        tauto
      exact and_iff_right hmem
  · have hold := hz.freePage
    rw [freePages_append, freePages_append] at hold ⊢
    rw [hsame l (List.subset_append_left l t), hsame t (List.subset_append_right l t)]
    omega
  · have hparted := hz.parted
    rw [hassoc] at hparted ⊢
    obtain ⟨hl, ht⟩ := hparted.sides
    exact hl.fill ht (fun p hp => (same p hp).1) parted hne hleft hright

omit [DecidableEq Z] [DecidableEq P] in
theorem Store.Ok.zone (ok : s.Ok cfg) (hz : s.created z = true) :
    ∃ blocks, Zone cfg s z blocks := by
  have hok := ok z
  rwa [if_pos hz] at hok

omit [DecidableEq Z] [DecidableEq P] in
theorem Zone.fresh (h : Zone cfg s z blocks) (hnew : s.allocated new = false) : new ∉ blocks := by
  intro hin
  rw [((h.owned new).mp hin).1] at hnew
  exact nomatch hnew

omit [DecidableEq Z] [DecidableEq P] in
theorem Zone.others (h : Zone cfg s z (l ++ p :: t)) (hnew : s.allocated new = false) :
    p ≠ new ∧ ∀ q ∈ l ++ t, q ≠ p ∧ q ≠ new := by
  have hfresh := h.fresh hnew
  constructor
  · exact fun e => hfresh (by simp [e])
  · intro q hq
    have hqin : q ∈ l ++ p :: t := (List.sublist_cons_self p t).append_left l |>.subset hq
    exact ⟨h.line.ne_of_around hq, fun e => hfresh (e ▸ hqin)⟩

theorem Zone.takeWhole (hzone : Zone cfg s z (l ++ p :: t)) (hz : s.created z = true)
    (hp : s.bUsed p = false) (hi : pageFreeHashIndex cfg (s.ulCount p) = i) (hn : s.ulCount p = n)
    (hs : ((s.areaDel z i p).setUsed p true).setFreePage z (s.ulFreePage z - n) = s') :
    Zone cfg s' z (l ++ p :: t) ∧ (s.Ok cfg → s'.Ok cfg) := by
  subst hs
  have hin : p ∈ l ++ p :: t := by simp
  have hwork := hzone.work hz
  have hdel := hwork.areaDel (p := p) ⟨hin, hp⟩ hi
  have hused := hdel.setUsed (hwork.native p hin).1 true
  have hdone := hused.setFreePage (s.ulFreePage z - n)
  have hpages := hzone.freePage
  rw [freePages_append, freePages_cons, hp, if_neg (by simp)] at hpages
  have haround : ∀ q ∈ l ++ t, q ≠ p := fun q hq => hzone.line.ne_of_around hq
  refine Work.close l t [p] [p] hdone hzone (fun q => id) ?_ ?_ ?_ ?_ ?_ ?_ ?_ ?_
  · intro q hq
    simp [Store.setFreePage, Store.setUsed, Store.areaDel, haround q hq]
  · intro q hq
    simp [haround q hq]
  · simp [Store.setFreePage, Store.setUsed]
  · simp [Store.setFreePage, Store.setUsed, Store.freePages, hp]
    omega
  · simp [Store.Parted]
  · simp
  · exact Or.inr (by simp [Store.setFreePage, Store.setUsed])
  · exact Or.inr (by simp [Store.setFreePage, Store.setUsed])

theorem Zone.takeCut (hzone : Zone cfg s z (l ++ p :: t)) (hz : s.created z = true)
    (hp : s.bUsed p = false) (hi : pageFreeHashIndex cfg (s.ulCount p) = i) (hn : n ≤ s.ulCount p)
    (hnew : s.allocated new = false) (ty : PageType)
    (hs : (((s.pageCbAlloc new).areaDel z i p).cutRight cfg z p new n ty).setFreePage z
      (s.ulFreePage z - n) = s') :
    Zone cfg s' z (l ++ p :: new :: t) ∧ (s.Ok cfg → s'.Ok cfg) := by
  subst hs
  have hin : p ∈ l ++ p :: t := by simp
  obtain ⟨hpnew, haround⟩ := hzone.others hnew
  have hwork := hzone.work hz
  have hdel := (hwork.alloc hnew).areaDel (p := p) ⟨hin, hp⟩ hi
  have hcut := hdel.cutRight (n := n) (by simp) (Set.mem_insert new ∅) hn ty
  have hdone := hcut.setFreePage (s.ulFreePage z - n)
  have hpages := hzone.freePage
  rw [freePages_append, freePages_cons, hp, if_neg (by simp)] at hpages
  have hsides := hzone.parted.around hp
  refine Work.close l t [p] [p, new] hdone hzone (by simp) ?_ ?_ ?_ ?_ ?_ (by simp) ?_
    (Or.inl hsides.2)
  · intro q hq
    simp [Store.setFreePage, Store.areaDel, Store.pageCbAlloc, haround q hq]
  · intro q hq
    simp [haround q hq]
  · simp [Store.setFreePage, hpnew]
  · simp [Store.setFreePage, Store.areaDel, Store.pageCbAlloc, Store.freePages, hp, hpnew,
      hpnew.symm]
    omega
  · simp [Store.Parted, Store.setFreePage, hpnew]
  · exact Or.inr (by simp [Store.setFreePage, hpnew])

theorem Zone.takeBack (hzone : Zone cfg s z (l ++ p :: t)) (hz : s.created z = true)
    (hp : s.bUsed p = false) (hi : pageFreeHashIndex cfg (s.ulCount p) = i) {k : ℕ}
    (hn : s.ulCount p = n + k) (hnew : s.allocated new = false)
    (hs : ((((s.pageCbAlloc new).areaDel z i p).cutLeft cfg z p new k).setUsed new
      true).setFreePage z (s.ulFreePage z - n) = s') :
    Zone cfg s' z (l ++ p :: new :: t) ∧ (s.Ok cfg → s'.Ok cfg) := by
  subst hs
  have hin : p ∈ l ++ p :: t := by simp
  obtain ⟨hpnew, haround⟩ := hzone.others hnew
  have hwork := hzone.work hz
  have hdel := (hwork.alloc hnew).areaDel (p := p) ⟨hin, hp⟩ hi
  have hk : k ≤ s.ulCount p := by omega
  have hcut := hdel.cutLeft (n := k) (by simp) (Set.mem_insert new ∅) hk
  have hused := hcut.setUsed (hcut.native new (by simp)).1 true
  have hdone := hused.setFreePage (s.ulFreePage z - n)
  have hpages := hzone.freePage
  rw [freePages_append, freePages_cons, hp, if_neg (by simp)] at hpages
  have hsides := hzone.parted.around hp
  refine Work.close l t [p] [p, new] hdone hzone (by simp) ?_ ?_ ?_ ?_ ?_ (by simp)
    (Or.inl hsides.1) ?_
  · intro q hq
    simp [Store.setFreePage, Store.setUsed, Store.areaDel, Store.pageCbAlloc, haround q hq]
  · intro q hq
    simp [haround q hq]
  · have hfresh : new ∉ s.freeBlocks (l ++ p :: t) := fun hfree => hzone.fresh hnew hfree.1
    simp [Store.setFreePage, Store.setUsed, hpnew, hpnew.symm, hfresh]
  · simp [Store.setFreePage, Store.setUsed, Store.areaDel, Store.pageCbAlloc, Store.freePages, hp,
      hpnew]
    omega
  · simp [Store.Parted, Store.setFreePage, Store.setUsed]
  · exact Or.inr (by simp [Store.setFreePage, Store.setUsed])

theorem Zone.takeMiddle (hzone : Zone cfg s z (l ++ p :: t)) (hz : s.created z = true)
    (hp : s.bUsed p = false) (hi : pageFreeHashIndex cfg (s.ulCount p) = i) {k : ℕ}
    (hn : n + k ≤ s.ulCount p) {right : P} (hnew : s.allocated new = false)
    (hright : s.allocated right = false) (hne : new ≠ right) (ty : PageType)
    (hs : (((((s.pageCbAlloc new).pageCbAlloc right).areaDel z i p).cutLeft cfg z p new k).cutRight
      cfg z new right n ty).setFreePage z (s.ulFreePage z - n) = s') :
    Zone cfg s' z (l ++ p :: new :: right :: t) ∧ (s.Ok cfg → s'.Ok cfg) := by
  subst hs
  have hin : p ∈ l ++ p :: t := by simp
  obtain ⟨hpnew, haround⟩ := hzone.others hnew
  obtain ⟨hpright, haround'⟩ := hzone.others hright
  have hfresh : new ∉ s.freeBlocks (l ++ p :: t) := fun hfree => hzone.fresh hnew hfree.1
  have hwork := hzone.work hz
  have hright' : (s.pageCbAlloc new).allocated right = false := by
    simpa [Store.pageCbAlloc, hne.symm] using hright
  have hdel := ((hwork.alloc hnew).alloc hright').areaDel (p := p) ⟨hin, hp⟩ hi
  have hk : k ≤ s.ulCount p := by omega
  have hleft := hdel.cutLeft (n := k) (by simp) (Set.mem_insert_of_mem right (Set.mem_insert new ∅))
    hk
  have hassoc : l ++ p :: new :: t = (l ++ [p]) ++ new :: t := by simp
  rw [hassoc] at hleft
  have hidle : right ∈ insert right (insert new ∅) \ ({new} : Set P) := by simp [hne.symm]
  have hcut := hleft.cutRight (n := n) (by simp [hpnew.symm, hfresh]) hidle
    (by simp [Store.areaDel, Store.pageCbAlloc, hpnew.symm]; omega) ty
  have hdone := hcut.setFreePage (s.ulFreePage z - n)
  rw [List.append_assoc] at hdone
  have hpages := hzone.freePage
  rw [freePages_append, freePages_cons, hp, if_neg (by simp)] at hpages
  have hsides := hzone.parted.around hp
  refine Work.close l t [p] [p, new, right] hdone hzone ?_ ?_ ?_ ?_ ?_ ?_ (by simp)
    (Or.inl hsides.1) (Or.inl hsides.2)
  · intro q hq
    simp at hq
    tauto
  · intro q hq
    simp [Store.setFreePage, Store.areaDel, Store.pageCbAlloc, haround q hq, haround' q hq]
  · intro q hq
    simp [haround q hq, haround' q hq]
  · simp [Store.setFreePage, hpnew, hpnew.symm, hpright, hne, hfresh]
  · simp [Store.setFreePage, Store.areaDel, Store.pageCbAlloc, Store.freePages, hp, hpnew,
      hpnew.symm, hpright, hne, hne.symm]
    omega
  · simp [Store.Parted, Store.setFreePage, hne]

theorem Store.Ok.allocate (ok : s.Ok cfg) (hz : s.created z = true) {cb : Option P}
    (hcb : s.Fresh cb) (ty : PageType) : (pageAllocate cfg s z n ty cb).2.Ok cfg := by
  obtain ⟨blocks, hzone⟩ := ok.zone hz
  unfold pageAllocate
  dsimp only
  split
  · exact ok
  · rename_i i fit f hsearch
    obtain ⟨⟨l, t, rfl⟩, hfree, hindex, hfit, rfl⟩ := hzone.search hsearch
    split
    · cases cb with
      | none => exact ok
      | some new => exact (hzone.takeCut hz hfree hindex (by omega) (hcb new rfl) ty rfl).2 ok
    · exact (hzone.takeWhole hz hfree hindex (by omega) rfl).2 ok

omit [DecidableEq Z] in
theorem pageCbFree_alloc (hp : s.allocated p = false) : (s.pageCbAlloc p).pageCbFree p = s := by
  simp [Store.pageCbFree, Store.pageCbAlloc, ← hp]

theorem Store.Ok.allocateAlign (ok : s.Ok cfg) (hz : s.created z = true) {cbLeft cbRight : Option P}
    (hleft : s.Fresh cbLeft) (hright : s.Fresh cbRight) (hne : cbLeft = cbRight → cbLeft = none)
    (stAlign : ℕ) (ty : PageType) :
    (pageAllocateAlign cfg s z n stAlign ty cbLeft cbRight).2.Ok cfg := by
  obtain ⟨blocks, hzone⟩ := ok.zone hz
  unfold pageAllocateAlign
  dsimp only
  split
  · exact ok
  · rename_i i fit f hsearch
    obtain ⟨⟨l, t, rfl⟩, hfree, hindex, hfit, rfl⟩ := hzone.search hsearch
    split
    · cases cbLeft with
      | none => exact ok
      | some new =>
        have hnew := hleft new rfl
        dsimp only
        split
        · cases cbRight with
          | none =>
            dsimp only
            rwa [pageCbFree_alloc hnew]
          | some right =>
            have hapart : new ≠ right := fun e => nomatch hne (congrArg some e)
            exact (hzone.takeMiddle hz hfree hindex hfit hnew (hright right rfl) hapart ty rfl).2 ok
        · exact (hzone.takeBack hz hfree hindex (by omega) hnew rfl).2 ok
    · split
      · cases cbRight with
        | none => exact ok
        | some right => exact (hzone.takeCut hz hfree hindex (by omega) (hright right rfl) ty rfl).2 ok
      · exact (hzone.takeWhole hz hfree hindex (by omega) rfl).2 ok

def Store.OneFree (s : Store Z P) (k : List P) : Prop := k = [] ∨ ∃ q, k = [q] ∧ s.bUsed q = false

omit [DecidableEq Z] [DecidableEq P] in
theorem Store.Parted.lastFree (h : s.Parted l) :
    ∃ l' pre, l = l' ++ pre ∧ s.OneFree pre ∧ ∀ q ∈ l'.getLast?, s.bUsed q = true := by
  rcases List.eq_nil_or_concat l with rfl | ⟨l', a, rfl⟩
  · exact ⟨[], [], rfl, Or.inl rfl, nofun⟩
  · rw [List.concat_eq_append] at h ⊢
    cases ha : s.bUsed a with
    | true => exact ⟨l' ++ [a], [], by simp, Or.inl rfl, by simpa using ha⟩
    | false => exact ⟨l', [a], rfl, Or.inr ⟨a, rfl, ha⟩, (h.around ha).1⟩

omit [DecidableEq Z] [DecidableEq P] in
theorem Store.Parted.headFree (h : s.Parted t) :
    ∃ post t', t = post ++ t' ∧ s.OneFree post ∧ ∀ q ∈ t'.head?, s.bUsed q = true := by
  cases t with
  | nil => exact ⟨[], [], rfl, Or.inl rfl, nofun⟩
  | cons r t =>
    cases hr : s.bUsed r with
    | true => exact ⟨[], r :: t, rfl, Or.inl rfl, by simpa using hr⟩
    | false =>
      have haround : s.Parted ([] ++ r :: t) := h
      exact ⟨[r], t, rfl, Or.inr ⟨r, rfl, hr⟩, (haround.around hr).2⟩

theorem Work.mergeLeft {m : P} {pre : List P}
    (h : Work cfg s₀ z s (l ++ (pre ++ p :: t)) free idle) (hp : p ∉ free)
    (hpre : s.OneFree pre) (hfree : ∀ q ∈ pre, q ∈ free)
    (hlast : ∀ q ∈ l.getLast?, s.bUsed q = true) (hm : s.mergeLeft cfg z p = (m, s')) :
    m = pre.headD p ∧ Work cfg s₀ z s' (l ++ m :: t) (free \ {q | q ∈ pre}) idle ∧
      s'.bUsed = s.bUsed ∧ s'.ulPageAddr = s.ulPageAddr ∧ s'.ulFreePage = s.ulFreePage ∧
      s'.ulCount m = s.freePages pre + s.ulCount p ∧
      ∀ q, q ≠ m → s'.ulCount q = s.ulCount q := by
  unfold Store.mergeLeft at hm
  rcases hpre with rfl | ⟨a, rfl, ha⟩
  · rw [List.nil_append] at h
    rw [h.line.split.1] at hm
    have hstay : (p, s) = (m, s') := by
      rw [← hm]
      cases hl : l.getLast? with
      | none => rfl
      | some a => simp [hlast a hl]
    obtain ⟨rfl, rfl⟩ := Prod.mk.inj hstay
    exact ⟨rfl, by simpa using h, rfl, rfl, rfl, by simp [Store.freePages], fun q _ => rfl⟩
  · have hassoc : l ++ ([a] ++ p :: t) = (l ++ [a]) ++ p :: t := by simp
    have hprev := h.line
    rw [hassoc] at hprev
    rw [hprev.split.1, List.getLast?_concat] at hm
    simp only [ha, Bool.false_eq_true, if_false, Prod.mk.injEq] at hm
    obtain ⟨rfl, rfl⟩ := hm
    have hdel := h.areaDel (hfree a (by simp)) rfl
    have hjoin := hdel.swallow (n := s.ulCount a + s.ulCount p) (by simp) (fun hin => hp hin.1) rfl
    have hset : free \ {q | q ∈ [a]} = free \ {a} := by simp
    refine ⟨rfl, ?_, rfl, rfl, rfl, ?_, fun q hq => ?_⟩
    · rw [hset]
      exact hjoin
    · simp [Store.drop, Store.pageCbFree, Store.setCount, Store.pageDelFromFreeHash,
        Store.areaDel, Store.freePages, ha]
    · simp [Store.drop, Store.pageCbFree, Store.setCount, Store.pageDelFromFreeHash,
        Store.areaDel, hq]

theorem Work.mergeRight {m : P} {post : List P}
    (h : Work cfg s₀ z s (l ++ m :: (post ++ t)) free idle) (hm : m ∉ free) (hpost : s.OneFree post)
    (hfree : ∀ q ∈ post, q ∈ free) (hhead : ∀ q ∈ t.head?, s.bUsed q = true)
    (hs : s.mergeRight cfg z m (post ++ t).head? = s') :
    Work cfg s₀ z s' (l ++ m :: t) (free \ {q | q ∈ post}) idle ∧
      s'.bUsed = s.bUsed ∧ s'.ulPageAddr = s.ulPageAddr ∧ s'.ulFreePage = s.ulFreePage ∧
      s'.ulCount m = s.ulCount m + s.freePages post ∧
      ∀ q, q ≠ m → s'.ulCount q = s.ulCount q := by
  unfold Store.mergeRight at hs
  rcases hpost with rfl | ⟨r, rfl, hr⟩
  · have hstay : s = s' := by
      rw [← hs, List.nil_append]
      cases ht : t.head? with
      | none => rfl
      | some r => simp [hhead r ht]
    subst hstay
    exact ⟨by simpa using h, rfl, rfl, rfl, by simp [Store.freePages], fun q _ => rfl⟩
  · rw [List.singleton_append, List.head?_cons] at hs
    simp only [hr, Bool.false_eq_true, if_false] at hs
    subst hs
    have hdel := h.areaDel (hfree r (by simp)) rfl
    have hjoin := hdel.swallow (n := s.ulCount m + s.ulCount r) (fun hin => hm hin.1) (by simp) rfl
    have hset : free \ {q | q ∈ [r]} = free \ {r} := by simp
    refine ⟨?_, rfl, rfl, rfl, ?_, fun q hq => ?_⟩
    · rw [hset]
      exact hjoin
    · simp [Store.drop, Store.pageCbFree, Store.setCount, Store.pageDelFromFreeHash,
        Store.areaDel, Store.freePages, hr]
    · simp [Store.drop, Store.pageCbFree, Store.setCount, Store.pageDelFromFreeHash,
        Store.areaDel, hq]

theorem Zone.freed {pre post : List P} (hzone : Zone cfg s z (l ++ (pre ++ p :: (post ++ t))))
    (hz : s.created z = true) (hused : s.bUsed p = true) (hpre : s.OneFree pre)
    (hpost : s.OneFree post) (hlast : ∀ q ∈ l.getLast?, s.bUsed q = true)
    (hhead : ∀ q ∈ t.head?, s.bUsed q = true) {m : P} (hm : pre.headD p = m)
    (hs : pageFree cfg s z p = s') :
    (Zone cfg s' z (l ++ m :: t) ∧ (s.Ok cfg → s'.Ok cfg)) ∧
      s'.bUsed = update s.bUsed m false ∧ s'.ulPageAddr = s.ulPageAddr ∧
      s'.ulCount m = s.freePages pre + s.ulCount p + s.freePages post ∧
      ∀ q, q ≠ m → s'.ulCount q = s.ulCount q := by
  have hblocks : l ++ (pre ++ p :: (post ++ t)) = l ++ (pre ++ [p] ++ post ++ t) := by simp
  have hpfree : p ∉ s.freeBlocks (l ++ (pre ++ p :: (post ++ t))) := by
    simp [Store.freeBlocks, hused]
  have hmold : m ∈ pre ++ [p] := by
    rcases hpre with rfl | ⟨a, rfl, -⟩ <;> simp [← hm]
  have hright : s.lineManage.next p = (post ++ t).head? := by
    have hline := hzone.line
    rw [← List.append_assoc] at hline
    exact hline.split.2
  have hnodup := hzone.line.nodup
  rw [hblocks] at hnodup
  have hout : ∀ q ∈ l ++ t, q ∉ pre ++ [p] ++ post := by
    intro q hq hin
    obtain ⟨-, hrest, hl⟩ := List.nodup_append.mp hnodup
    rcases List.mem_append.mp hq with hq | hq
    · exact hl q hq q (List.mem_append_left t hin) rfl
    · exact (List.nodup_append.mp hrest).2.2 q hin q hq rfl
  have hpostold : ∀ q ∈ post, q ∉ pre ++ [p] := by
    intro q hq hin
    have hmid := (List.nodup_append.mp (List.nodup_append.mp hnodup).2.1).1
    exact (List.nodup_append.mp hmid).2.2 q hin q hq rfl
  have hfree : ∀ k : List P, s.OneFree k → k ⊆ pre ++ [p] ++ post → ∀ q ∈ k,
      q ∈ s.freeBlocks (l ++ (pre ++ p :: (post ++ t))) := by
    rintro k (rfl | ⟨a, rfl, ha⟩) hk q hq
    · exact nomatch hq
    · obtain rfl := List.mem_singleton.mp hq
      have hin : q ∈ pre ++ [p] ++ post := hk (by simp)
      refine ⟨?_, ha⟩
      rw [hblocks]
      simp only [List.mem_append] at hin ⊢
      tauto
  have hfreepre := hfree pre hpre (by simp)
  have hfreepost := hfree post hpost (by simp)
  -- the free block on the left, and then the one on the right
  obtain ⟨m', s₁, hleft⟩ : ∃ m' s₁, s.mergeLeft cfg z p = (m', s₁) := ⟨_, _, rfl⟩
  obtain ⟨rfl, hwork₁, hused₁, haddr₁, hpage₁, hcount₁, hother₁⟩ :=
    (hzone.work hz).mergeLeft hpfree hpre hfreepre hlast hleft
  rw [hm] at hleft hwork₁ hcount₁ hother₁
  have hmfree : m ∉ s.freeBlocks (l ++ (pre ++ p :: (post ++ t))) \ {q | q ∈ pre} := by
    rintro ⟨hin, hnot⟩
    rcases List.mem_append.mp hmold with hmem | hmem
    · exact hnot hmem
    · exact hpfree (List.mem_singleton.mp hmem ▸ hin)
  have hpost₁ : s₁.OneFree post := by
    unfold Store.OneFree
    rwa [hused₁]
  have hfreepost₁ : ∀ q ∈ post,
      q ∈ s.freeBlocks (l ++ (pre ++ p :: (post ++ t))) \ {q | q ∈ pre} :=
    fun q hq => ⟨hfreepost q hq, fun hin => hpostold q hq (List.mem_append_left [p] hin)⟩
  obtain ⟨s₂, hs₂⟩ : ∃ s₂, s₁.mergeRight cfg z m (post ++ t).head? = s₂ := ⟨_, rfl⟩
  obtain ⟨hwork₂, hused₂, haddr₂, hpage₂, hcount₂, hother₂⟩ :=
    hwork₁.mergeRight hmfree hpost₁ hfreepost₁ (by rwa [hused₁]) hs₂
  unfold pageFree at hs
  simp only [hleft, hright, hs₂] at hs
  subst hs
  have hmin : m ∈ l ++ m :: t := by simp
  have hmark := hwork₂.setUsed (hwork₂.native m hmin).1 false
  have hadd := hmark.addToFreeHash hmin fun hin => hmfree hin.1
  have hdone := hadd.setFreePage (s₂.ulFreePage z + s.ulCount p)
  have hcountm : s₂.ulCount m = s.freePages pre + s.ulCount p + s.freePages post := by
    rw [hcount₂, hcount₁]
    congr 1
    refine freePages_congr fun q hq => ⟨by rw [hused₁], hother₁ q ?_⟩
    rintro rfl
    exact hpostold q hq hmold
  have hcountother : ∀ q, q ≠ m → s₂.ulCount q = s.ulCount q :=
    fun q hq => (hother₂ q hq).trans (hother₁ q hq)
  have hne : ∀ q ∈ l ++ t, q ≠ m :=
    fun q hq e => hout q hq (List.mem_append_left post (e ▸ hmold))
  refine ⟨?_, ?_, ?_, hcountm, hcountother⟩
  · rw [hblocks] at hzone
    refine Work.close l t (pre ++ [p] ++ post) [m] hdone hzone (fun q => id) ?_ ?_ ?_ ?_ ?_ ?_
      (Or.inl hlast) (Or.inl hhead)
    · intro q hq
      have hqm := hne q hq
      simp [Store.setFreePage, Store.pageAddToFreeHash, Store.areaAdd, Store.setUsed, hqm, hused₂,
        hused₁, hcountother q hqm]
    · intro q hq
      have hqout := hout q hq
      simp only [List.mem_append, not_or] at hqout
      simp [hne q hq, hqout]
    · simp [Store.setFreePage, Store.pageAddToFreeHash, Store.areaAdd, Store.setUsed]
    · simp [Store.setFreePage, Store.pageAddToFreeHash, Store.areaAdd, Store.setUsed,
        Store.freePages, hpage₂, hpage₁, hcountm, hused]
      omega
    · simp [Store.Parted]
    · simp
  · change update s₂.bUsed m false = update s.bUsed m false
    rw [hused₂, hused₁]
  · exact haddr₂.trans haddr₁

omit [DecidableEq Z] [DecidableEq P] in
theorem Store.Ok.valid (ok : s.Ok cfg) (hp : s.Valid z p) :
    s.created z = true ∧ ∃ l t, Zone cfg s z (l ++ p :: t) := by
  obtain ⟨halloc, -, howner⟩ := hp
  have hok := ok z
  by_cases hz : s.created z = true
  · rw [if_pos hz] at hok
    obtain ⟨blocks, hzone⟩ := hok
    obtain ⟨l, t, rfl⟩ := List.append_of_mem ((hzone.owned p).mpr ⟨halloc, howner⟩)
    exact ⟨hz, l, t, hzone⟩
  · rw [if_neg hz] at hok
    exact absurd howner (hok p halloc)

theorem Store.Ok.freed (ok : s.Ok cfg) (hp : s.Valid z p) : (pageFree cfg s z p).Ok cfg := by
  obtain ⟨hz, l, t, hzone⟩ := ok.valid hp
  have hparted := List.isChain_append.mp hzone.parted
  have hl : s.Parted l := hparted.1
  have ht : s.Parted t := (List.isChain_cons.mp hparted.2.1).2
  obtain ⟨l, pre, rfl, hpre, hlast⟩ := hl.lastFree
  obtain ⟨post, t, rfl, hpost, hhead⟩ := ht.headFree
  rw [List.append_assoc] at hzone
  exact (hzone.freed hz hp.2.1 hpre hpost hlast hhead rfl rfl).1.2 ok

omit [DecidableEq Z] in
theorem Store.Ok.split (ok : s.Ok cfg) (hp : s.Valid z p) {cb : Option P} (hcb : s.Fresh cb) :
    (pageSplit cfg s p n cb).2.Ok cfg := by
  obtain ⟨hz, l, t, hzone⟩ := ok.valid hp
  have hused := hp.2.1
  unfold pageSplit
  split
  · exact ok
  split
  · exact ok
  rename_i hn
  cases cb with
  | none => exact ok
  | some new =>
    have hnew := hcb new rfl
    obtain ⟨hpnew, haround⟩ := hzone.others hnew
    have hpfree : p ∉ s.freeBlocks (l ++ p :: t) := by simp [Store.freeBlocks, hused]
    have hnewfree : new ∉ s.freeBlocks (l ++ p :: t) := fun hin => hzone.fresh hnew hin.1
    have hwork := (hzone.work hz).alloc hnew
    have hmark := hwork.setUsed (hwork.unused new (Set.mem_insert new ∅)).1 true
    have hle : n ≤ s.ulCount p := by omega
    have hdone := hmark.separate (n := n) hpfree (Set.mem_insert new ∅) hle (s.iPageType p)
    refine (Work.close l t [p] [p, new] hdone hzone (by simp) ?_ ?_ ?_ ?_ ?_ (by simp) ?_ ?_).2 ok
    · intro q hq
      simp [Store.pageStructSeparate, Store.setUsed, Store.pageCbAlloc, haround q hq]
    · exact fun q hq => Iff.rfl
    · simp [Store.pageStructSeparate, Store.setUsed, Store.pageCbAlloc, hpnew, hused, hpfree,
        hnewfree]
    · simp [Store.pageStructSeparate, Store.setUsed, Store.pageCbAlloc, Store.freePages, hpnew,
        hused]
    · simp [Store.Parted, Store.pageStructSeparate, Store.setUsed]
    · exact Or.inr (by
        simp [Store.pageStructSeparate, Store.setUsed, Store.pageCbAlloc, hpnew, hused])
    · exact Or.inr (by simp [Store.pageStructSeparate, Store.setUsed])

omit [DecidableEq Z] in
theorem Store.Ok.merge (ok : s.Ok cfg) (hp : s.Valid z p) (hq : s.Valid z q)
    (hnext : s.lineManage.next p = some q) : (pageMerge s p q).2.Ok cfg := by
  obtain ⟨hz, l, t, hzone⟩ := ok.valid hp
  unfold pageMerge
  split
  · exact ok
  rw [hzone.line.split.2] at hnext
  obtain ⟨t, rfl⟩ := List.head?_eq_some_iff.mp hnext
  have hpfree : p ∉ s.freeBlocks (l ++ p :: q :: t) := by simp [Store.freeBlocks, hp.2.1]
  have hqfree : q ∉ s.freeBlocks (l ++ p :: q :: t) := by simp [Store.freeBlocks, hq.2.1]
  have hdone := (hzone.work hz).swallow (n := s.ulCount p + s.ulCount q) hpfree hqfree rfl
  have haround : ∀ k ∈ l ++ t, k ≠ p := fun k hk => hdone.line.ne_of_around hk
  refine (Work.close l t [p, q] [p] hdone hzone (fun k => id) ?_ ?_ ?_ ?_ ?_ (by simp) ?_ ?_).2 ok
  · intro k hk
    simp [Store.drop, Store.pageCbFree, Store.setCount, haround k hk]
  · exact fun k hk => Iff.rfl
  · simp [Store.drop, Store.pageCbFree, Store.setCount, hp.2.1, hpfree]
  · simp [Store.drop, Store.pageCbFree, Store.setCount, Store.freePages, hp.2.1, hq.2.1]
  · simp [Store.Parted]
  · exact Or.inr (by simp [Store.drop, Store.pageCbFree, Store.setCount, hp.2.1])
  · exact Or.inr (by simp [Store.drop, Store.pageCbFree, Store.setCount, hp.2.1])

theorem Store.Ok.takeRight (ok : s.Ok cfg) (hz : s.created z = true)
    (hzone : Zone cfg s z (l ++ p :: q :: t)) (hp : s.bUsed p = true) (hq : s.bUsed q = false)
    (hi : pageFreeHashIndex cfg (s.ulCount q) = i) (hn : s.ulCount q = n) :
    (((((s.areaDel z i q).setUsed q true).setFreePage z (s.ulFreePage z - n)).setCount p
      (s.ulCount p + n)).drop q).Ok cfg := by
  have hqin : q ∈ l ++ p :: q :: t := by simp
  have hwork := hzone.work hz
  have hdel := hwork.areaDel (p := q) ⟨hqin, hq⟩ hi
  have hmark := (hdel.setUsed (hwork.native q hqin).1 true).setFreePage (s.ulFreePage z - n)
  have hpfree : p ∉ s.freeBlocks (l ++ p :: q :: t) := by simp [Store.freeBlocks, hp]
  have hcount : s.ulCount p + n = s.ulCount p + s.ulCount q := by omega
  have hdone := hmark.swallow (fun hin => hpfree hin.1) (by simp) hcount
  have hline := hzone.line
  have hassoc : l ++ p :: q :: t = (l ++ [p]) ++ q :: t := by simp
  rw [hassoc] at hline
  have hneq : ∀ k ∈ l ++ t, k ≠ q := by
    intro k hk
    apply hline.ne_of_around
    simp only [List.mem_append] at hk ⊢
    tauto
  have haround : ∀ k ∈ l ++ t, k ≠ p := fun k hk => hdone.line.ne_of_around hk
  have hpq : p ≠ q := hline.ne_of_around (by simp)
  have hpages := hzone.freePage
  rw [freePages_append, freePages_cons, freePages_cons, hp, hq, if_pos rfl,
    if_neg (by simp)] at hpages
  refine (Work.close l t [p, q] [p] hdone hzone (fun k => id) ?_ ?_ ?_ ?_ ?_ (by simp) ?_ ?_).2 ok
  · intro k hk
    simp [Store.drop, Store.pageCbFree, Store.setCount, Store.setFreePage, Store.setUsed,
      Store.areaDel, haround k hk, hneq k hk]
  · intro k hk
    simp [hneq k hk]
  · simp [Store.drop, Store.pageCbFree, Store.setCount, Store.setFreePage, Store.setUsed,
      Store.areaDel, hpq, hp, hpfree]
  · simp [Store.drop, Store.pageCbFree, Store.setCount, Store.setFreePage, Store.setUsed,
      Store.areaDel, Store.freePages, hpq, hp, hq]
    omega
  · simp [Store.Parted]
  · exact Or.inr (by simp [Store.drop, Store.pageCbFree, Store.setCount, Store.setFreePage,
      Store.setUsed, Store.areaDel, hpq, hp])
  · exact Or.inr (by simp [Store.drop, Store.pageCbFree, Store.setCount, Store.setFreePage,
      Store.setUsed, Store.areaDel, hpq, hp])

theorem Store.Ok.takeFront (ok : s.Ok cfg) (hz : s.created z = true)
    (hzone : Zone cfg s z (l ++ p :: q :: t)) (hp : s.bUsed p = true) (hq : s.bUsed q = false)
    (hi : pageFreeHashIndex cfg (s.ulCount q) = i) (hn : n ≤ s.ulCount q)
    (hnew : s.allocated new = false) (ty : PageType) {s₁ : Store Z P}
    (hs : (((s.pageCbAlloc new).areaDel z i q).cutRight cfg z q new n ty).setFreePage z
      (s.ulFreePage z - n) = s₁) : ((s₁.setCount p (s₁.ulCount p + n)).drop q).Ok cfg := by
  have hqin : q ∈ l ++ p :: q :: t := by simp
  have hassoc : ∀ k : List P, l ++ p :: k = (l ++ [p]) ++ k := by simp
  have hzone' := hzone
  rw [hassoc] at hzone'
  obtain ⟨hqnew, haround⟩ := hzone'.others hnew
  have hpnew : p ≠ new := (haround p (by simp)).2
  have hpq : p ≠ q := (haround p (by simp)).1
  have hpfree : p ∉ s.freeBlocks (l ++ p :: q :: t) := by simp [Store.freeBlocks, hp]
  have hwork := hzone.work hz
  have hdel := (hwork.alloc hnew).areaDel (p := q) ⟨hqin, hq⟩ hi
  rw [hassoc (q :: t)] at hdel
  have hcut := hdel.cutRight (n := n) (by simp) (Set.mem_insert new ∅) hn ty
  have hmark := hcut.setFreePage (s.ulFreePage z - n)
  rw [← hassoc, ← hassoc] at hmark
  rw [hs] at hmark
  have hused : s₁.bUsed = update (update s.bUsed q true) new false := by
    rw [← hs]
    rfl
  have hcounts : s₁.ulCount = update
      (update s.ulCount new (s.ulCount q - n)) q n := by
    rw [← hs]
    rfl
  have hpage : s₁.ulFreePage z = s.ulFreePage z - n := by simp [← hs, Store.setFreePage]
  have hcount : s₁.ulCount p + n = s₁.ulCount p + s₁.ulCount q := by simp [hcounts]
  have hdone := hmark.swallow (by simp [hpnew, hpq, hpfree]) (by simp [hqnew]) hcount
  have hother : ∀ k ∈ l ++ t, k ≠ p ∧ k ≠ q ∧ k ≠ new := by
    intro k hk
    have hkin : k ∈ l ++ [p] ++ t := by
      simp only [List.mem_append] at hk ⊢
      tauto
    have hknew : k ∈ l ++ new :: t := by
      simp only [List.mem_append, List.mem_cons] at hk ⊢
      tauto
    exact ⟨hdone.line.ne_of_around hknew, haround k hkin⟩
  have hpages := hzone.freePage
  rw [freePages_append, freePages_cons, freePages_cons, hp, hq, if_pos rfl,
    if_neg (by simp)] at hpages
  have hsides := hzone'.parted.around hq
  refine (Work.close l t [p, q] [p, new] hdone hzone (by simp) ?_ ?_ ?_ ?_ ?_ (by simp) ?_
    (Or.inl hsides.2)).2 ok
  · intro k hk
    simp [Store.drop, Store.pageCbFree, Store.setCount, hused, hcounts, hother k hk]
  · intro k hk
    simp [hother k hk]
  · simp [Store.drop, Store.pageCbFree, Store.setCount, hused, hpnew, hpq, hp, hpfree]
  · simp [Store.drop, Store.pageCbFree, Store.setCount, hused, hcounts, hpage, Store.freePages,
      hpnew, hpnew.symm, hqnew.symm, hpq, hp, hq]
    omega
  · simp [Store.Parted, Store.drop, Store.pageCbFree, Store.setCount, hused, hpnew, hpq, hp]
  · exact Or.inr (by
      simp [Store.drop, Store.pageCbFree, Store.setCount, hused, hpnew, hpq, hp])

theorem Store.Ok.expand (ok : s.Ok cfg) (hp : s.Valid (s.pvmzoneOwner p) p) {cb : Option P}
    (hcb : s.Fresh cb) : (pageExpand cfg s p n cb).2.Ok cfg := by
  obtain ⟨hz, l, t, hzone⟩ := ok.valid hp
  unfold pageExpand
  split
  · exact ok
  split
  · exact ok
  rename_i q hnext
  rw [hzone.line.split.2] at hnext
  obtain ⟨t, rfl⟩ := List.head?_eq_some_iff.mp hnext
  split
  · exact ok
  rename_i hroom
  simp only [not_or, Bool.not_eq_true, not_lt] at hroom
  obtain ⟨hq, hn⟩ := hroom
  dsimp only
  split
  · cases cb with
    | none => exact ok
    | some new =>
      exact ok.takeFront hz hzone hp.2.1 hq rfl hn (hcb new rfl) (s.iPageType q) rfl
  · exact ok.takeRight hz hzone hp.2.1 hq rfl (by omega)

theorem Store.Ok.create (ok : s.Ok cfg) (hz : s.created z = false) {cb : Option P}
    (hcb : s.Fresh cb) (ulAddr stSize : ℕ) (ty : PageType) :
    (pageZoneCreate cfg s z ulAddr stSize ty cb).Ok cfg := by
  cases cb with
  | none => exact ok
  | some p =>
    have hp := hcb p rfl
    have hall : ∀ q, s.allocated q = true → s.Foreign z q := by
      intro q hq
      have hok := ok z
      rw [if_neg (by simp [hz])] at hok
      exact ⟨hq, hok q hq⟩
    have hpforeign : ¬ s.Foreign z p := by
      rintro ⟨hq, -⟩
      rw [hp] at hq
      exact nomatch hq
    have hne : ∀ q, s.Foreign z q → q ≠ p := fun q hq e => hpforeign (e ▸ hq)
    unfold pageZoneCreate
    dsimp only
    generalize hs : (s.pageCbAlloc p).initZone cfg z p ulAddr stSize ty = s₁
    have hwork : Work cfg s z s₁ [p] ∅ ∅ := by
      subst hs
      constructor
      · intro q hq
        have hqp := hne q hq
        constructor <;>
          simp [Store.initZone, Store.pageCbAlloc, Links.setNext, Links.setPrev, hqp]
      · intro y hy
        constructor <;> simp [Store.initZone, Store.pageCbAlloc, hy]
      · simp [Store.initZone]
      · refine ⟨by simp, ?_⟩
        simp [Store.initZone, Links.setNext, Links.setPrev]
      · simp [Store.initZone, Store.CoversZone, Covers]
      · simp [Store.initZone, hpforeign]
      · intro q hq
        have hqa : s.allocated q = false := by
          by_contra ha
          exact hq (hall q (by simpa using ha))
        by_cases hqp : q = p
        · simp [Store.initZone, Store.pageCbAlloc, hqp]
        · simp [Store.initZone, Store.pageCbAlloc, hqp, hqa]
      · exact fun q hq => hq.elim
      · exact fun q hq => hq.elim
      · intro i hi
        exact ⟨[], ⟨List.nodup_nil, trivial⟩, by simp [Store.initZone], by simp [Store.initZone],
          by simp⟩
    have hadd := hwork.addToFreeHash (p := p) (by simp) (by simp)
    have hused : s₁.bUsed p = false := by simp [← hs, Store.initZone]
    refine hadd.finish (hadd.zone ?_ ?_ ?_) ok
    · simp [Store.pageAddToFreeHash, Store.areaAdd, hused]
    · simp [Store.pageAddToFreeHash, Store.areaAdd, Store.freePages, ← hs, Store.initZone]
    · simp [Store.Parted]

theorem Store.Ok.next (ok : s.Ok cfg) {a : Action Z P} (hstep : step cfg s a = some s') :
    s'.Ok cfg := by
  cases a with
  | create z ulAddr stSize ty cb =>
    obtain ⟨⟨hz, hcb⟩, rfl⟩ := Option.ite_some_none_eq_some.mp hstep
    exact ok.create hz hcb ulAddr stSize ty
  | allocate z n ty cb =>
    obtain ⟨⟨hz, hcb⟩, rfl⟩ := Option.ite_some_none_eq_some.mp hstep
    exact ok.allocate hz hcb ty
  | allocateAlign z n stAlign ty cbLeft cbRight =>
    obtain ⟨⟨hz, hleft, hright, hne⟩, rfl⟩ := Option.ite_some_none_eq_some.mp hstep
    exact ok.allocateAlign hz hleft hright hne stAlign ty
  | free z p =>
    obtain ⟨hp, rfl⟩ := Option.ite_some_none_eq_some.mp hstep
    exact ok.freed hp
  | expand p n cb =>
    obtain ⟨⟨hp, hcb⟩, rfl⟩ := Option.ite_some_none_eq_some.mp hstep
    exact ok.expand hp hcb
  | split p n cb =>
    obtain ⟨⟨hp, hcb⟩, rfl⟩ := Option.ite_some_none_eq_some.mp hstep
    exact ok.split hp hcb
  | merge l r =>
    obtain ⟨⟨hl, hr, hnext⟩, rfl⟩ := Option.ite_some_none_eq_some.mp hstep
    exact ok.merge hl hr hnext

omit [DecidableEq Z] [DecidableEq P] in
theorem Store.Ok.boot (s : Store Z P) : s.boot.Ok cfg := by
  intro z
  rw [if_neg (by simp [Store.boot])]
  exact fun p hp => nomatch hp

/-- In every run, between two calls: the blocks of every zone cover it in their order, its free
pages are those of its free blocks, these stand in the entries of their sizes and nothing else
does, and no two neighbours are free. -/
theorem zones_tiled (cfg : Config) (s : Store Z P) (as : List (Action Z P)) :
    Visits (step cfg) (Store.Ok cfg) s.boot as :=
  visits_of_steps (fun _ _ _ ok hstep => ok.next hstep) (.boot s)

end SylixOS.PageLib
