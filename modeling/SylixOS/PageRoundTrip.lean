import SylixOS.PageFit

/-! A block that is allocated and at once given back: what was cut off the free block
is merged with it again, so the zone is as it was. -/

namespace SylixOS.PageLib
open LinkedChain ListLink

variable {Z P : Type*} {cfg : Config} {s s₁ s₂ : Store Z P} {z : Z}
  {blocks l t pre post : List P} {fit p new : P} {i n k : ℕ}

def Store.layout (s : Store Z P) (blocks : List P) : List (ℕ × ℕ × Bool) :=
  blocks.map fun p => (s.ulPageAddr p, s.ulCount p, s.bUsed p)

theorem freePages_of_layout (h : s₁.layout blocks = s.layout blocks) :
    s₁.freePages blocks = s.freePages blocks := by
  have hsum := congrArg (fun k => (k.map fun b => if b.2.2 then 0 else b.2.1).sum) h
  simpa [Store.layout, Store.freePages, Function.comp_def] using hsum

theorem layout_ext (h : s₁.layout blocks = s.layout blocks) (hp : p ∈ blocks) :
    s₁.ulCount p = s.ulCount p ∧ s₁.bUsed p = s.bUsed p := by
  have hfield := List.map_inj_left.mp h p hp
  simp only [Prod.mk.injEq] at hfield
  exact hfield.2

structure Restored (cfg : Config) (s s₂ : Store Z P) (z : Z) (blocks : List P) : Prop where
  zone : Zone cfg s₂ z blocks
  layout : s₂.layout blocks = s.layout blocks
  freePage : s₂.ulFreePage z = s.ulFreePage z
  areas : ∀ i < cfg.maxOrder, ∀ q, q ∈ s₂.area z i ↔ q ∈ s.area z i

theorem Zone.restored (h : Zone cfg s z blocks) (h₂ : Zone cfg s₂ z blocks)
    (layout : s₂.layout blocks = s.layout blocks) : Restored cfg s s₂ z blocks where
  zone := h₂
  layout := layout
  freePage := by rw [h₂.freePage, h.freePage, freePages_of_layout layout]
  areas i hi q := by
    rw [h₂.mem_area hi, h.mem_area hi]
    constructor
    · rintro ⟨⟨hin, hfree⟩, hindex⟩
      obtain ⟨hcount, hused⟩ := layout_ext layout hin
      exact ⟨⟨hin, hused ▸ hfree⟩, hcount ▸ hindex⟩
    · rintro ⟨⟨hin, hfree⟩, hindex⟩
      obtain ⟨hcount, hused⟩ := layout_ext layout hin
      exact ⟨⟨hin, hused.symm ▸ hfree⟩, hcount.symm ▸ hindex⟩

variable [DecidableEq Z] [DecidableEq P]

structure Taken (cfg : Config) (s s₁ : Store Z P) (z : Z) (l t pre post : List P) (fit p : P) :
    Prop where
  zone : Zone cfg s₁ z (l ++ (pre ++ p :: (post ++ t)))
  created : s₁.created z = true
  preFree : s₁.OneFree pre
  postFree : s₁.OneFree post
  head : pre.headD p = fit
  free : s.bUsed fit = false
  used : s₁.bUsed p = true
  addr : s₁.ulPageAddr fit = s.ulPageAddr fit
  count : s₁.freePages pre + s₁.ulCount p + s₁.freePages post = s.ulCount fit
  same : ∀ q ∈ l ++ t, s₁.ulPageAddr q = s.ulPageAddr q ∧ s₁.ulCount q = s.ulCount q ∧
    s₁.bUsed q = s.bUsed q

theorem Taken.restored (h : Taken cfg s s₁ z l t pre post fit p)
    (hzone : Zone cfg s z (l ++ fit :: t)) :
    Restored cfg s (pageFree cfg s₁ z p) z (l ++ fit :: t) := by
  obtain ⟨hlast, hhead⟩ := hzone.parted.around h.free
  have hlast₁ : ∀ q ∈ l.getLast?, s₁.bUsed q = true := by
    intro q hq
    rw [(h.same q (List.mem_append_left t (List.mem_of_getLast? hq))).2.2]
    exact hlast q hq
  have hhead₁ : ∀ q ∈ t.head?, s₁.bUsed q = true := by
    intro q hq
    rw [(h.same q (List.mem_append_right l (List.mem_of_mem_head? hq))).2.2]
    exact hhead q hq
  obtain ⟨⟨hzone₂, -⟩, hused, haddr, hcount, hother⟩ :=
    h.zone.freed h.created h.used h.preFree h.postFree hlast₁ hhead₁ h.head rfl
  refine hzone.restored hzone₂ (List.map_congr_left fun q hq => ?_)
  by_cases hfit : q = fit
  · subst hfit
    simp only [haddr, h.addr, hcount, h.count, hused, Function.update_self, h.free]
  · have hin : q ∈ l ++ t := by
      simp only [List.mem_append, List.mem_cons] at hq ⊢
      tauto
    obtain ⟨haddr₁, hcount₁, hused₁⟩ := h.same q hin
    simp only [haddr, haddr₁, hother q hfit, hcount₁, hused, Function.update_of_ne hfit, hused₁]

theorem Zone.taken_whole (h : Zone cfg s z (l ++ p :: t)) (hz : s.created z = true)
    (hp : s.bUsed p = false) (hi : pageFreeHashIndex cfg (s.ulCount p) = i) (hn : s.ulCount p = n)
    (hs : ((s.areaDel z i p).setUsed p true).setFreePage z (s.ulFreePage z - n) = s₁) :
    Taken cfg s s₁ z l t [] [] p p := by
  have hzone := (h.takeWhole hz hp hi hn hs).1
  have haround : ∀ q ∈ l ++ t, q ≠ p := fun q hq => h.line.ne_of_around hq
  subst hs
  refine ⟨hzone, hz, Or.inl rfl, Or.inl rfl, rfl, hp, ?_, rfl, ?_, fun q hq => ?_⟩
  · simp [Store.setFreePage, Store.setUsed]
  · simp [Store.setFreePage, Store.setUsed, Store.areaDel, Store.freePages]
  · simp [Store.setFreePage, Store.setUsed, Store.areaDel, haround q hq]

theorem Zone.taken_front (h : Zone cfg s z (l ++ p :: t)) (hz : s.created z = true)
    (hp : s.bUsed p = false) (hi : pageFreeHashIndex cfg (s.ulCount p) = i) (hn : n ≤ s.ulCount p)
    (hnew : s.allocated new = false) (ty : PageType)
    (hs : (((s.pageCbAlloc new).areaDel z i p).cutRight cfg z p new n ty).setFreePage z
      (s.ulFreePage z - n) = s₁) : Taken cfg s s₁ z l t [] [new] p p := by
  have hzone := (h.takeCut hz hp hi hn hnew ty hs).1
  obtain ⟨hpnew, haround⟩ := h.others hnew
  subst hs
  refine ⟨hzone, hz, Or.inl rfl, Or.inr ⟨new, rfl, ?_⟩, rfl, hp, ?_, ?_, ?_, fun q hq => ?_⟩
  · simp [Store.setFreePage]
  · simp [Store.setFreePage, hpnew]
  · simp [Store.setFreePage, Store.areaDel, Store.pageCbAlloc, hpnew]
  · simp [Store.setFreePage, Store.areaDel, Store.pageCbAlloc, Store.freePages, hpnew.symm]
    omega
  · obtain ⟨hqp, hqnew⟩ := haround q hq
    simp [Store.setFreePage, Store.areaDel, Store.pageCbAlloc, hqp, hqnew]

theorem Zone.taken_back (h : Zone cfg s z (l ++ p :: t)) (hz : s.created z = true)
    (hp : s.bUsed p = false) (hi : pageFreeHashIndex cfg (s.ulCount p) = i)
    (hn : s.ulCount p = n + k) (hnew : s.allocated new = false)
    (hs : ((((s.pageCbAlloc new).areaDel z i p).cutLeft cfg z p new k).setUsed new
      true).setFreePage z (s.ulFreePage z - n) = s₁) : Taken cfg s s₁ z l t [p] [] p new := by
  have hzone := (h.takeBack hz hp hi hn hnew hs).1
  obtain ⟨hpnew, haround⟩ := h.others hnew
  subst hs
  refine ⟨hzone, hz, Or.inr ⟨p, rfl, ?_⟩, Or.inl rfl, rfl, hp, ?_, ?_, ?_, fun q hq => ?_⟩
  · simp [Store.setFreePage, Store.setUsed, hpnew]
  · simp [Store.setFreePage, Store.setUsed]
  · simp [Store.setFreePage, Store.setUsed, Store.areaDel, Store.pageCbAlloc, hpnew]
  · simp [Store.setFreePage, Store.setUsed, Store.areaDel, Store.pageCbAlloc, Store.freePages,
      hpnew, hpnew.symm]
    omega
  · obtain ⟨hqp, hqnew⟩ := haround q hq
    simp [Store.setFreePage, Store.setUsed, Store.areaDel, Store.pageCbAlloc, hqp, hqnew]

theorem Zone.taken_middle (h : Zone cfg s z (l ++ p :: t)) (hz : s.created z = true)
    (hp : s.bUsed p = false) (hi : pageFreeHashIndex cfg (s.ulCount p) = i)
    (hn : n + k ≤ s.ulCount p) {right : P} (hnew : s.allocated new = false)
    (hright : s.allocated right = false) (hne : new ≠ right) (ty : PageType)
    (hs : (((((s.pageCbAlloc new).pageCbAlloc right).areaDel z i p).cutLeft cfg z p new k).cutRight
      cfg z new right n ty).setFreePage z (s.ulFreePage z - n) = s₁) :
    Taken cfg s s₁ z l t [p] [right] p new := by
  have hzone := (h.takeMiddle hz hp hi hn hnew hright hne ty hs).1
  obtain ⟨hpnew, haround⟩ := h.others hnew
  obtain ⟨hpright, haround'⟩ := h.others hright
  subst hs
  refine ⟨hzone, hz, Or.inr ⟨p, rfl, ?_⟩, Or.inr ⟨right, rfl, ?_⟩, rfl, hp, ?_, ?_, ?_,
    fun q hq => ?_⟩
  · simp [Store.setFreePage, hpnew, hpright]
  · simp [Store.setFreePage]
  · simp [Store.setFreePage, hne]
  · simp [Store.setFreePage, Store.areaDel, Store.pageCbAlloc, hpnew, hpright]
  · simp [Store.setFreePage, Store.areaDel, Store.pageCbAlloc, Store.freePages, hpnew, hpnew.symm,
      hpright, hne.symm]
    omega
  · obtain ⟨hqp, hqnew⟩ := haround q hq
    obtain ⟨-, hqright⟩ := haround' q hq
    simp [Store.setFreePage, Store.areaDel, Store.pageCbAlloc, hqp, hqnew, hqright]

theorem pageFree_allocate (h : Zone cfg s z blocks) (hz : s.created z = true) {cb : Option P}
    (hcb : s.Fresh cb) {ty : PageType} (halloc : pageAllocate cfg s z n ty cb = (some p, s₁)) :
    Restored cfg s (pageFree cfg s₁ z p) z blocks := by
  unfold pageAllocate at halloc
  dsimp only at halloc
  split at halloc
  · exact nomatch halloc
  · rename_i i fit f hsearch
    obtain ⟨⟨l, t, rfl⟩, hfree, hindex, hfit, rfl⟩ := h.search hsearch
    split at halloc
    · cases cb with
      | none => exact nomatch halloc
      | some new =>
        simp only [Prod.mk.injEq, Option.some.injEq] at halloc
        obtain ⟨rfl, hs⟩ := halloc
        exact (h.taken_front hz hfree hindex (by omega) (hcb new rfl) ty hs).restored h
    · simp only [Prod.mk.injEq, Option.some.injEq] at halloc
      obtain ⟨rfl, hs⟩ := halloc
      exact (h.taken_whole hz hfree hindex (by omega) hs).restored h

theorem pageFree_allocateAlign (h : Zone cfg s z blocks) (hz : s.created z = true)
    {cbLeft cbRight : Option P} (hleft : s.Fresh cbLeft) (hright : s.Fresh cbRight)
    (hne : cbLeft = cbRight → cbLeft = none) {stAlign : ℕ} {ty : PageType}
    (halloc : pageAllocateAlign cfg s z n stAlign ty cbLeft cbRight = (some p, s₁)) :
    Restored cfg s (pageFree cfg s₁ z p) z blocks := by
  unfold pageAllocateAlign at halloc
  dsimp only at halloc
  split at halloc
  · exact nomatch halloc
  · rename_i i fit f hsearch
    obtain ⟨⟨l, t, rfl⟩, hfree, hindex, hfit, rfl⟩ := h.search hsearch
    split at halloc
    · cases cbLeft with
      | none => exact nomatch halloc
      | some new =>
        have hnew := hleft new rfl
        dsimp only at halloc
        split at halloc
        · cases cbRight with
          | none => exact nomatch halloc
          | some right =>
            have hapart : new ≠ right := fun e => nomatch hne (congrArg some e)
            simp only [Prod.mk.injEq, Option.some.injEq] at halloc
            obtain ⟨rfl, hs⟩ := halloc
            exact (h.taken_middle hz hfree hindex hfit hnew (hright right rfl) hapart ty hs).restored h
        · simp only [Prod.mk.injEq, Option.some.injEq] at halloc
          obtain ⟨rfl, hs⟩ := halloc
          exact (h.taken_back hz hfree hindex (by omega) hnew hs).restored h
    · split at halloc
      · cases cbRight with
        | none => exact nomatch halloc
        | some right =>
          simp only [Prod.mk.injEq, Option.some.injEq] at halloc
          obtain ⟨rfl, hs⟩ := halloc
          exact (h.taken_front hz hfree hindex (by omega) (hright right rfl) ty hs).restored h
      · simp only [Prod.mk.injEq, Option.some.injEq] at halloc
        obtain ⟨rfl, hs⟩ := halloc
        exact (h.taken_whole hz hfree hindex (by omega) hs).restored h

/-- A block that is given back right after its allocation leaves the zone as it was: its blocks,
what they cover, the free pages and the entries of the hash table. -/
theorem free_undoes_allocation (h : Zone cfg s z blocks) (hz : s.created z = true)
    {cb cbLeft cbRight : Option P} (hcb : s.Fresh cb) (hleft : s.Fresh cbLeft)
    (hright : s.Fresh cbRight) (hne : cbLeft = cbRight → cbLeft = none) (n stAlign : ℕ)
    (ty : PageType) :
    (∀ p s₁, pageAllocate cfg s z n ty cb = (some p, s₁) →
      Restored cfg s (pageFree cfg s₁ z p) z blocks) ∧
    ∀ p s₁, pageAllocateAlign cfg s z n stAlign ty cbLeft cbRight = (some p, s₁) →
      Restored cfg s (pageFree cfg s₁ z p) z blocks :=
  ⟨fun _ _ halloc => pageFree_allocate h hz hcb halloc,
    fun _ _ halloc => pageFree_allocateAlign h hz hleft hright hne halloc⟩

/-- Three pages at a multiple of 16, with free pages left on both sides -/
theorem free_undoes_allocation_small : ∃ blocks, Zone smallConfig smallStore () blocks ∧
    ∃ p s₁, pageAllocateAlign smallConfig smallStore () 3 16 .physical (some 1) (some 2) =
      (some p, s₁) ∧ Restored smallConfig smallStore (pageFree smallConfig s₁ () p) () blocks := by
  obtain ⟨blocks, h⟩ := smallStore_ok.zone (z := ()) rfl
  have hleft : smallStore.Fresh (some 1) := by decide
  have hright : smallStore.Fresh (some 2) := by decide
  have hback := free_undoes_allocation h rfl hleft hleft hright (by decide) 3 16 .physical
  exact ⟨blocks, h, 1, _, rfl, hback.2 1 _ rfl⟩

end SylixOS.PageLib
