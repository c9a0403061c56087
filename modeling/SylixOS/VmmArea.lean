import SylixOS.StepRuns
import SylixOS.TreeRbFrame

/-! The page area of `vmmArea.c`: a hash of red-black trees of pages, all of them over the nodes
inside the pages. A null pointer that is followed and a loop out of fuel give `none`. -/

namespace SylixOS.VmmArea
open RedBlackTree RbTree TreeRb Rb Function StepRuns

variable {A : Type} [DecidableEq A]

def link (h : Rb A) (slot : Option (A × Side)) : Option A :=
  slot.elim h.node fun s => h.child s.2 s.1

def linkNode (h : Rb A) (a : A) (p : Option A) (slot : Option (A × Side)) : Rb A :=
  let h := (((h.setParent a p).setRed a true).setChild .right a none).setChild .left a none
  slot.elim { h with node := some a } fun s => h.setChild s.2 s.1 (some a)

/-- `LW_VMM_AREA` with the pages: the roots of `AREA_ptrbrHash`, `PAGE_ulPageAddr` and the fields
of `PAGE_trbnNode`. `pageShift` is `LW_CFG_VMM_PAGE_SHIFT`. -/
structure Area (A : Type) where
  ulHashSize : ℕ
  hash : ℕ → Option A
  pageShift : ℕ
  addr : A → ℕ
  parent : A → Option A
  child : Side → A → Option A
  red : A → Bool

namespace Area

def tree (ar : Area A) (i : ℕ) : Rb A := ⟨ar.hash i, ar.parent, ar.child, ar.red⟩

def setTree (ar : Area A) (i : ℕ) (h : Rb A) : Area A :=
  { ar with hash := update ar.hash i h.node, parent := h.parent, child := h.child, red := h.red }

def setAddr (ar : Area A) (pvmpage : A) (ulAddr : ℕ) : Area A :=
  { ar with addr := update ar.addr pvmpage ulAddr }

def hashIndex (ar : Area A) (ulAddr : ℕ) : ℕ := (ulAddr >>> ar.pageShift) % ar.ulHashSize

/-- The loop of `__areaSearchPage` and of `__areaInsertPage`, which keeps the link it comes by: the
page at the address, if there is one, and the link where the loop ends -/
def descend (ar : Area A) (h : Rb A) (ulAddr : ℕ) :
    ℕ → Option (A × Side) → Option (Option A × Option (A × Side))
  | 0, _ => none
  | fuel + 1, slot =>
    match link h slot with
    | none => some (none, slot)
    | some k =>
      if ulAddr < ar.addr k then descend ar h ulAddr fuel (some (k, .left))
      else if ar.addr k < ulAddr then descend ar h ulAddr fuel (some (k, .right))
      else some (some k, slot)

def areaSearchPage (fuel : ℕ) (ar : Area A) (ulAddr : ℕ) : Option (Option A) :=
  (ar.descend (ar.tree (ar.hashIndex ulAddr)) ulAddr fuel none).map Prod.fst

def areaInsertPage (fuel : ℕ) (ar : Area A) (ulAddr : ℕ) (pvmpage : A) : Option (Area A) :=
  let i := ar.hashIndex ulAddr
  (ar.descend (ar.tree i) ulAddr fuel none).bind fun q =>
    if q.1.isSome then some ar
    else ((linkNode (ar.tree i) pvmpage (q.2.map Prod.fst) q.2).insertColor fuel pvmpage).map
      (ar.setTree i)

def areaUnlinkPage (fuel : ℕ) (ar : Area A) (ulAddr : ℕ) (pvmpage : A) : Option (Area A) :=
  let i := ar.hashIndex ulAddr
  ((ar.tree i).erase fuel pvmpage).map (ar.setTree i)

end Area

/-- What the callers of the area do: `vmm.c`, `vmmMalloc.c`, `vmmIo.c` and `vmmStack.c` register a
page at the address they have given it, and unlink it at that address. -/
inductive Call (A : Type) where
  | insert (pvmpage : A) (ulAddr : ℕ)
  | unlink (pvmpage : A)

def step (fuel : ℕ) (ar : Area A) : Call A → Option (Area A)
  | .insert pvmpage ulAddr => (ar.setAddr pvmpage ulAddr).areaInsertPage fuel ulAddr pvmpage
  | .unlink pvmpage => ar.areaUnlinkPage fuel (ar.addr pvmpage) pvmpage

def mapStep (M : ℕ → Option A) : Call A → ℕ → Option A
  | .insert pvmpage ulAddr => if M ulAddr = none then update M ulAddr (some pvmpage) else M
  | .unlink pvmpage => fun x => if M x = some pvmpage then none else M x

def Legal (M : ℕ → Option A) : Call A → Prop
  | .insert pvmpage _ => ∀ x, M x ≠ some pvmpage
  | .unlink pvmpage => ∃ x, M x = some pvmpage

variable {ar : Area A} {h : Rb A} {ctx : List (Frame A)} {t : RbTree A} {a : A}
  {p : Option A} {i x fuel : ℕ}

def slotOf (ctx : List (Frame A)) : Option (A × Side) := ctx.head?.map fun f => (f.top, f.side)

omit [DecidableEq A] in
theorem link_slotOf (hs : Stored h (plug ctx t)) : link h (slotOf ctx) = t.root := by
  obtain ⟨hhole, -⟩ := stored_plug.mp hs
  cases ctx with
  | nil => exact hhole
  | cons f ctx => exact hhole.2.2.1

omit [DecidableEq A] in
theorem descend_spec {pre post : List A} (hs : Stored h (plug ctx t))
    (horder : ∀ u, (plug ctx u).inorder = pre ++ u.inorder ++ post)
    (hsorted : t.inorder.Pairwise fun a b => ar.addr a < ar.addr b)
    (hpre : ∀ k ∈ pre, ar.addr k < x) (hpost : ∀ k ∈ post, x < ar.addr k)
    (hfuel : t.inorder.length < fuel) :
    (∃ k ∈ t.inorder, ar.addr k = x ∧ ∃ s, ar.descend h x fuel (slotOf ctx) = some (some k, s)) ∨
      ∃ ctx' pre' post', plug ctx' nil = plug ctx t ∧
        (∀ u, (plug ctx' u).inorder = pre' ++ u.inorder ++ post') ∧
        (∀ k ∈ pre', ar.addr k < x) ∧ (∀ k ∈ post', x < ar.addr k) ∧
        ar.descend h x fuel (slotOf ctx) = some (none, slotOf ctx') := by
  obtain ⟨n, rfl⟩ := Nat.exists_eq_succ_of_ne_zero (Nat.ne_of_gt (Nat.zero_lt_of_lt hfuel))
  have hlink := link_slotOf hs
  induction t generalizing ctx pre post n with
  | nil => exact Or.inr ⟨ctx, pre, post, rfl, horder, hpre, hpost, by rw [Area.descend, hlink]; rfl⟩
  | node c a l r ihl ihr =>
    obtain ⟨hsl, hsr, hlr⟩ := List.pairwise_append.mp hsorted
    obtain ⟨har, hsr⟩ := List.pairwise_cons.mp hsr
    simp only [inorder, List.length_append, List.length_cons] at hfuel
    obtain ⟨n, rfl⟩ := Nat.exists_eq_succ_of_ne_zero (show n ≠ 0 by omega)
    rw [Area.descend, hlink]
    dsimp only [root]
    rcases Nat.lt_trichotomy x (ar.addr a) with hlt | rfl | hgt
    · rw [if_pos hlt]
      have hs' : Stored h (plug (⟨.left, c, a, r⟩ :: ctx) l) := hs
      have hpost' : ∀ k ∈ a :: r.inorder ++ post, x < ar.addr k := List.forall_mem_append.mpr
        ⟨List.forall_mem_cons.mpr ⟨hlt, fun k hk => Nat.lt_trans hlt (har k hk)⟩, hpost⟩
      rcases ihl hs' (fun u => by simp [plug, join, horder, inorder]) hsl hpre hpost' n (by omega)
        (link_slotOf hs') with ⟨k, hk, hfound⟩ | hr
      · exact Or.inl ⟨k, List.mem_append_left _ hk, hfound⟩
      · exact Or.inr hr
    · exact Or.inl ⟨a, root_mem rfl, rfl, slotOf ctx, by simp⟩
    · rw [if_neg (Nat.lt_asymm hgt), if_pos hgt]
      have hs' : Stored h (plug (⟨.right, c, a, l⟩ :: ctx) r) := hs
      have hpre' : ∀ k ∈ pre ++ l.inorder ++ [a], ar.addr k < x := List.forall_mem_append.mpr
        ⟨List.forall_mem_append.mpr ⟨hpre, fun k hk =>
          Nat.lt_trans (hlr k hk a List.mem_cons_self) hgt⟩, List.forall_mem_singleton.mpr hgt⟩
      rcases ihr hs' (fun u => by simp [plug, join, horder, inorder]) hsr hpre' hpost n (by omega)
        (link_slotOf hs') with ⟨k, hk, hfound⟩ | hr
      · exact Or.inl ⟨k, List.mem_append_right _ (List.mem_cons_of_mem a hk), hfound⟩
      · exact Or.inr hr

theorem linkNode_same {slot : Option (A × Side)} {k : A} (hk : k ≠ a)
    (hslot : ∀ s, slot = some s → k ≠ s.1) : Same h (linkNode h a p slot) k := by
  cases slot with
  | none => simp [Same, Kept, linkNode, hk]
  | some s => simp [Same, Kept, linkNode, hk, hslot s rfl]

theorem linkNode_spec (hs : Stored h (plug ctx nil)) (ha : a ∉ (plug ctx nil).inorder) :
    Stored (linkNode h a (above ctx) (slotOf ctx)) (plug ctx (node true a nil nil)) := by
  obtain ⟨hhole, -, hnodup⟩ := stored_plug.mp hs
  have hfresh : a ∉ names ctx := fun hin => ha (perm_plug.mem_iff.mpr hin)
  have hlist : (a :: names ctx).Nodup := List.nodup_cons.mpr ⟨hfresh, hnodup⟩
  cases ctx with
  | nil => exact ⟨rfl, by simp [plug, TreeRb.Rep, linkNode, slotOf, above, root], hlist⟩
  | cons f ctx =>
    obtain ⟨hparent, hred, -, hother, hsib, hup⟩ := hhole
    obtain ⟨hf, hrest⟩ := List.nodup_cons.mp hnodup
    obtain ⟨hns, hnc, -⟩ := List.nodup_append.mp hrest
    have hne : f.top ≠ a := fun heq => hfresh (heq ▸ List.mem_cons_self)
    have hsame : ∀ k ∈ f.sib.inorder ++ names ctx,
        Same h (linkNode h a (above (f :: ctx)) (slotOf (f :: ctx))) k := by
      intro k hk
      refine linkNode_same (fun heq => hfresh (heq ▸ List.mem_cons_of_mem _ hk)) ?_
      rintro s ⟨⟩ rfl
      exact hf hk
    have hflip : f.side.flip ≠ f.side := by cases f.side <;> simp [Side.flip]
    refine stored_plug.mpr ⟨⟨?_, ?_, ?_, ?_, hsib.congr hns fun k hk =>
      hsame k (List.mem_append_left _ hk), hup.congr hnc rfl fun k hk =>
      hsame k (List.mem_append_right _ hk)⟩, ?_, hlist⟩
    all_goals simp [linkNode, slotOf, root, TreeRb.Rep, hne, Ne.symm hne, hflip, hparent, hred,
      hother]

structure Bucket (n : ℕ) (ar : Area A) (M : ℕ → Option A) (i : ℕ) (l : List A) : Prop where
  settled : Settled (some (ar.tree i)) l
  sorted : l.Pairwise fun a b => ar.addr a < ar.addr b
  length : l.length ≤ n
  mem : ∀ k, k ∈ l ↔ M (ar.addr k) = some k ∧ ar.hashIndex (ar.addr k) = i

def Linked (n : ℕ) (ar : Area A) (M : ℕ → Option A) : Prop :=
  (∀ i, ∃ l, Bucket n ar M i l) ∧ ∀ x k, M x = some k → ar.addr k = x

variable {n : ℕ} {M M' : ℕ → Option A} {l : List A} {h' : Rb A}

omit [DecidableEq A] in
theorem Linked.setTree (hl : Linked n ar M) (hs : Settled (some h') l)
    (hsorted : l.Pairwise fun a b => ar.addr a < ar.addr b) (hlen : l.length ≤ n + 1)
    (hmem : ∀ k, k ∈ l ↔ M' (ar.addr k) = some k ∧ ar.hashIndex (ar.addr k) = i)
    (hsame : ∀ k, ar.hashIndex (ar.addr k) ≠ i → M (ar.addr k) = some k → Same (ar.tree i) h' k)
    (hM : ∀ x, ar.hashIndex x ≠ i → M' x = M x) (haddr : ∀ x k, M' x = some k → ar.addr k = x) :
    Linked (n + 1) (ar.setTree i h') M' := by
  refine ⟨fun j => ?_, haddr⟩
  rcases eq_or_ne j i with rfl | hj
  · exact ⟨l, by simpa [Area.tree, Area.setTree] using hs, hsorted, hlen, hmem⟩
  · obtain ⟨l', hb⟩ := hl.1 j
    obtain ⟨_, t, ⟨⟩, hs, rfl, hrb⟩ := hb.settled
    refine ⟨_, ⟨_, t, rfl, ⟨(update_of_ne hj ..).trans hs.root, hs.rep.congr hs.nodup fun k hk =>
      ?_, hs.nodup⟩, rfl, hrb⟩, hb.sorted, Nat.le_succ_of_le hb.length, fun k => (hb.mem k).trans
      (and_congr_left fun hk => ?_)⟩
    · have hk := (hb.mem k).mp hk
      exact hsame k (hk.2 ▸ hj) hk.1
    · exact (congrArg (· = some k) (hM _ (hk ▸ hj))).to_iff.symm

theorem Linked.setAddr (hl : Linked n ar M) (ha : ∀ x, M x ≠ some a) :
    Linked n (ar.setAddr a x) M := by
  have haddr : ∀ k y, M y = some k → (ar.setAddr a x).addr k = ar.addr k := fun k y hk =>
    update_of_ne (fun heq : k = a => ha y (heq ▸ hk)) ..
  refine ⟨fun i => ?_, fun y k hk => (haddr k y hk).trans (hl.2 y k hk)⟩
  obtain ⟨l, hb⟩ := hl.1 i
  have hin := fun k hk => haddr k _ ((hb.mem k).mp hk).1
  refine ⟨l, hb.settled, hb.sorted.imp_of_mem (by grind), hb.length, fun k => ⟨fun hk => ?_,
    fun hk => (hb.mem k).mpr ?_⟩⟩
  · exact hin k hk ▸ (hb.mem k).mp hk
  · exact haddr k _ hk.1 ▸ hk

theorem Linked.unlink (hl : Linked n ar M) (ha : M x = some a) (hn : n < fuel) :
    ∃ ar', step fuel ar (.unlink a) = some ar' ∧ Linked (n + 1) ar' (mapStep M (.unlink a)) := by
  obtain rfl := hl.2 x a ha
  obtain ⟨l, hb⟩ := hl.1 (ar.hashIndex (ar.addr a))
  obtain ⟨_, t, ⟨⟩, hs, rfl, hrb⟩ := hb.settled
  have hmem : a ∈ t.inorder := (hb.mem a).mpr ⟨ha, rfl⟩
  obtain ⟨h', t', hr, hset⟩ := erase_spec hs hrb hmem (Nat.lt_of_le_of_lt hb.length hn)
  have hlocal := hs.inside.erase hmem hr
  refine ⟨_, by rw [step, Area.areaUnlinkPage, hr]; rfl, hl.setTree ⟨h', t', rfl, hset⟩
    (hb.sorted.sublist List.erase_sublist) (Nat.le_succ_of_le (Nat.le_trans List.length_erase_le
    hb.length)) (fun k => ?_) (fun k hk _ => hlocal.frame k fun hin => hk ((hb.mem k).mp hin).2)
    (fun y hy => if_neg fun heq => hy (by rw [hl.2 y a heq])) fun y k hk => hl.2 y k ?_⟩
  · rw [hs.nodup.mem_erase_iff, hb.mem]
    grind [mapStep]
  · grind [mapStep]

omit [DecidableEq A] in
theorem Linked.descend (hl : Linked n ar M) (hn : n < fuel) (x : ℕ) :
    ∃ s, ar.descend (ar.tree (ar.hashIndex x)) x fuel none = some (M x, s) ∧
      (M x = none → ∃ ctx pre post, s = slotOf ctx ∧ (∀ k ∈ pre, ar.addr k < x) ∧
        (∀ k ∈ post, x < ar.addr k) ∧ (∀ u, (plug ctx u).inorder = pre ++ u.inorder ++ post) ∧
        Stored (ar.tree (ar.hashIndex x)) (plug ctx nil) ∧ (plug ctx nil).IsRb ∧
        Bucket n ar M (ar.hashIndex x) (pre ++ post)) := by
  obtain ⟨l, hb⟩ := hl.1 (ar.hashIndex x)
  obtain ⟨_, t, ⟨⟩, hs, rfl, hrb⟩ := hb.settled
  have hin : ∀ k, M x = some k ↔ k ∈ t.inorder ∧ ar.addr k = x := by
    grind [hb.mem, hl.2 x]
  rcases descend_spec (x := x) (show Stored _ (plug [] t) from hs)
    (show ∀ u, (plug [] u).inorder = [] ++ u.inorder ++ [] by simp [plug]) hb.sorted (by simp)
    (by simp) (Nat.lt_of_le_of_lt hb.length hn) with
    ⟨k, hk, hkx, s, hd⟩ | ⟨ctx, pre, post, rfl, horder, hpre, hpost, hd⟩
  · have hM := (hin k).mpr ⟨hk, hkx⟩
    exact ⟨s, hM ▸ hd, fun hnone => absurd (hnone.symm.trans hM) (Option.some_ne_none k).symm⟩
  · have hold : (plug ctx nil).inorder = pre ++ post := by simp [horder, inorder]
    rw [hold] at hin hb
    have hnone : M x = none := Option.eq_none_iff_forall_ne_some.mpr fun k hk => by grind
    exact ⟨_, hnone ▸ hd, fun _ => ⟨ctx, pre, post, rfl, hpre, hpost, horder, hs, hrb, hb⟩⟩

theorem Linked.insert (hl : Linked n ar M) (ha : ∀ x, M x ≠ some a) (hn : n < fuel) (x : ℕ) :
    ∃ ar', step fuel ar (.insert a x) = some ar' ∧
      Linked (n + 1) ar' (mapStep M (.insert a x)) := by
  have hlx := hl.setAddr ha (x := x)
  have hax : (ar.setAddr a x).addr a = x := update_self ..
  rw [step, Area.areaInsertPage]
  generalize ar.setAddr a x = ar at hlx hax
  obtain ⟨s, hd, hslot⟩ := hlx.descend hn x
  rw [hd, Option.bind_some]
  cases hM : M x with
  | some k =>
    refine ⟨ar, rfl, ?_⟩
    rw [mapStep, if_neg (by simp [hM])]
    exact ⟨fun i => (hlx.1 i).imp fun l hb => { hb with length := Nat.le_succ_of_le hb.length },
      hlx.2⟩
  | none =>
    obtain ⟨ctx, pre, post, rfl, hpre, hpost, horder, hs, hrb, hb⟩ := hslot hM
    have hnew : (plug ctx (node true a nil nil)).inorder = pre ++ [a] ++ post := horder _
    have hold : (plug ctx nil).inorder = pre ++ post := by simp [horder, inorder]
    clear horder hslot
    have hlink := linkNode_spec (a := a) hs (by grind [hb.mem])
    have habove : above ctx = (slotOf ctx).map Prod.fst := by cases ctx <;> rfl
    have hin : a ∈ {k | k ∈ (plug ctx (node true a nil nil)).inorder} :=
      show a ∈ (plug ctx _).inorder by simp [hnew]
    have hlocal : Inside _ (ar.tree (ar.hashIndex x)) _ := { hlink.inside with
      frame := fun k hk => linkNode_same (fun heq => hk (heq ▸ hin)) fun q hq heq => hk
        (perm_plug.mem_iff.mpr (List.mem_append_right _ (above_mem (by simp [habove, hq, heq])))) }
    obtain ⟨_, rfl, hfit, -⟩ := isRb_plug.mp hrb
    have hlen : ctx.length < fuel := by grind [plug_length ctx nil, hb.length]
    obtain ⟨h', t', hr, hset⟩ := insertColor_spec hlink rfl rfl ⟨rfl, rfl, rfl, rfl⟩ hfit hlen
    rw [hnew] at hset
    have hmap : ∀ y, mapStep M (.insert a x) y = if y = x then some a else M y := fun y => by
      rw [mapStep, if_pos hM, update_apply]
    refine ⟨ar.setTree (ar.hashIndex x) h', by simp [← habove, hr], hlx.setTree ⟨h', t', rfl, hset⟩
      ?_ ?_ (fun k => ?_) (fun k hk hMk => (hlocal.insertColor hin hr).frame k ?_) ?_ ?_⟩
    · have hsorted := hb.sorted
      simp only [List.pairwise_append, List.pairwise_singleton] at hsorted ⊢
      grind
    · grind [hb.length]
    · have := hb.mem k
      grind
    · have := hb.mem k
      change k ∉ (plug ctx _).inorder
      grind
    · grind
    · grind [hlx.2]

theorem Linked.run (hl : Linked n ar M) {calls : List (Call A)}
    (hlegal : Obeys (fun M c => some (mapStep M c)) Legal M calls) (hn : n + calls.length < fuel) :
    ∃ ar' n', run (step fuel) ar calls = some ar' ∧ n' < fuel ∧
      Linked n' ar' (calls.foldl mapStep M) := by
  induction calls generalizing n ar M with
  | nil => exact ⟨ar, n, rfl, hn, hl⟩
  | cons c calls ih =>
    obtain ⟨hc, hrest⟩ := hlegal _ rfl
    obtain ⟨ar', hstep, hl'⟩ : ∃ ar', step fuel ar c = some ar' ∧
        Linked (n + 1) ar' (mapStep M c) := by
      cases c with
      | insert a x => exact hl.insert hc (by omega) x
      | unlink a =>
        obtain ⟨x, hx⟩ := hc
        exact hl.unlink hx (by omega)
    obtain ⟨ar'', n', hrun, hdone⟩ := ih hl' hrest (by rw [List.length_cons] at hn; omega)
    exact ⟨ar'', n', by rw [run_cons, hstep]; exact hrun, hdone⟩

/-- From a hash of null roots, all calls go through, and the searches find what the map says. -/
theorem area_refines_map (ar : Area A) (calls : List (Call A)) (fuel : ℕ)
    (hhash : ∀ i, ar.hash i = none)
    (hlegal : Obeys (fun M c => some (mapStep M c)) Legal (fun _ => none) calls)
    (hfuel : calls.length < fuel) : ∃ ar', run (step fuel) ar calls = some ar' ∧
      ∀ x, ar'.areaSearchPage fuel x = some (calls.foldl mapStep (fun _ => none) x) := by
  have hl : Linked 0 ar fun _ => none := ⟨fun i => ⟨[], ⟨_, nil, rfl, ⟨hhash i, trivial, .nil⟩, rfl,
    rfl, 0, rfl⟩, .nil, Nat.le_refl 0, by simp⟩, by simp⟩
  obtain ⟨ar', n, hrun, hn, hdone⟩ := hl.run hlegal (by rwa [Nat.zero_add])
  refine ⟨ar', hrun, fun x => ?_⟩
  obtain ⟨s, hd, -⟩ := hdone.descend hn x
  rw [Area.areaSearchPage, hd]
  rfl

def noPages : Area ℕ := ⟨5, fun _ => none, 12, id, fun _ => none, fun _ _ => none, fun _ => true⟩

/-- Three pages of one tree, which rotates, and the first one is unlinked. -/
theorem area_refines_map_three : ∃ ar', run (step 5) noPages
      [.insert 7 0x1000, .insert 8 0x6000, .insert 9 0xb000, .unlink 7] = some ar' ∧
    ar'.areaSearchPage 5 0x6000 = some (some 8) ∧ ar'.areaSearchPage 5 0x1000 = some none := by
  have hlegal : Obeys (fun M c => some (mapStep M c)) Legal (fun _ => none)
      [.insert 7 0x1000, .insert 8 0x6000, .insert 9 0xb000, .unlink 7] := by
    refine (obeys_cons rfl).mpr ⟨nofun, (obeys_cons rfl).mpr ⟨fun x => ?_,
      (obeys_cons rfl).mpr ⟨fun x => ?_, (obeys_cons rfl).mpr ⟨⟨0x1000, rfl⟩, trivial⟩⟩⟩⟩
    · simp only [mapStep]
      grind
    · simp only [mapStep]
      grind
  obtain ⟨ar', hrun, hsearch⟩ := area_refines_map noPages
    [.insert 7 0x1000, .insert 8 0x6000, .insert 9 0xb000, .unlink 7] 5 (fun _ => rfl) hlegal
    (by decide)
  exact ⟨ar', hrun, hsearch 0x6000, hsearch 0x1000⟩

end SylixOS.VmmArea
