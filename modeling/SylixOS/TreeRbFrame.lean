import Mathlib.Data.Set.Defs
import SylixOS.TreeRbErase

/-! The operations of `treeRb.c` touch only a set of nodes that the links do not leave, whatever
the links look like. -/

namespace SylixOS.TreeRb
open RedBlackTree RbTree Rb

variable {A : Type} [DecidableEq A] {S : Set A} {h₀ h h' : Rb A} {d : Side} {a b k : A}
  {p v x : Option A} {fuel : ℕ}

def Into (S : Set A) (v : Option A) : Prop := ∀ k, v = some k → k ∈ S

/-- The root pointer and the links of the set stay in it; outside, the memory is that of `h₀`. -/
structure Inside (S : Set A) (h₀ h : Rb A) : Prop where
  node : Into S h.node
  parent : ∀ k ∈ S, Into S (h.parent k)
  child : ∀ d, ∀ k ∈ S, Into S (h.child d k)
  frame : ∀ k, k ∉ S → Same h₀ h k

omit [DecidableEq A] in
theorem into_some : Into S (some a) ↔ a ∈ S :=
  ⟨fun h => h a rfl, fun ha _ heq => Option.some.inj heq ▸ ha⟩

theorem Inside.setParent (hi : Inside S h₀ h) (ha : a ∈ S) (hv : Into S v) :
    Inside S h₀ (h.setParent a v) := by
  refine ⟨hi.node, fun k hk => ?_, hi.child, fun k hk => ?_⟩
  · have := hi.parent k hk
    grind [setParent_parent]
  · have hne : k ≠ a := fun heq => hk (heq ▸ ha)
    simpa [Same, Kept, hne] using hi.frame k hk

theorem Inside.setChild (hi : Inside S h₀ h) (ha : a ∈ S) (hv : Into S v) :
    Inside S h₀ (h.setChild d a v) := by
  refine ⟨hi.node, hi.parent, fun e k hk => ?_, fun k hk => ?_⟩
  · have := hi.child e k hk
    grind [setChild_child]
  · have hne : k ≠ a := fun heq => hk (heq ▸ ha)
    simpa [Same, Kept, hne] using hi.frame k hk

theorem Inside.setRed {c : Bool} (hi : Inside S h₀ h) (ha : a ∈ S) :
    Inside S h₀ (h.setRed a c) := by
  refine ⟨hi.node, hi.parent, hi.child, fun k hk => ?_⟩
  have hne : k ≠ a := fun heq => hk (heq ▸ ha)
  simpa [Same, Kept, hne] using hi.frame k hk

theorem Inside.adopt (hi : Inside S h₀ h) (hx : Into S x) (hp : Into S p) :
    Inside S h₀ (h.adopt x p) := by
  cases x with
  | none => exact hi
  | some b => exact hi.setParent (into_some.mp hx) hp

theorem Inside.paint {c : Bool} (hi : Inside S h₀ h) (hx : Into S x) :
    Inside S h₀ (h.paint x c) := by
  cases x with
  | none => exact hi
  | some b => exact hi.setRed (into_some.mp hx)

theorem Inside.relink (hi : Inside S h₀ h) (hp : Into S p) (hv : Into S v) :
    Inside S h₀ (h.relink d a p v) := by
  cases p with
  | none => exact ⟨hv, hi.parent, hi.child, hi.frame⟩
  | some q =>
    have hq := into_some.mp hp
    simp only [Rb.relink]
    split_ifs <;> exact hi.setChild hq hv

theorem Inside.rotate (hi : Inside S h₀ h) (ha : a ∈ S) (hr : h.rotate d a = some h') :
    Inside S h₀ h' := by
  obtain ⟨b, hb, rfl⟩ := Option.map_eq_some_iff.mp hr
  have hbS : b ∈ S := hi.child _ a ha b hb
  have hy := hi.child d b hbS
  have h₁ := ((hi.setChild (d := d.flip) ha hy).adopt hy (into_some.mpr ha)).setChild (d := d) hbS
    (into_some.mpr ha)
  have h₂ := h₁.setParent hbS (h₁.parent a ha)
  exact (h₂.relink (h₁.parent a ha) (into_some.mpr hbS)).setParent ha (into_some.mpr hbS)

theorem Inside.blacken (hi : Inside S h₀ h) (hr : h.blacken = some h') : Inside S h₀ h' := by
  obtain ⟨r, hnode, rfl⟩ := Option.map_eq_some_iff.mp hr
  exact hi.setRed (hi.node r hnode)

theorem Inside.insertColor (hi : Inside S h₀ h) (ha : a ∈ S)
    (hr : h.insertColor fuel a = some h') : Inside S h₀ h' := by
  induction fuel generalizing h a with
  | zero => cases hr
  | succ fuel ih =>
    unfold Rb.insertColor at hr
    split at hr
    · exact hi.blacken hr
    · next p hparent =>
      have hp := hi.parent a ha p hparent
      split_ifs at hr with hred
      · obtain ⟨g, hg, hr⟩ := Option.bind_eq_some_iff.mp hr
        have hgS := hi.parent p hp g hg
        dsimp only at hr
        split_ifs at hr
        · exact ih (((hi.paint (hi.child _ g hgS)).setRed hp).setRed hgS) hgS hr
        · simp only [Option.bind_eq_some_iff] at hr
          obtain ⟨h₁, h₁r, h₂, h₂r, hr⟩ := hr
          exact ih ((((hi.rotate hp h₁r).setRed ha).setRed hgS).rotate hgS h₂r) hp hr
        · obtain ⟨h₁, h₁r, hr⟩ := Option.bind_eq_some_iff.mp hr
          exact ih (((hi.setRed hp).setRed hgS).rotate hgS h₁r) ha hr
      · exact hi.blacken hr

theorem Inside.eraseTurn (hi : Inside S h₀ h) (ha : a ∈ S) (hb : b ∈ S)
    (hr : h.eraseTurn d a b = some h') : Inside S h₀ h' := by
  have h₁ := (hi.setRed (c := h.red a) hb).setRed (c := false) ha
  exact (h₁.paint (h₁.child _ b hb)).rotate ha hr

theorem Inside.eraseAt {goon : Rb A → Option A → Option A → Option (Rb A)} (hi : Inside S h₀ h)
    (ha : a ∈ S) (hb : b ∈ S) (hr : h.eraseAt goon d a b = some h')
    (hgoon : ∀ {g x p}, Inside S h₀ g → Into S x → Into S p → goon g x p = some h' →
      Inside S h₀ h') : Inside S h₀ h' := by
  unfold Rb.eraseAt at hr
  split_ifs at hr
  · exact hgoon (hi.setRed hb) (into_some.mpr ha) (hi.parent a ha) hr
  · simp only [Option.bind_eq_some_iff] at hr
    obtain ⟨h₁, h₁r, b', hb', h₂, h₂r, ⟨⟩⟩ := hr
    have hi₁ := ((hi.paint (hi.child _ b hb)).setRed hb).rotate hb h₁r
    have hi₂ := hi₁.eraseTurn ha (hi₁.child _ a ha b' hb') h₂r
    exact hi₂.paint hi₂.node
  · obtain ⟨h₂, h₂r, ⟨⟩⟩ := Option.bind_eq_some_iff.mp hr
    have hi₂ := hi.eraseTurn ha hb h₂r
    exact hi₂.paint hi₂.node

theorem Inside.eraseColor (hi : Inside S h₀ h) (hx : Into S x) (hp : Into S p)
    (hr : h.eraseColor fuel x p = some h') : Inside S h₀ h' := by
  induction fuel generalizing h x p with
  | zero => cases hr
  | succ fuel ih =>
    unfold Rb.eraseColor at hr
    split_ifs at hr with hgo
    · obtain ⟨a, hpa, hr⟩ := Option.bind_eq_some_iff.mp hr
      have ha := hp a hpa
      obtain ⟨b, hb, hr⟩ := Option.bind_eq_some_iff.mp hr
      have hbS := hi.child _ a ha b hb
      split_ifs at hr
      · obtain ⟨h₁, h₁r, hr⟩ := Option.bind_eq_some_iff.mp hr
        obtain ⟨b', hb', hr⟩ := Option.bind_eq_some_iff.mp hr
        have hi₁ := ((hi.setRed hbS).setRed ha).rotate ha h₁r
        exact hi₁.eraseAt ha (hi₁.child _ a ha b' hb') hr ih
      · exact hi.eraseAt ha hbS hr ih
    · cases hr
      exact hi.paint hx

theorem Inside.splice (hi : Inside S h₀ h) (ha : a ∈ S) (hx : Into S x) :
    Inside S h₀ (h.splice a x) := by
  have hp := hi.parent a ha
  exact (hi.adopt hx hp).relink hp hx

theorem Inside.replace (hi : Inside S h₀ h) (ha : a ∈ S) (hb : b ∈ S) :
    Inside S h₀ (h.replace a b) := by
  have h₁ := (hi.setParent hb (hi.parent a ha)).setRed (c := h.red a) hb
  have h₂ := (h₁.setChild (d := .right) hb (h₁.child .right a ha)).setChild (d := .left) hb
    (h₁.child .left a ha)
  have h₃ := h₂.relink (d := .left) (a := a) (h₂.parent a ha) (into_some.mpr hb)
  exact (h₃.adopt (h₃.child .left a ha) (into_some.mpr hb)).adopt (h₃.child .right a ha)
    (into_some.mpr hb)

omit [DecidableEq A] in
theorem Inside.leftmost (hi : Inside S h₀ h) (ha : a ∈ S) (hr : h.leftmost fuel a = some b) :
    b ∈ S := by
  induction fuel generalizing a with
  | zero => cases hr
  | succ fuel ih =>
    unfold Rb.leftmost at hr
    split at hr
    · next l hl => exact ih (hi.child _ a ha l hl) hr
    · exact Option.some.inj hr ▸ ha

theorem Inside.erase (hi : Inside S h₀ h) (ha : a ∈ S) (hr : h.erase fuel a = some h') :
    Inside S h₀ h' := by
  have hunlink : ∀ {x}, Into S x → (if h.red a then some (h.splice a x) else
      Rb.eraseColor fuel (h.splice a x) x (h.parent a)) = some h' → Inside S h₀ h' := by
    intro x hx hr
    split_ifs at hr
    · cases hr
      exact hi.splice ha hx
    · exact (hi.splice ha hx).eraseColor hx (hi.parent a ha) hr
  unfold Rb.erase at hr
  split at hr
  · next l r hl hright =>
    obtain ⟨b, hb, hr⟩ := Option.bind_eq_some_iff.mp hr
    have hbS := hi.leftmost (hi.child _ a ha r hright) hb
    have hx := hi.child .right b hbS
    have h₁ := (hi.splice hbS hx).replace ha hbS
    dsimp only at hr
    split_ifs at hr
    · cases hr
      exact h₁
    · exact h₁.eraseColor hx (into_some.mpr hbS) hr
    · exact h₁.eraseColor hx (hi.parent b hbS) hr
  · next l hl hright => exact hunlink (hl ▸ hi.child .left a ha) hr
  · next hl => exact hunlink (hi.child .right a ha) hr

omit [DecidableEq A] in
theorem Stored.inside {t : RbTree A} (hs : Stored h t) : Inside {k | k ∈ t.inorder} h h := by
  have hlinks : ∀ k ∈ t.inorder,
      Into {k | k ∈ t.inorder} (h.parent k) ∧ ∀ d, Into {k | k ∈ t.inorder} (h.child d k) := by
    intro k hk
    obtain ⟨ctx, c, l, r, rfl⟩ := exists_plug hk
    obtain ⟨hparent, -, hleft, hright⟩ := Stored.read (d := .left) hs
    refine ⟨fun v hv => perm_plug.mem_iff.mpr (List.mem_append_right _ (above_mem
      (hparent.symm.trans hv))), fun d v hv => perm_plug.mem_iff.mpr (List.mem_append_left _ ?_)⟩
    cases d with
    | left => exact List.mem_append_left _ (root_mem (hleft.symm.trans hv))
    | right =>
      exact List.mem_append_right _ (List.mem_cons_of_mem k (root_mem (hright.symm.trans hv)))
  exact ⟨fun k hk => root_mem (hs.root.symm.trans hk), fun k hk => (hlinks k hk).1,
    fun d k hk => (hlinks k hk).2 d, fun _ _ => ⟨rfl, rfl, fun _ => rfl⟩⟩

theorem insert_erase_inside (hi : Inside S h h) (ha : a ∈ S) (fuel : ℕ) :
    (∀ h', h.insertColor fuel a = some h' → Inside S h h') ∧
      ∀ h', h.erase fuel a = some h' → Inside S h h' :=
  ⟨fun _ hr => hi.insertColor ha hr, fun _ hr => hi.erase ha hr⟩

theorem insert_erase_inside_four :
    ∃ h', fourNodes.erase 5 1 = some h' ∧ h'.node = some 3 ∧ Same fourNodes h' 5 :=
  ⟨_, rfl, rfl, ((insert_erase_inside stored_fourNodes.inside (show 1 ∈ [1, 2, 3, 4] by decide)
    5).2 _ rfl).frame 5 (show 5 ∉ [1, 2, 3, 4] by decide)⟩

end SylixOS.TreeRb
