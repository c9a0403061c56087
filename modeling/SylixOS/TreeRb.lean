import Mathlib.Logic.Function.Basic
import SylixOS.RedBlackTree

/-! The red-black trees of `treeRb.c` over the links of their nodes. What the source writes once for
each side is written once here for both; a null pointer that is followed gives `none`. -/

namespace SylixOS.TreeRb
open RedBlackTree RbTree Function

variable {A : Type} [DecidableEq A]

/-- `LW_TREE_RB_ROOT` with the nodes: `TRBN_ptrbnParent`, `TRBN_ptrbnLeft` and `TRBN_ptrbnRight`,
and whether `TRBN_iColor` is `LW_TREE_RB_RED`. -/
structure Rb (A : Type) where
  node : Option A
  parent : A → Option A
  child : Side → A → Option A
  red : A → Bool

namespace Rb

def setParent (h : Rb A) (a : A) (p : Option A) : Rb A := { h with parent := update h.parent a p }

def setChild (h : Rb A) (d : Side) (a : A) (v : Option A) : Rb A :=
  { h with child := update h.child d (update (h.child d) a v) }

def setRed (h : Rb A) (a : A) (c : Bool) : Rb A := { h with red := update h.red a c }

def adopt (h : Rb A) (x p : Option A) : Rb A := x.elim h fun x => h.setParent x p

def paint (h : Rb A) (x : Option A) (c : Bool) : Rb A := x.elim h fun x => h.setRed x c

def isRed (h : Rb A) (x : Option A) : Bool := x.elim false h.red

def relink (h : Rb A) (d : Side) (a : A) (p v : Option A) : Rb A :=
  match p with
  | some p => if h.child d p = some a then h.setChild d p v else h.setChild d.flip p v
  | none => { h with node := v }

def rotate (h : Rb A) (d : Side) (a : A) : Option (Rb A) :=
  (h.child d.flip a).map fun b =>
    let y := h.child d b
    let h := ((h.setChild d.flip a y).adopt y (some a)).setChild d b (some a)
    let h := (h.setParent b (h.parent a)).relink d a (h.parent a) (some b)
    h.setParent a (some b)

def sideOf (h : Rb A) (p : A) (x : Option A) : Side :=
  if h.child .left p = x then .left else .right

def blacken (h : Rb A) : Option (Rb A) := h.node.map fun r => h.setRed r false

def insertColor : ℕ → Rb A → A → Option (Rb A)
  | 0, _, _ => none
  | fuel + 1, h, x =>
    match h.parent x with
    | none => h.blacken
    | some p =>
      if h.red p then
        (h.parent p).bind fun g =>
          let d := h.sideOf g (some p)
          let uncle := h.child d.flip g
          if h.isRed uncle then
            insertColor fuel (((h.paint uncle false).setRed p false).setRed g true) g
          else
            if h.child d.flip p = some x then
              (h.rotate d p).bind fun h =>
                (((h.setRed x false).setRed g true).rotate d.flip g).bind fun h =>
                  insertColor fuel h p
            else
              (((h.setRed p false).setRed g true).rotate d.flip g).bind fun h =>
                insertColor fuel h x
      else h.blacken

/-- The end of a turn of `__tree_rb_erase_color`: a child of `other` is red. -/
def eraseTurn (h : Rb A) (d : Side) (p other : A) : Option (Rb A) :=
  let h := (h.setRed other (h.red p)).setRed p false
  (h.paint (h.child d.flip other) false).rotate d p

/-- `__tree_rb_erase_color` behind the test of the sibling's color -/
def eraseAt (h : Rb A) (goon : Rb A → Option A → Option A → Option (Rb A)) (d : Side)
    (p other : A) : Option (Rb A) :=
  if h.isRed (h.child .left other) = false ∧ h.isRed (h.child .right other) = false then
    goon (h.setRed other true) (some p) (h.parent p)
  else
    if h.isRed (h.child d.flip other) = false then
      (((h.paint (h.child d other) false).setRed other true).rotate d.flip other).bind fun h =>
        (h.child d.flip p).bind fun other =>
          (h.eraseTurn d p other).bind fun h => some (h.paint h.node false)
    else (h.eraseTurn d p other).bind fun h => some (h.paint h.node false)

def eraseColor : ℕ → Rb A → Option A → Option A → Option (Rb A)
  | 0, _, _, _ => none
  | fuel + 1, h, x, parent =>
    if h.isRed x = false ∧ x ≠ h.node then
      parent.bind fun p =>
        let d := h.sideOf p x
        (h.child d.flip p).bind fun other =>
          if h.red other then
            (((h.setRed other false).setRed p true).rotate d p).bind fun h =>
              (h.child d.flip p).bind fun other => h.eraseAt (eraseColor fuel) d p other
          else h.eraseAt (eraseColor fuel) d p other
    else some (h.paint x false)

def leftmost : ℕ → Rb A → A → Option A
  | 0, _, _ => none
  | fuel + 1, h, a =>
    match h.child .left a with
    | some l => leftmost fuel h l
    | none => some a

def splice (h : Rb A) (a : A) (x : Option A) : Rb A :=
  (h.adopt x (h.parent a)).relink .left a (h.parent a) x

def replace (h : Rb A) (a b : A) : Rb A :=
  let h := (h.setParent b (h.parent a)).setRed b (h.red a)
  let h := (h.setChild .right b (h.child .right a)).setChild .left b (h.child .left a)
  let h := h.relink .left a (h.parent a) (some b)
  (h.adopt (h.child .left a) (some b)).adopt (h.child .right a) (some b)

def erase (fuel : ℕ) (h : Rb A) (a : A) : Option (Rb A) :=
  match h.child .left a, h.child .right a with
  | some _, some r =>
    (leftmost fuel h r).bind fun b =>
      let x := h.child .right b
      let h' := h.splice b x
      let parent := if h'.parent b = some a then some b else h.parent b
      if h.red b then some (h'.replace a b) else eraseColor fuel (h'.replace a b) x parent
  | some l, none =>
    if h.red a then some (h.splice a (some l))
    else eraseColor fuel (h.splice a (some l)) (some l) (h.parent a)
  | none, x =>
    if h.red a then some (h.splice a x) else eraseColor fuel (h.splice a x) x (h.parent a)

end Rb

open Rb

def Rep (h : Rb A) : Option A → RbTree A → Prop
  | _, nil => True
  | p, .node c a l r => h.parent a = p ∧ h.red a = c ∧ h.child .left a = l.root ∧
      h.child .right a = r.root ∧ Rep h (some a) l ∧ Rep h (some a) r

def Hole (h : Rb A) : List (Frame A) → Option A → Prop
  | [], x => h.node = x
  | f :: ctx, x => h.parent f.top = above ctx ∧ h.red f.top = f.red ∧ h.child f.side f.top = x ∧
      h.child f.side.flip f.top = f.sib.root ∧ Rep h (some f.top) f.sib ∧ Hole h ctx (some f.top)

/-- The tree is stored: parent and child links agree with it, and no node occurs twice. -/
structure Stored (h : Rb A) (t : RbTree A) : Prop where
  root : h.node = t.root
  rep : Rep h none t
  nodup : t.inorder.Nodup

def Kept (h h' : Rb A) (k : A) : Prop := h'.red k = h.red k ∧ ∀ d, h'.child d k = h.child d k

def Same (h h' : Rb A) (k : A) : Prop := h'.parent k = h.parent k ∧ Kept h h' k

variable {h h' : Rb A} {d e : Side} {c c' : Bool} {a b k : A} {p x v : Option A}
  {t t' u y z : RbTree A} {f : Frame A} {ctx : List (Frame A)}

omit [DecidableEq A] in
theorem rep_join : Rep h p (join d c a t u) ↔ h.parent a = p ∧ h.red a = c ∧
    h.child d a = t.root ∧ h.child d.flip a = u.root ∧ Rep h (some a) t ∧ Rep h (some a) u := by
  cases d with
  | left => exact Iff.rfl
  | right =>
    change _ ∧ _ ∧ _ ∧ _ ∧ _ ∧ _ ↔ _
    simp only [Side.flip]
    tauto

omit [DecidableEq A] in
theorem Rep.move (hrep : Rep h p t) (hnodup : t.inorder.Nodup)
    (hkept : ∀ k ∈ t.inorder, Kept h h' k) (hroot : ∀ k, t.root = some k → h'.parent k = v)
    (hparent : ∀ k ∈ t.inorder, t.root ≠ some k → h'.parent k = h.parent k) : Rep h' v t := by
  induction t generalizing p v with
  | nil => trivial
  | node c a l r ihl ihr =>
    obtain ⟨-, hred, hleft, hright, hl, hr⟩ := hrep
    obtain ⟨hnl, hnr, hapart⟩ := List.nodup_append.mp hnodup
    obtain ⟨har, hnr⟩ := List.nodup_cons.mp hnr
    have hal : a ∉ l.inorder := fun hin => hapart a hin a List.mem_cons_self rfl
    have hinl : ∀ k ∈ l.inorder, k ∈ (RbTree.node c a l r).inorder := fun k hk =>
      List.mem_append_left _ hk
    have hinr : ∀ k ∈ r.inorder, k ∈ (RbTree.node c a l r).inorder := fun k hk =>
      List.mem_append_right _ (List.mem_cons_of_mem a hk)
    have hself := hkept a (root_mem rfl)
    have hbelow : ∀ {s : RbTree A}, Rep h (some a) s →
        (∀ k ∈ s.inorder, k ∈ (node c a l r).inorder) → a ∉ s.inorder → ∀ k ∈ s.inorder, h'.parent k = h.parent k := fun _ hin hnot k hk =>
      hparent k (hin k hk) fun heq => hnot (Option.some.inj heq ▸ hk)
    have htop : ∀ {s : RbTree A}, Rep h (some a) s → ∀ k, s.root = some k →
        h.parent k = some a := by
      intro s hs k hk
      cases s with
      | nil => cases hk
      | node => cases hk; exact hs.1
    refine ⟨hroot a rfl, hself.1.trans hred, (hself.2 _).trans hleft, (hself.2 _).trans hright,
      ihl hl hnl (fun k hk => hkept k (hinl k hk)) (fun k hk => ?_) fun k hk _ => ?_,
      ihr hr hnr (fun k hk => hkept k (hinr k hk)) (fun k hk => ?_) fun k hk _ => ?_⟩
    · exact (hbelow hl hinl hal k (root_mem hk)).trans (htop hl k hk)
    · exact hbelow hl hinl hal k hk
    · exact (hbelow hr hinr har k (root_mem hk)).trans (htop hr k hk)
    · exact hbelow hr hinr har k hk

omit [DecidableEq A] in
theorem Rep.top (hrep : Rep h p t) (hk : t.root = some k) : h.parent k = p := by
  cases t with
  | nil => cases hk
  | node =>
    cases hk
    exact hrep.1

omit [DecidableEq A] in
theorem Rep.congr (hrep : Rep h p t) (hnodup : t.inorder.Nodup)
    (hsame : ∀ k ∈ t.inorder, Same h h' k) : Rep h' p t :=
  hrep.move hnodup (fun k hk => (hsame k hk).2)
    (fun k hk => (hsame k (root_mem hk)).1.trans (hrep.top hk)) fun k hk _ => (hsame k hk).1

omit [DecidableEq A] in
theorem Hole.congr (hhole : Hole h ctx x) (hnodup : (names ctx).Nodup) (hnode : h'.node = h.node)
    (hsame : ∀ k ∈ names ctx, Same h h' k) : Hole h' ctx x := by
  induction ctx generalizing x with
  | nil => exact hnode.trans hhole
  | cons f ctx ih =>
    obtain ⟨hparent, hred, hchild, hother, hsib, hup⟩ := hhole
    obtain ⟨-, hrest⟩ := List.nodup_cons.mp hnodup
    obtain ⟨hns, hnc, -⟩ := List.nodup_append.mp hrest
    have hf := hsame f.top List.mem_cons_self
    exact ⟨hf.1.trans hparent, hf.2.1.trans hred, (hf.2.2 _).trans hchild, (hf.2.2 _).trans hother,
      hsib.congr hns fun k hk => hsame k (List.mem_cons_of_mem _ (List.mem_append_left _ hk)),
      ih hup hnc fun k hk => hsame k (List.mem_cons_of_mem _ (List.mem_append_right _ hk))⟩

omit [DecidableEq A] in
theorem stored_plug : Stored h (plug ctx t) ↔
    Hole h ctx t.root ∧ Rep h (above ctx) t ∧ (t.inorder ++ names ctx).Nodup := by
  have hlinks : (h.node = (plug ctx t).root ∧ Rep h none (plug ctx t)) ↔
      Hole h ctx t.root ∧ Rep h (above ctx) t := by
    induction ctx generalizing t with
    | nil => exact Iff.rfl
    | cons f ctx ih =>
      refine ih.trans ?_
      rw [join_root, rep_join]
      change _ ↔ (_ ∧ _) ∧ Rep h (some f.top) t
      tauto
  rw [← perm_plug.nodup_iff, ← and_assoc, ← hlinks]
  exact ⟨fun hs => ⟨⟨hs.root, hs.rep⟩, hs.nodup⟩, fun hs => ⟨hs.1.1, hs.1.2, hs.2⟩⟩

@[simp] theorem setParent_parent : (h.setParent a p).parent k = if k = a then p else h.parent k :=
  update_apply ..

@[simp] theorem setParent_child : (h.setParent a p).child = h.child := rfl

@[simp] theorem setParent_red : (h.setParent a p).red = h.red := rfl

@[simp] theorem setParent_node : (h.setParent a p).node = h.node := rfl

@[simp] theorem setRed_parent : (h.setRed a c).parent = h.parent := rfl

@[simp] theorem setRed_child : (h.setRed a c).child = h.child := rfl

@[simp] theorem setRed_node : (h.setRed a c).node = h.node := rfl

@[simp] theorem setRed_red : (h.setRed a c).red k = if k = a then c else h.red k := update_apply ..

@[simp] theorem setChild_parent : (h.setChild d a v).parent = h.parent := rfl

@[simp] theorem setChild_red : (h.setChild d a v).red = h.red := rfl

@[simp] theorem setChild_node : (h.setChild d a v).node = h.node := rfl

@[simp] theorem setChild_child : (h.setChild d a v).child e k =
    if e = d ∧ k = a then v else h.child e k := by
  unfold Rb.setChild
  by_cases hd : e = d
  · subst hd
    by_cases hk : k = a <;> simp [hk]
  · simp [hd]

@[simp] theorem adopt_parent : (h.adopt x p).parent k = if x = some k then p else h.parent k := by
  cases x with
  | none => rfl
  | some b => simp [Rb.adopt, eq_comm]

@[simp] theorem adopt_child : (h.adopt x p).child = h.child := by cases x <;> rfl

@[simp] theorem adopt_red : (h.adopt x p).red = h.red := by cases x <;> rfl

@[simp] theorem adopt_node : (h.adopt x p).node = h.node := by cases x <;> rfl

@[simp] theorem relink_parent : (h.relink d a p v).parent = h.parent := by
  cases p with
  | none => rfl
  | some q =>
    simp only [Rb.relink]
    split_ifs <;> rfl

@[simp] theorem relink_red : (h.relink d a p v).red = h.red := by
  cases p with
  | none => rfl
  | some q =>
    simp only [Rb.relink]
    split_ifs <;> rfl

theorem relink_child (hk : p ≠ some k) : (h.relink d a p v).child e k = h.child e k := by
  cases p with
  | none => rfl
  | some q =>
    have hne : k ≠ q := fun heq => hk (congrArg some heq.symm)
    simp only [Rb.relink]
    split_ifs <;> simp [hne]

omit [DecidableEq A] in
theorem above_mem (hk : above ctx = some k) : k ∈ names ctx := by
  cases ctx with
  | nil => cases hk
  | cons f ctx =>
    cases hk
    exact List.mem_cons_self

theorem Hole.relink (hhole : Hole h ctx (some a)) (hnodup : (a :: names ctx).Nodup) (d : Side)
    (v : Option A) : Hole (h.relink d a (above ctx) v) ctx v := by
  cases ctx with
  | nil => rfl
  | cons f ctx =>
    obtain ⟨hparent, hred, hchild, hother, hsib, hup⟩ := hhole
    obtain ⟨hfresh, hnf⟩ := List.nodup_cons.mp hnodup
    obtain ⟨hf, hrest⟩ := List.nodup_cons.mp hnf
    obtain ⟨hns, hnc, -⟩ := List.nodup_append.mp hrest
    have hset : h.relink d a (above (f :: ctx)) v = h.setChild f.side f.top v := by
      have hsib : f.sib.root ≠ some a := fun heq =>
        hfresh (List.mem_cons_of_mem _ (List.mem_append_left _ (root_mem heq)))
      change (if h.child d f.top = some a then _ else _) = _
      by_cases hd : d = f.side
      · rw [hd, if_pos hchild]
      · have hflip : d = f.side.flip ∧ d.flip = f.side := by
          cases d <;> cases hs : f.side <;> simp_all [Side.flip]
        rw [hflip.2, hflip.1, if_neg (hother ▸ hsib)]
    have hne : ∀ k ∈ f.sib.inorder ++ names ctx, Same h (h.setChild f.side f.top v) k := by
      intro k hk
      have hkf : k ≠ f.top := fun heq => hf (heq ▸ hk)
      exact ⟨rfl, rfl, fun e => by simp [hkf]⟩
    rw [hset]
    refine ⟨hparent, hred, by simp, ?_,
      hsib.congr hns fun k hk => hne k (List.mem_append_left _ hk),
      hup.congr hnc rfl fun k hk => hne k (List.mem_append_right _ hk)⟩
    have hflip : f.side.flip ≠ f.side := by cases f.side <;> simp [Side.flip]
    simp [hflip, hother]

theorem Hole.stored {g : Rb A} (hhole : Hole h ctx (some a)) (hnodup : (a :: names ctx).Nodup)
    (d : Side) (hv : t.root = v) (hg : g.node = h.node) (hbefore : ∀ k ∈ names ctx, Same h g k)
    (hnode : h'.node = (g.relink d a (above ctx) v).node)
    (hafter : ∀ k ∈ names ctx, Same (g.relink d a (above ctx) v) h' k)
    (hrep : Rep h' (above ctx) t) (horder : (t.inorder ++ names ctx).Nodup) :
    Stored h' (plug ctx t) := by
  have hnames := (List.nodup_cons.mp hnodup).2
  subst hv
  exact stored_plug.mpr ⟨((hhole.congr hnames hg hbefore).relink hnodup d _).congr hnames hnode
    hafter, hrep, horder⟩

theorem rotate_spec (hs : Stored h (plug ctx (join d c a t (join d c' b y z)))) :
    ∃ h', h.rotate d a = some h' ∧ Stored h' (plug ctx (join d c' b (join d c a t y) z)) := by
  obtain ⟨hhole, hrep, hnodup⟩ := stored_plug.mp hs
  have horder : ((join d c' b (join d c a t y) z).inorder ++ names ctx).Nodup := by
    have heq : (join d c' b (join d c a t y) z).inorder =
        (join d c a t (join d c' b y z)).inorder := by
      cases d <;> simp [join, inorder]
    rwa [heq]
  have hlist := ((perm_join.trans ((perm_join.append_left _).cons a)).append_right _).nodup_iff.mp
    hnodup
  rw [rep_join, rep_join, join_root] at hrep
  obtain ⟨hpa, hra, hda, hfa, ht, hpb, hrb, hdb, hfb, hy, hz⟩ := hrep
  simp only [List.cons_append, List.nodup_cons, List.mem_append, List.mem_cons, List.nodup_append,
    not_or] at hlist
  have hyroot : ∀ k, k ∉ y.inorder → y.root ≠ some k := fun k hk heq => hk (root_mem heq)
  have habove : ∀ k, k ∉ names ctx → above ctx ≠ some k := fun k hk heq => hk (above_mem heq)
  have hflip : d.flip ≠ d := by cases d <;> simp [Side.flip]
  let g' := ((h.setChild d.flip a y.root).adopt y.root (some a)).setChild d b (some a)
  let g := g'.setParent b (above ctx)
  obtain ⟨h', hh'⟩ : ∃ h', h' = (g.relink d a (above ctx) (some b)).setParent a (some b) := ⟨_, rfl⟩
  have hrotate : h.rotate d a = some h' := by
    have hpg' : g'.parent a = above ctx := by
      have hne := hyroot a (by grind)
      simp [g', hne, hpa]
    rw [Rb.rotate, hfa, Option.map_some, hdb]
    change some (((g'.setParent b (g'.parent a)).relink d a (g'.parent a) (some b)).setParent a
      (some b)) = _
    rw [hpg', hh']
  have hparent : ∀ k, h'.parent k = if k = a then some b else if k = b then above ctx
      else if y.root = some k then some a else h.parent k := by
    intro k
    simp [hh', g, g']
  have hred : h'.red = h.red := by simp [hh', g, g']
  have hchild : ∀ e k, k ∉ names ctx → h'.child e k =
      if e = d ∧ k = b then some a else if e = d.flip ∧ k = a then y.root else h.child e k := by
    intro e k hk
    rw [hh', setParent_child, relink_child (habove k hk)]
    simp [g, g']
  have hkept : ∀ k, k ∉ names ctx → k ≠ a → k ≠ b → Kept h h' k := fun k hk hka hkb =>
    ⟨by rw [hred], fun e => by simp [hchild e k hk, hka, hkb]⟩
  have hsame : ∀ k, k ∉ names ctx → k ≠ a → k ≠ b → k ∉ y.inorder → Same h h' k :=
    fun k hk hka hkb hky => ⟨by simp [hparent, hka, hkb, hyroot k hky], hkept k hk hka hkb⟩
  refine ⟨h', hrotate, (join_root ▸ hhole).stored (g := g) (by grind) d join_root ?_
    (fun k hk => ?_) (by rw [hh', setParent_node]) (fun k hk => ?_) ?_ horder⟩
  · simp [g, g']
  · have hne : k ≠ a ∧ k ≠ b := by grind
    have hky := hyroot k (by grind)
    refine ⟨?_, ?_, fun e => ?_⟩ <;> simp [g, g', hne, hky]
  · have hne : k ≠ a := by grind
    refine ⟨?_, ?_, fun e => ?_⟩ <;> simp [hh', hne]
  · rw [rep_join, rep_join, join_root, hparent, hparent, hchild _ _ (by grind),
      hchild _ _ (by grind), hchild _ _ (by grind), hchild _ _ (by grind), hred]
    refine ⟨by grind, hrb, by grind, by grind, ⟨by grind, hra, by grind, by grind, ?_, ?_⟩, ?_⟩
    · exact ht.congr (by grind) fun k hk => hsame k (by grind) (by grind) (by grind) (by grind)
    · exact hy.move (by grind) (fun k hk => hkept k (by grind) (by grind) (by grind))
        (fun k hk => by grind) fun k hk hne => by grind
    · exact hz.congr (by grind) fun k hk => hsame k (by grind) (by grind) (by grind) (by grind)

end SylixOS.TreeRb
