import SylixOS.TreeRb

namespace SylixOS.TreeRb
open RedBlackTree RbTree Rb

variable {A : Type} [DecidableEq A] {h : Rb A} {d : Side} {c c' : Bool} {a b g o p x : A}
  {s t u y z : RbTree A} {f : Frame A} {ctx : List (Frame A)} {m n fuel : ℕ}

/-! ## Reading the stored tree -/

omit [DecidableEq A] in
theorem Stored.read (hs : Stored h (plug ctx (join d c a t u))) : h.parent a = above ctx ∧
    h.red a = c ∧ h.child d a = t.root ∧ h.child d.flip a = u.root := by
  obtain ⟨-, hrep, -⟩ := stored_plug.mp hs
  obtain ⟨hparent, hred, hchild, hother, -⟩ := rep_join.mp hrep
  exact ⟨hparent, hred, hchild, hother⟩

omit [DecidableEq A] in
theorem Stored.isRed (hs : Stored h (plug ctx t)) : h.isRed t.root = t.red := by
  cases t with
  | nil => rfl
  | node c a l r => exact (hs.read (d := .left)).2.1

omit [DecidableEq A] in
theorem Stored.parent (hs : Stored h (plug ctx t)) (hroot : t.root = some a) :
    h.parent a = above ctx :=
  (stored_plug.mp hs).2.1.top hroot

omit [DecidableEq A] in
theorem stored_flip : Stored h (plug (⟨d.flip, c, a, t⟩ :: ctx) u) ↔
    Stored h (plug ctx (join d c a t u)) := by
  rw [plug, join_flip]

omit [DecidableEq A] in
theorem Stored.nodup_join (hs : Stored h (plug ctx (join d c a t u))) :
    (a :: ((t.inorder ++ u.inorder) ++ names ctx)).Nodup :=
  (perm_join.append_right _).nodup_iff.mp (stored_plug.mp hs).2.2

omit [DecidableEq A] in
theorem Stored.apart (hs : Stored h (plug ctx (join d c a t u))) (heq : t.root = u.root) :
    t.root = none := by
  cases ht : t.root with
  | none => rfl
  | some b =>
    obtain ⟨hsub, -, -⟩ := List.nodup_append.mp (List.nodup_cons.mp hs.nodup_join).2
    exact absurd rfl ((List.nodup_append.mp hsub).2.2 b (root_mem ht) b
      (root_mem (heq.symm.trans ht)))

theorem Stored.sideOf (hs : Stored h (plug ctx (join d c a t u))) (hne : t.root ≠ u.root) :
    h.sideOf a t.root = d := by
  obtain ⟨-, -, hchild, hother⟩ := hs.read
  cases d with
  | left => exact if_pos hchild
  | right => exact if_neg (hother ▸ hne.symm)

theorem Stored.setRed (hs : Stored h (plug ctx (join d c' a t u))) (c : Bool) :
    Stored (h.setRed a c) (plug ctx (join d c a t u)) := by
  obtain ⟨hhole, hrep, hnodup⟩ := stored_plug.mp hs
  have horder : ((join d c a t u).inorder ++ names ctx).Nodup := by
    rwa [← paint_join, paint_inorder]
  obtain ⟨hfresh, hrest⟩ := List.nodup_cons.mp hs.nodup_join
  obtain ⟨hsub, hnames, -⟩ := List.nodup_append.mp hrest
  obtain ⟨hnt, hnu, -⟩ := List.nodup_append.mp hsub
  have hsame : ∀ k ∈ (t.inorder ++ u.inorder) ++ names ctx, Same h (h.setRed a c) k := by
    intro k hk
    have hne : k ≠ a := fun heq => hfresh (heq ▸ hk)
    exact ⟨rfl, by simp [hne], fun _ => rfl⟩
  obtain ⟨hparent, hred, hchild, hother, ht, hu⟩ := rep_join.mp hrep
  rw [join_root] at hhole
  refine stored_plug.mpr ⟨join_root ▸ hhole.congr hnames rfl fun k hk =>
    hsame k (List.mem_append_right _ hk), rep_join.mpr ⟨hparent, by simp, hchild, hother,
    ht.congr hnt fun k hk => ?_, hu.congr hnu fun k hk => ?_⟩, horder⟩
  · exact hsame k (List.mem_append_left _ (List.mem_append_left _ hk))
  · exact hsame k (List.mem_append_left _ (List.mem_append_right _ hk))

theorem Stored.paint (hs : Stored h (plug ctx t)) (c : Bool) :
    Stored (h.paint t.root c) (plug ctx (t.paint c)) := by
  cases t with
  | nil => exact hs
  | node c' a l r => exact hs.setRed (d := .left) c

/-- What both operations leave behind: a stored red-black tree with the nodes `l` in order. -/
def Settled (r : Option (Rb A)) (l : List A) : Prop :=
  ∃ h t, r = some h ∧ Stored h t ∧ t.inorder = l ∧ t.IsRb

theorem root_spec (hs : Stored h t) (hrb : (t.paint false).IsRb) :
    Settled (some (h.paint h.node false)) t.inorder := by
  have hpaint := (show Stored h (plug [] t) from hs).paint false
  exact ⟨_, _, rfl, hs.root ▸ hpaint, paint_inorder, hrb⟩

theorem blacken_spec (hs : Stored h t) (hrb : (t.paint false).IsRb) (hroot : t.root ≠ none) :
    Settled h.blacken t.inorder := by
  obtain ⟨r, hr⟩ := Option.ne_none_iff_exists'.mp hroot
  have hdone := root_spec hs hrb
  rw [hs.root, hr] at hdone
  rwa [Rb.blacken, hs.root, hr]

theorem lift_spec (hs : Stored h (plug ctx (join d c g (join d c' p t s) u))) :
    ∃ h', ((h.setRed p false).setRed g true).rotate d.flip g = some h' ∧
      Stored h' (plug (⟨d, false, p, join d.flip true g u s⟩ :: ctx) t) := by
  have hp : Stored (h.setRed p false) (plug ctx (join d c g (join d false p t s) u)) :=
    Stored.setRed (show Stored h (plug (⟨d, c, g, u⟩ :: ctx) (join d c' p t s)) from hs) false
  have hg : Stored ((h.setRed p false).setRed g true)
      (plug ctx (join d.flip true g u (join d.flip false p s t))) := by
    simpa only [join_flip] using hp.setRed true
  obtain ⟨h', hrotate, hs'⟩ := rotate_spec hg
  rw [join_flip] at hs'
  exact ⟨h', hrotate, hs'⟩

theorem insertColor_spec (hs : Stored h (plug ctx t)) (hx : t.root = some x) (hred : t.red = true)
    (hbal : t.Bal n) (hfit : Fit ctx n) (hfuel : ctx.length < fuel) :
    Settled (h.insertColor fuel x) (plug ctx t).inorder := by
  induction fuel generalizing h ctx t x n with
  | zero => exact absurd hfuel (Nat.not_lt_zero _)
  | succ fuel ih =>
    have hparent := hs.parent hx
    cases ctx with
    | nil =>
      have hdone := blacken_spec hs ⟨paint_red, n + 1, bal_paint hred hbal⟩
        (hx ▸ Option.some_ne_none x)
      simpa [Rb.insertColor, hparent, above] using hdone
    | cons f ctx =>
      obtain ⟨e, c, p, s⟩ := f
      have hp : h.red p = c := hs.read.2.1
      cases c with
      | false =>
        have hdone := blacken_spec hs (isRb_paint (isRb_plug.mpr ⟨n, hbal, hfit, fun _ => rfl⟩))
          (plug_root (hx ▸ Option.some_ne_none x))
        simpa [Rb.insertColor, hparent, above, hp] using hdone
      | true =>
        obtain ⟨hsb, hsred, htop, hfit⟩ := hfit
        cases ctx with
        | nil => cases htop
        | cons f ctx =>
          obtain ⟨d, c, g, u⟩ := f
          cases htop
          obtain ⟨hub, hfit⟩ := hfit
          have htree : Stored h (plug ctx (join d false g (join e true p t s) u)) := hs
          obtain ⟨hpg, -, hchild, hother⟩ :=
            (show Stored h (plug (⟨d, false, g, u⟩ :: ctx) (join e true p t s)) from hs).read
          have hside : h.sideOf g (some p) = d := by
            have hside := htree.sideOf fun heq =>
              absurd (join_root.symm.trans (htree.apart heq)) (Option.some_ne_none p)
            rwa [join_root] at hside
          have huncle : h.child d.flip g = u.root := htree.read.2.2.2
          have hured : h.isRed u.root = u.red := (stored_flip.mpr htree).isRed
          have hlen : ctx.length + 1 < fuel := Nat.succ_lt_succ_iff.mp hfuel
          have hstep : h.insertColor (fuel + 1) x =
              if u.red then
                (((h.paint u.root false).setRed p false).setRed g true).insertColor fuel g
              else if h.child d.flip p = some x then
                (h.rotate d p).bind fun h =>
                  (((h.setRed x false).setRed g true).rotate d.flip g).bind fun h =>
                    h.insertColor fuel p
              else
                (((h.setRed p false).setRed g true).rotate d.flip g).bind fun h =>
                  h.insertColor fuel x := by
            simp [Rb.insertColor, hparent, above, hp, hpg, hside, huncle, hured]
          rw [hstep]
          cases hcase : u.red with
          | true =>
            have hpaint := (stored_flip.mpr htree).paint false
            rw [stored_flip] at hpaint
            have hparted : Stored ((h.paint u.root false).setRed p false)
                (plug ctx (join d false g (join e false p t s) (u.paint false))) :=
              Stored.setRed (show Stored _ (plug (⟨d, false, g, u.paint false⟩ :: ctx)
                (join e true p t s)) from hpaint) false
            have hbalanced : (join d true g (join e false p t s) (u.paint false)).Bal (n + 1) :=
              bal_join_red.mpr ⟨join_red, paint_red, bal_join_black.mpr ⟨n, rfl, hbal, hsb⟩,
                bal_paint hcase hub⟩
            have hdone := ih (hparted.setRed true) join_root join_red hbalanced hfit (by omega)
            have horder : (join d true g (join e false p t s) (u.paint false)).inorder =
                (join d false g (join e true p t s) u).inorder := by
              cases d <;> cases e <;> simp [join, inorder]
            rw [if_pos rfl]
            rwa [plug_inorder_congr horder] at hdone
          | false =>
            rw [if_neg Bool.false_ne_true]
            obtain rfl | rfl : d = e ∨ e = d.flip := by
              cases d <;> cases e <;> simp [Side.flip]
            · obtain ⟨h', hrotate, hs'⟩ := lift_spec htree
              have hbelow : (join d.flip true g u s).Bal n :=
                bal_join_red.mpr ⟨hcase, hsred, hub, hsb⟩
              have hdone := ih hs' hx hred hbal ⟨hbelow, hfit⟩ hlen
              have horder : (join d false p t (join d.flip true g u s)).inorder =
                  (join d false g (join d true p t s) u).inorder := by
                cases d <;> simp [join, inorder, Side.flip]
              have houter : h.child d.flip p ≠ some x := fun heq => absurd (hx.symm.trans
                (hs.apart (hx.trans (heq.symm.trans hother)))) (Option.some_ne_none x)
              rw [if_neg houter, hrotate, Option.bind_some]
              rwa [plug, plug_inorder_congr horder] at hdone
            · obtain ⟨a, l, r, rfl, hlred, hrred, hl, hr⟩ := exists_red d hred hbal
              cases join_root.symm.trans hx
              rw [plug, join_flip] at hs
              obtain ⟨h₁, hinner, hs₁⟩ := rotate_spec (show Stored h (plug (⟨d, false, g, u⟩ :: ctx)
                (join d true p s (join d true x l r))) from hs)
              obtain ⟨h₂, hrotate, hs₂⟩ := lift_spec (show Stored h₁ (plug ctx
                (join d false g (join d true x (join d true p s l) r) u)) from hs₁)
              have hbelow : (join d.flip true g u r).Bal n :=
                bal_join_red.mpr ⟨hcase, hrred, hub, hr⟩
              have hmoved : (join d true p s l).Bal n := bal_join_red.mpr ⟨hsred, hlred, hsb, hl⟩
              have hdone := ih hs₂ join_root join_red hmoved ⟨hbelow, hfit⟩ hlen
              have horder : (join d false x (join d true p s l) (join d.flip true g u r)).inorder =
                  (join d false g (join d.flip true p (join d true x l r) s) u).inorder := by
                cases d <;> simp [join, inorder, Side.flip]
              rw [if_pos (hchild.trans hx), hinner, Option.bind_some, hrotate, Option.bind_some]
              rwa [plug, plug_inorder_congr horder] at hdone

theorem eraseTurn_spec (hs : Stored h (plug ctx (join d c p t (join d c' o y z)))) :
    ∃ h', h.eraseTurn d p o = some h' ∧
      Stored h' (plug ctx (join d c o (join d false p t y) (z.paint false))) := by
  have hp := (stored_flip.mp ((stored_flip.mpr hs).setRed c)).setRed false
  have hz := (stored_flip.mpr (stored_flip.mpr hp)).paint false
  rw [stored_flip, stored_flip] at hz
  obtain ⟨h', hrotate, hs'⟩ := rotate_spec hz
  have hchild := (stored_flip.mpr hp).read.2.2.2
  refine ⟨h', ?_, hs'⟩
  rw [Rb.eraseTurn, hs.read.2.1]
  rw [hchild, hrotate]

theorem turn_spec (hs : Stored h (plug ctx (join d c p t (join d c' o y z)))) (ht : t.Bal m)
    (hy : y.Bal m) (hz : z.Bal m) (hzred : z.red = true)
    (hfit : Fit (⟨d, c, p, s⟩ :: ctx) (m + 1)) :
    Settled ((h.eraseTurn d p o).bind fun h => some (h.paint h.node false))
      (plug ctx (join d c p t (join d c' o y z))).inorder := by
  obtain ⟨h', hturn, hs'⟩ := eraseTurn_spec hs
  have hp : (join d false p t y).Bal (m + 1) := bal_join_black.mpr ⟨m, rfl, ht, hy⟩
  have hz' := bal_paint hzred hz
  have hrb : (plug ctx (join d c o (join d false p t y) (z.paint false))).IsRb := by
    refine isRb_plug.mpr ?_
    cases c with
    | true =>
      exact ⟨m + 1, bal_join_red.mpr ⟨join_red, paint_red, hp, hz'⟩, hfit.2.2.2,
        fun _ => hfit.2.2.1⟩
    | false =>
      exact ⟨m + 2, bal_join_black.mpr ⟨m + 1, rfl, hp, hz'⟩, hfit.2, fun hred => by simp at hred⟩
  have horder : (join d c o (join d false p t y) (z.paint false)).inorder =
      (join d c p t (join d c' o y z)).inorder := by
    cases d <;> simp [join, inorder]
  rw [hturn, Option.bind_some, ← plug_inorder_congr horder]
  exact root_spec hs' (isRb_paint hrb)

theorem eraseAt_spec {goon : Rb A → Option A → Option A → Option (Rb A)}
    (hs : Stored h (plug ctx (join d c p t (join d false o y z)))) (ht : t.Bal m)
    (hy : y.Bal m) (hz : z.Bal m) (hfit : Fit (⟨d, c, p, s⟩ :: ctx) (m + 1))
    (hgoon : ∀ {h' t' n}, Stored h' (plug ctx t') → t'.red = c → Fit ctx (n + 1) → t'.Short n →
      Settled (goon h' t'.root (above ctx)) (plug ctx t').inorder) :
    Settled (h.eraseAt goon d p o) (plug ctx (join d c p t (join d false o y z))).inorder := by
  have hparent := hs.read.1
  have hdown := stored_flip.mpr hs
  obtain ⟨-, -, hnear, hfar⟩ := hdown.read
  have hlow : Stored h (plug (⟨d, false, o, z⟩ :: ⟨d.flip, c, p, t⟩ :: ctx) y) := hdown
  have hisRed : h.isRed y.root = y.red := hlow.isRed
  have hisRed' : h.isRed z.root = z.red := (stored_flip.mpr hdown).isRed
  have htest : (h.isRed (h.child .left o) = false ∧ h.isRed (h.child .right o) = false) ↔
      y.red = false ∧ z.red = false := by
    rw [← hisRed, ← hisRed', ← hnear, ← hfar]
    cases d with
    | left => exact Iff.rfl
    | right => exact and_comm
  have hstep : h.eraseAt goon d p o = if y.red = false ∧ z.red = false then
        goon (h.setRed o true) (some p) (above ctx)
      else if z.red = false then
        (((h.paint y.root false).setRed o true).rotate d.flip o).bind fun h =>
          (h.child d.flip p).bind fun other =>
            (h.eraseTurn d p other).bind fun h => some (h.paint h.node false)
      else (h.eraseTurn d p o).bind fun h => some (h.paint h.node false) := by
    rw [Rb.eraseAt, hparent, hfar, hisRed', hnear]
    simp only [htest]
  rw [hstep]
  by_cases hboth : y.red = false ∧ z.red = false
  · have hs' := stored_flip.mp (hdown.setRed true)
    have hsib : (join d true o y z).Bal m := bal_join_red.mpr ⟨hboth.1, hboth.2, hy, hz⟩
    have horder : (join d c p t (join d true o y z)).inorder =
        (join d c p t (join d false o y z)).inorder := by
      cases d <;> simp [join, inorder]
    have hblack : (join d false p t (join d true o y z)).Bal (m + 1) :=
      bal_join_black.mpr ⟨m, rfl, ht, hsib⟩
    rw [if_pos hboth, ← plug_inorder_congr horder]
    cases c with
    | true =>
      have hdone := hgoon hs' join_red hfit.2.2.2 (by simpa [Short] using hblack)
      rwa [join_root] at hdone
    | false =>
      have hdone := hgoon hs' join_red hfit.2 (by simpa [Short] using hblack)
      rwa [join_root] at hdone
  · rw [if_neg hboth]
    cases hzred : z.red with
    | true =>
      rw [if_neg Bool.true_eq_false.mp]
      exact turn_spec hs ht hy hz hzred hfit
    | false =>
      rw [if_pos rfl]
      have hyred : y.red = true := by
        cases hyred : y.red with
        | true => rfl
        | false => exact absurd ⟨hyred, hzred⟩ hboth
      obtain ⟨k, y, y', rfl, hl, hr, hyl, hyr⟩ := exists_red d hyred hy
      have hpaint := hlow.paint false
      rw [paint_join, join_root] at hpaint
      have hred' := Stored.setRed (show Stored _ (plug (⟨d.flip, c, p, t⟩ :: ctx)
        (join d false o (join d false k y y') z)) from hpaint) true
      rw [← join_flip, ← join_flip (t := y)] at hred'
      obtain ⟨h₁, hinner, hs₁⟩ := rotate_spec hred'
      rw [stored_flip, join_flip, join_flip] at hs₁
      have horder : (join d c p t (join d false k y (join d true o y' z))).inorder =
          (join d c p t (join d false o (join d true k y y') z)).inorder := by
        cases d <;> simp [join, inorder]
      have hz' : (join d true o y' z).Bal m := bal_join_red.mpr ⟨hr, hzred, hyr, hz⟩
      have hother : h₁.child d.flip p = some k := hs₁.read.2.2.2.trans join_root
      rw [join_root, hinner, Option.bind_some, hother, Option.bind_some,
        ← plug_inorder_congr horder]
      exact turn_spec hs₁ ht hyl hz' join_red hfit

theorem eraseColor_spec (hs : Stored h (plug ctx t)) (hfit : Fit ctx (m + 1)) (hshort : t.Short m)
    (hfuel : 0 < fuel) (hlen : t.red = false → ctx.length < fuel) :
    Settled (h.eraseColor fuel t.root (above ctx)) (plug ctx t).inorder := by
  induction fuel generalizing h ctx t m with
  | zero => exact absurd hfuel (Nat.lt_irrefl 0)
  | succ fuel ih =>
    cases hred : t.red with
    | true =>
      have hrb : (plug ctx (t.paint false)).IsRb := isRb_plug.mpr
        ⟨m + 1, by simpa [Short, hred] using hshort, hfit, fun h => by simp at h⟩
      refine ⟨_, _, ?_, hs.paint false, plug_inorder_congr paint_inorder, hrb⟩
      simp [Rb.eraseColor, hs.isRed, hred]
    | false =>
      have ht : t.Bal m := by simpa [Short, hred] using hshort
      cases ctx with
      | nil =>
        have hroot : h.node = t.root := hs.root
        refine ⟨_, _, ?_, hs.paint false, paint_inorder, isRb_paint ⟨hred, m, ht⟩⟩
        simp [Rb.eraseColor, hroot]
      | cons f ctx =>
        obtain ⟨d, c, p, s⟩ := f
        have hfit' := hfit
        obtain ⟨hsib, hup⟩ := hfit'
        have hsroot : s.root ≠ none := fun hnone => by
          cases s with
          | nil => cases hsib
          | node => cases hnone
        have htree : Stored h (plug ctx (join d c p t s)) := hs
        have hside : h.sideOf p t.root = d := htree.sideOf fun heq =>
          hsroot (heq.symm.trans (htree.apart heq))
        have hnode : t.root ≠ h.node := by
          intro heq
          have hsome : t.root ≠ none := fun hnone =>
            plug_root (join_root.trans_ne (Option.some_ne_none p))
              (hs.root.symm.trans (heq.symm.trans hnone))
          obtain ⟨a, ha⟩ := Option.ne_none_iff_exists'.mp hsome
          have htop := hs.rep.top (hs.root.symm.trans (heq.symm.trans ha))
          cases htop.symm.trans (hs.parent ha)
        have hother := htree.read.2.2.2
        have hpos : ctx.length + 1 < fuel + 1 := hlen hred
        have hstep : h.eraseColor (fuel + 1) t.root (some p) = s.root.bind fun other =>
            if h.red other then
              (((h.setRed other false).setRed p true).rotate d p).bind fun h =>
                (h.child d.flip p).bind fun other => h.eraseAt (Rb.eraseColor fuel) d p other
            else h.eraseAt (Rb.eraseColor fuel) d p other := by
          simp [Rb.eraseColor, hs.isRed, hred, hnode, hside, hother]
        have hcolor : ∀ {o}, s.root = some o → h.red o = s.red := fun ho => by
          rw [← (stored_flip.mpr htree).isRed, ho]
          rfl
        change Settled (h.eraseColor (fuel + 1) t.root (some p)) (plug ctx (join d c p t s)).inorder
        rw [hstep]
        cases hscase : s.red with
        | true =>
          cases c with
          | true => exact absurd (hscase.symm.trans hup.1) Bool.true_eq_false.mp
          | false =>
            obtain ⟨o, y, z, rfl, hyred, hzred, hy, hz⟩ := exists_red d hscase hsib
            obtain ⟨k, l, r, rfl, hl, hr⟩ := exists_black d hyred hy
            have hpaint := stored_flip.mp ((stored_flip.mpr htree).setRed false)
            obtain ⟨h', hrotate, hs'⟩ := rotate_spec (hpaint.setRed true)
            have hs₁ : Stored h' (plug (⟨d, false, o, z⟩ :: ctx)
              (join d true p t (join d false k l r))) := hs'
            have hk : h'.child d.flip p = some k := hs₁.read.2.2.2.trans join_root
            have horder : (join d false o (join d true p t (join d false k l r)) z).inorder =
                (join d false p t (join d true o (join d false k l r) z)).inorder := by
              cases d <;> simp [join, inorder]
            rw [join_root, Option.bind_some, if_pos ((hcolor join_root).trans hscase), hrotate,
              Option.bind_some, hk, Option.bind_some, ← plug_inorder_congr horder]
            refine eraseAt_spec hs₁ ht hl hr ⟨hy, join_red, rfl, hz, hup⟩
              fun hs hc hfit hshort => ih hs hfit hshort (by omega) fun hblack => ?_
            exact absurd (hc.symm.trans hblack) Bool.true_eq_false.mp
        | false =>
          obtain ⟨o, y, z, rfl, hy, hz⟩ := exists_black d hscase hsib
          rw [join_root, Option.bind_some, if_neg (Bool.eq_false_iff.mp ((hcolor join_root).trans
            hscase))]
          exact eraseAt_spec htree ht hy hz hfit fun hs hc hfit hshort =>
            ih hs hfit hshort (by omega) fun _ => by omega

end SylixOS.TreeRb
