import SylixOS.TreeRbColor

namespace SylixOS.TreeRb
open RedBlackTree RbTree Rb

variable {A : Type} [DecidableEq A] {h : Rb A} {d : Side} {c : Bool} {a b : A} {t u x y : RbTree A}
  {ctx : List (Frame A)} {n fuel : ℕ}

/-! ## Links -/

theorem splice_spec (hs : Stored h (plug ctx (join d c a x nil))) :
    Stored (h.splice a x.root) (plug ctx x) := by
  have hparent := hs.read.1
  obtain ⟨hhole, hrep, -⟩ := stored_plug.mp hs
  have hlist := hs.nodup_join
  rw [show (nil : RbTree A).inorder = [] from rfl, List.append_nil] at hlist
  obtain ⟨hfresh, horder⟩ := List.nodup_cons.mp hlist
  obtain ⟨hx, hnames, hapart⟩ := List.nodup_append.mp horder
  obtain ⟨-, -, -, -, hrepx, -⟩ := rep_join.mp hrep
  have hout : ∀ k ∈ x.inorder, above ctx ≠ some k := fun k hk heq =>
    hapart k hk k (above_mem heq) rfl
  have hin : ∀ k ∈ names ctx, x.root ≠ some k := fun k hk heq =>
    hapart k (root_mem heq) k hk rfl
  have hsplice : h.splice a x.root =
      (h.adopt x.root (above ctx)).relink .left a (above ctx) x.root := by
    rw [Rb.splice, hparent]
  rw [hsplice]
  refine (join_root ▸ hhole).stored (g := h.adopt x.root (above ctx)) ?_ .left rfl adopt_node
    (fun k hk => ⟨?_, ?_, fun e => ?_⟩) rfl (fun k _ => ⟨rfl, rfl, fun _ => rfl⟩) ?_ horder
  · exact List.nodup_cons.mpr ⟨fun hin => hfresh (List.mem_append_right _ hin), hnames⟩
  · simp [hin k hk]
  · simp
  · simp
  · refine hrepx.move hx (fun k hk => ⟨by simp, fun e => ?_⟩) (fun k hk => by simp [hk])
      fun k hk hne => by simp [hne]
    rw [relink_child (hout k hk), adopt_child]

theorem replace_spec (hs : Stored h (plug ctx (join .left c a t u)))
    (hb : b ∉ (plug ctx (join .left c a t u)).inorder) :
    Stored (h.replace a b) (plug ctx (join .left c b t u)) := by
  obtain ⟨hparent, hred, hleft, hright⟩ := hs.read
  obtain ⟨hhole, hrep, -⟩ := stored_plug.mp hs
  have hlist := hs.nodup_join
  rw [(perm_plug.trans (perm_join.append_right _)).mem_iff] at hb
  obtain ⟨-, -, -, -, ht, hu⟩ := rep_join.mp hrep
  have horder : ((join .left c b t u).inorder ++ names ctx).Nodup :=
    (perm_join.append_right _).nodup_iff.mpr
      (List.nodup_cons.mpr ⟨fun hin => hb (List.mem_cons_of_mem a hin),
        (List.nodup_cons.mp hlist).2⟩)
  simp only [List.cons_append, List.nodup_cons, List.mem_append, List.mem_cons, List.nodup_append,
    not_or] at hlist hb
  have htroot : ∀ k, k ∉ t.inorder → t.root ≠ some k := fun k hk heq => hk (root_mem heq)
  have huroot : ∀ k, k ∉ u.inorder → u.root ≠ some k := fun k hk heq => hk (root_mem heq)
  have habove : ∀ k, k ∉ names ctx → above ctx ≠ some k := fun k hk heq => hk (above_mem heq)
  let g := (((h.setParent b (above ctx)).setRed b c).setChild .right b u.root).setChild .left b
    t.root
  obtain ⟨h', hh'⟩ : ∃ h', h' = ((g.relink .left a (above ctx) (some b)).adopt t.root
    (some b)).adopt u.root (some b) := ⟨_, rfl⟩
  have hab : a ≠ b := fun heq => hb.1 heq.symm
  have hreplace : h.replace a b = h' := by
    have hkeep : ∀ d, (g.relink .left a (above ctx) (some b)).child d a = h.child d a := fun d => by
      rw [relink_child (habove a (by grind))]
      simp [g, hab]
    have hpa : g.parent a = above ctx := by simp [g, hab, hparent]
    have hright' : h.child .right a = u.root := hright
    simp only [Rb.replace, hparent, hred, setRed_child, setParent_child, hleft, hright']
    change ((g.relink .left a (g.parent a) (some b)).adopt ((g.relink .left a (g.parent a)
      (some b)).child .left a) (some b)).adopt ((g.relink .left a (g.parent a) (some b)).child
      .right a) (some b) = h'
    rw [hpa, hkeep, hkeep, hleft, hright', hh']
  have hchild : ∀ e k, k ∉ names ctx → h'.child e k =
      if k = b then if e = .left then t.root else u.root else h.child e k := by
    intro e k hk
    rw [hh', adopt_child, adopt_child, relink_child (habove k hk)]
    cases e <;> by_cases hkb : k = b <;> simp [g, hkb]
  have hparent' : ∀ k, h'.parent k = if u.root = some k then some b
      else if t.root = some k then some b else if k = b then above ctx else h.parent k := by
    intro k
    simp [hh', g]
  have hred' : ∀ k, h'.red k = if k = b then c else h.red k := by
    intro k
    simp [hh', g]
  have hkept : ∀ k, k ∉ names ctx → k ≠ b → Kept h h' k := fun k hk hkb =>
    ⟨by simp [hred', hkb], fun e => by simp [hchild e k hk, hkb]⟩
  rw [hreplace]
  refine (join_root ▸ hhole).stored (g := g) (by grind) .left join_root ?_ (fun k hk => ?_)
    (by rw [hh', adopt_node, adopt_node]) (fun k hk => ?_) ?_ horder
  · simp [g]
  · have hne : k ≠ b := by grind
    refine ⟨?_, ?_, fun e => ?_⟩ <;> simp [g, hne]
  · have hne := htroot k (by grind)
    have hne' := huroot k (by grind)
    refine ⟨?_, ?_, fun e => ?_⟩ <;> simp [hh', hne, hne']
  · refine rep_join.mpr ⟨by grind, by grind, by grind, by grind, ?_, ?_⟩
    · exact ht.move (by grind) (fun k hk => hkept k (by grind) (by grind))
        (fun k hk => by grind) fun k hk hne => by grind
    · exact hu.move (by grind) (fun k hk => hkept k (by grind) (by grind))
        (fun k hk => by grind) fun k hk hne => by grind

omit [DecidableEq A] in
theorem leftmost_spec {p : Option A} (hrep : Rep h p t) (hroot : t.root = some a)
    (hfuel : t.inorder.length ≤ fuel) : ∃ ctx c b y, t = plug ctx (join .left c b nil y) ∧
      h.leftmost fuel a = some b ∧ t.inorder = b :: (plug ctx y).inorder := by
  induction t generalizing p a fuel with
  | nil => cases hroot
  | node c g l r ihl ihr =>
    obtain rfl : g = a := Option.some.inj hroot
    obtain ⟨-, -, hleft, -, hl, -⟩ := hrep
    have hlen : l.inorder.length + (r.inorder.length + 1) ≤ fuel := by
      simpa [inorder] using hfuel
    obtain ⟨fuel, rfl⟩ := Nat.exists_eq_add_of_le' (Nat.le_trans (Nat.le_add_left 1 _) hlen)
    cases hcase : l.root with
    | none =>
      cases l with
      | node => cases hcase
      | nil => exact ⟨[], c, g, r, rfl, by simp [Rb.leftmost, hleft, root], rfl⟩
    | some l' =>
      have hlow : l.inorder.length ≤ fuel := by omega
      obtain ⟨ctx, c', b, y, heq, hleftmost, horder⟩ := ihl hl hcase hlow
      refine ⟨ctx ++ [⟨.left, c, g, r⟩], c', b, y, ?_, ?_, ?_⟩
      · rw [plug_append, ← heq]
        rfl
      · simp [Rb.leftmost, hleft, hcase, hleftmost]
      · rw [plug_append, inorder, horder]
        rfl

theorem unlink_spec (hs : Stored h (plug ctx x)) (hrb : (plug ctx (join d c a x nil)).IsRb)
    (hfuel : ctx.length < fuel) :
    Settled (if c then some h else h.eraseColor fuel x.root (above ctx)) (plug ctx x).inorder := by
  obtain ⟨n, hbal, hfit, htop⟩ := isRb_plug.mp hrb
  cases c with
  | true =>
    obtain ⟨hxred, -, hx, -⟩ := bal_join_red.mp hbal
    exact ⟨h, _, rfl, hs, rfl, isRb_plug.mpr ⟨n, hx, hfit, fun hred =>
      absurd (hxred.symm.trans hred) Bool.false_ne_true⟩⟩
  | false =>
    obtain ⟨m, rfl, hx, -⟩ := bal_join_black.mp hbal
    refine eraseColor_spec hs hfit ?_ (Nat.zero_lt_of_lt hfuel) fun _ => hfuel
    cases hred : x.red with
    | true => simpa [Short, hred] using bal_paint hred hx
    | false => simpa [Short, hred] using hx

theorem successor_spec {l r : A} (hs : Stored h (plug ctx (join .left c a t u)))
    (hrb : (plug ctx (join .left c a t u)).IsRb) (hl : t.root = some l) (hr : u.root = some r)
    (hfuel : (plug ctx (join .left c a t u)).inorder.length < fuel) :
    Settled (h.erase fuel a) ((plug ctx (join .left c a t u)).inorder.erase a) := by
  obtain ⟨-, -, hleft, hright⟩ := hs.read
  have hright' : h.child .right a = u.root := hright
  obtain ⟨-, -, -, -, -, hu⟩ := rep_join.mp (stored_plug.mp hs).2.1
  have hlen : u.inorder.length ≤ fuel := by
    have hplug := plug_length ctx (join .left c a t u)
    have hjoin := (perm_join (d := .left) (c := c) (a := a) (t := t) (u := u)).length_eq
    rw [List.length_cons, List.length_append] at hjoin
    omega
  obtain ⟨ctx', c', b, y, rfl, hleftmost, horder⟩ := leftmost_spec hu hr hlen
  have hplug : ∀ g x, plug ctx (join .left c g t (plug ctx' x)) =
      plug (ctx' ++ ⟨.right, c, g, t⟩ :: ctx) x := fun g x => by
    rw [plug_append]
    rfl
  have hs₁ : Stored h (plug (ctx' ++ ⟨.right, c, a, t⟩ :: ctx) (join .right c' b y nil)) :=
    hplug a _ ▸ hs
  obtain ⟨hparent, hred, hnext, -⟩ := hs₁.read
  have hspliced := splice_spec hs₁
  have hfresh : b ∉ (plug (ctx' ++ ⟨.right, c, a, t⟩ :: ctx) y).inorder := by
    have hlist := (List.nodup_cons.mp hs₁.nodup_join).1
    rwa [show (nil : RbTree A).inorder = [] from rfl, List.append_nil, ← perm_plug.mem_iff] at hlist
  rw [← hplug] at hspliced hfresh
  have hreplaced := replace_spec hspliced hfresh
  rw [hplug] at hreplaced
  have hrb₁ : (plug (ctx' ++ ⟨.right, c, b, t⟩ :: ctx) (join .right c' b y nil)).IsRb :=
    hplug b _ ▸ isRb_rename b hrb
  have hctx : (ctx' ++ ⟨.right, c, b, t⟩ :: ctx).length < fuel := by
    have hlength := plug_length (ctx' ++ ⟨.right, c, a, t⟩ :: ctx) (join .right c' b y nil)
    rw [← hplug, List.length_append] at hlength
    rw [List.length_append]
    exact Nat.lt_of_le_of_lt (Nat.le_trans (Nat.le_add_right _ _) hlength) hfuel
  have hup : (if (h.splice b y.root).parent b = some a then some b else h.parent b) =
      above (ctx' ++ ⟨.right, c, b, t⟩ :: ctx) := by
    have hsame : (h.splice b y.root).parent b = h.parent b := by simp [Rb.splice]
    rw [hsame, hparent]
    cases ctx' with
    | nil => exact if_pos rfl
    | cons f ctx' =>
      have hnames := (List.nodup_append.mp (stored_plug.mp hs₁).2.2).2.1
      have hin : a ∈ names (ctx' ++ ⟨.right, c, a, t⟩ :: ctx) :=
        top_mem (f := ⟨.right, c, a, t⟩) (List.mem_append_right _ List.mem_cons_self)
      exact if_neg fun heq => (List.nodup_cons.mp hnames).1
        (List.mem_append_right _ ((Option.some.inj heq : f.top = a) ▸ hin))
  have herase : h.erase fuel a = if c' then some ((h.splice b y.root).replace a b)
      else Rb.eraseColor fuel ((h.splice b y.root).replace a b) y.root
        (above (ctx' ++ ⟨.right, c, b, t⟩ :: ctx)) := by
    rw [← hup]
    simp [Rb.erase, hleft, hright', hl, hr, hleftmost, hnext, hred]
  have hinorder : (plug ctx (join .left c b t (plug ctx' y))).inorder =
      (plug ctx (join .left c a t (plug ctx' (join .left c' b nil y)))).inorder.erase a :=
    (erase_inorder hs.nodup rfl (by rw [horder]; rfl)).symm
  rw [herase, ← hinorder, hplug]
  exact unlink_spec hreplaced hrb₁ hctx

theorem erase_spec (hs : Stored h t) (hrb : t.IsRb) (ha : a ∈ t.inorder)
    (hfuel : t.inorder.length < fuel) : Settled (h.erase fuel a) (t.inorder.erase a) := by
  obtain ⟨ctx, c, l, r, rfl⟩ := exists_plug ha
  have hnode : Stored h (plug ctx (join .left c a l r)) := hs
  obtain ⟨hparent, hred, hleft, hright⟩ := hnode.read
  have hright' : h.child .right a = r.root := hright
  have hlen := Nat.lt_of_le_of_lt (plug_length ..) hfuel
  have hctx : ctx.length < fuel := Nat.lt_of_le_of_lt (Nat.le_add_right _ _) hlen
  cases l with
  | nil =>
    have hdone := unlink_spec (splice_spec (d := .right) hs) (a := a) (d := .right) hrb hctx
    rw [erase_inorder hs.nodup (show _ = [] ++ a :: _ from rfl) (List.nil_append _).symm]
    simpa [Rb.erase, hleft, hright', hred, hparent, root] using hdone
  | node cl al ll lr =>
    cases r with
    | nil =>
      have hdone := unlink_spec (splice_spec hnode)
        (show (plug ctx (join .left c a _ _)).IsRb from hrb) hctx
      rw [erase_inorder hs.nodup (show _ = _ ++ a :: [] from rfl) (List.append_nil _).symm]
      simpa [Rb.erase, hleft, hright', hred, hparent, root] using hdone
    | node cr ar rl rr => exact successor_spec hnode hrb rfl rfl hfuel

theorem insert_erase_settled (fuel : ℕ) :
    (∀ (h : Rb A) (ctx : List (Frame A)) (a : A), (plug ctx nil).IsRb →
      Stored h (plug ctx (node true a nil nil)) → ctx.length < fuel →
      Settled (h.insertColor fuel a) (plug ctx (node true a nil nil)).inorder) ∧
    ∀ (h : Rb A) (t : RbTree A) (a : A), t.IsRb → Stored h t → a ∈ t.inorder →
      t.inorder.length < fuel → Settled (h.erase fuel a) (t.inorder.erase a) := by
  refine ⟨fun h ctx a hrb hs hfuel => ?_, fun h t a hrb hs ha hfuel => erase_spec hs hrb ha hfuel⟩
  obtain ⟨n, rfl, hfit, -⟩ := isRb_plug.mp hrb
  exact insertColor_spec hs rfl rfl ⟨rfl, rfl, rfl, rfl⟩ hfit hfuel

def threeNodes : Rb ℕ where
  node := some 1
  parent k := if k = 2 then some 1 else if k = 3 then some 2 else none
  child d k := if d = .right ∧ (k = 1 ∨ k = 2) then some (k + 1) else none
  red k := k ≠ 1

def fourNodes : Rb ℕ where
  node := some 2
  parent k := if k = 1 ∨ k = 3 then some 2 else if k = 4 then some 3 else none
  child d k :=
    if d = .left ∧ k = 2 then some 1
    else if d = .right ∧ (k = 2 ∨ k = 3) then some (k + 1)
    else none
  red k := k = 4

theorem stored_fourNodes : Stored fourNodes
    (node false 2 (node false 1 nil nil) (node false 3 nil (node true 4 nil nil))) :=
  ⟨rfl, ⟨rfl, rfl, rfl, rfl, ⟨rfl, rfl, rfl, rfl, trivial, trivial⟩, rfl, rfl, rfl, rfl, trivial,
    rfl, rfl, rfl, rfl, trivial, trivial⟩, by decide⟩

/-- Both calls rotate: the root is another node afterwards. -/
theorem insert_erase_settled_rotations :
    (Settled (threeNodes.insertColor 4 3) [1, 2, 3] ∧
      (threeNodes.insertColor 4 3).map Rb.node = some (some 2)) ∧
    Settled (fourNodes.erase 5 1) [2, 3, 4] ∧
      (fourNodes.erase 5 1).map Rb.node = some (some 3) := by
  have hs : Stored threeNodes
      (plug [⟨.right, true, 2, nil⟩, ⟨.right, false, 1, nil⟩] (node true 3 nil nil)) :=
    ⟨rfl, ⟨rfl, rfl, rfl, rfl, trivial, rfl, rfl, rfl, rfl, trivial, rfl, rfl, rfl, rfl, trivial,
      trivial⟩, by decide⟩
  have hrb : (plug [⟨.right, true, 2, nil⟩, ⟨.right, false, 1, nil⟩] (nil : RbTree ℕ)).IsRb :=
    ⟨rfl, 1, rfl, rfl, rfl, rfl, rfl⟩
  have hrb' : (node false 2 (node false 1 nil nil)
      (node false 3 nil (node true 4 nil nil))).IsRb :=
    ⟨rfl, 2, ⟨rfl, rfl⟩, rfl, rfl, rfl, rfl, rfl⟩
  exact ⟨⟨(insert_erase_settled 4).1 threeNodes _ 3 hrb hs (by decide), rfl⟩,
    (insert_erase_settled 5).2 fourNodes _ 1 hrb' stored_fourNodes (by decide) (by decide), rfl⟩

end SylixOS.TreeRb
