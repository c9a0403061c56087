import Mathlib.Data.List.Basic
import Mathlib.Data.List.Nodup
import Mathlib.Data.Nat.Notation

/-! Red-black trees whose nodes are named, taken apart at any node. Left and right are told apart by
a side, so that what is said of one side holds of its mirror image. -/

namespace SylixOS.RedBlackTree

inductive Side where
  | left
  | right
deriving DecidableEq

def Side.flip : Side → Side
  | .left => .right
  | .right => .left

inductive RbTree (A : Type) where
  | nil
  | node (red : Bool) (a : A) (left right : RbTree A)

structure Frame (A : Type) where
  side : Side
  red : Bool
  top : A
  sib : RbTree A

variable {A : Type}

namespace RbTree

def root : RbTree A → Option A
  | nil => none
  | node _ a _ _ => some a

def red : RbTree A → Bool
  | nil => false
  | node c _ _ _ => c

def paint (c : Bool) : RbTree A → RbTree A
  | nil => nil
  | node _ a l r => node c a l r

def inorder : RbTree A → List A
  | nil => []
  | node _ a l r => l.inorder ++ a :: r.inorder

def join (d : Side) (c : Bool) (a : A) (t u : RbTree A) : RbTree A :=
  match d with
  | .left => node c a t u
  | .right => node c a u t

/-- No red node has a red child, and every way down passes `n` black nodes. -/
def Bal : RbTree A → ℕ → Prop
  | nil, n => n = 0
  | node true _ l r, n => l.red = false ∧ r.red = false ∧ l.Bal n ∧ r.Bal n
  | node false _ _ _, 0 => False
  | node false _ l r, n + 1 => l.Bal n ∧ r.Bal n

def IsRb (t : RbTree A) : Prop := t.red = false ∧ ∃ n, t.Bal n

def Short (t : RbTree A) (n : ℕ) : Prop := if t.red then (t.paint false).Bal (n + 1) else t.Bal n

end RbTree

open RbTree

def plug : List (Frame A) → RbTree A → RbTree A
  | [], t => t
  | f :: ctx, t => plug ctx (join f.side f.red f.top t f.sib)

def above (ctx : List (Frame A)) : Option A := ctx.head?.map Frame.top

def topRed : List (Frame A) → Bool
  | [] => true
  | f :: _ => f.red

def names : List (Frame A) → List A
  | [] => []
  | f :: ctx => f.top :: f.sib.inorder ++ names ctx

def Fit : List (Frame A) → ℕ → Prop
  | [], _ => True
  | f :: ctx, n => f.sib.Bal n ∧
    if f.red then f.sib.red = false ∧ topRed ctx = false ∧ Fit ctx n else Fit ctx (n + 1)

variable {d : Side} {c : Bool} {a : A} {t t' u : RbTree A} {f : Frame A} {ctx ctx' : List (Frame A)}
  {n m : ℕ}

@[simp] theorem join_flip : join d.flip c a u t = join d c a t u := by
  cases d <;> rfl

@[simp] theorem join_red : (join d c a t u).red = c := by
  cases d <;> rfl

@[simp] theorem join_root : (join d c a t u).root = some a := by
  cases d <;> rfl

@[simp] theorem paint_join {c' : Bool} : (join d c a t u).paint c' = join d c' a t u := by
  cases d <;> rfl

@[simp] theorem paint_inorder : (t.paint c).inorder = t.inorder := by
  cases t <;> rfl

@[simp] theorem paint_red : (t.paint false).red = false := by
  cases t <;> rfl

theorem plug_root (hroot : t.root ≠ none) : (plug ctx t).root ≠ none := by
  induction ctx generalizing t with
  | nil => exact hroot
  | cons f ctx ih => exact ih (join_root.trans_ne (Option.some_ne_none f.top))

theorem exists_join (d : Side) (h : t ≠ nil) : ∃ a x y, t = join d t.red a x y := by
  cases t with
  | nil => exact absurd rfl h
  | node c a l r =>
    cases d with
    | left => exact ⟨a, l, r, rfl⟩
    | right => exact ⟨a, r, l, rfl⟩

theorem root_mem (h : t.root = some a) : a ∈ t.inorder := by
  cases t with
  | nil => cases h
  | node c b l r =>
    cases h
    exact List.mem_append_right _ List.mem_cons_self

theorem inorder_plug (ctx : List (Frame A)) :
    ∃ pre post, ∀ t, (plug ctx t).inorder = pre ++ t.inorder ++ post := by
  induction ctx with
  | nil => exact ⟨[], [], fun t => (List.append_nil _).symm⟩
  | cons f ctx ih =>
    obtain ⟨pre, post, h⟩ := ih
    obtain ⟨d, c, a, u⟩ := f
    cases d with
    | left =>
      refine ⟨pre, a :: u.inorder ++ post, fun t => (h _).trans ?_⟩
      simp [join, inorder]
    | right =>
      refine ⟨pre ++ u.inorder ++ [a], post, fun t => (h _).trans ?_⟩
      simp [join, inorder]

theorem plug_inorder_congr (h : t.inorder = t'.inorder) :
    (plug ctx t).inorder = (plug ctx t').inorder := by
  obtain ⟨pre, post, hplug⟩ := inorder_plug ctx
  rw [hplug, hplug, h]

theorem perm_join : (join d c a t u).inorder.Perm (a :: (t.inorder ++ u.inorder)) := by
  cases d with
  | left => exact List.perm_middle
  | right => exact List.perm_middle.trans (List.perm_append_comm.cons a)

theorem perm_plug : (plug ctx t).inorder.Perm (t.inorder ++ names ctx) := by
  induction ctx generalizing t with
  | nil =>
    rw [names, List.append_nil]
    exact .refl _
  | cons f ctx ih =>
    refine (ih.trans (perm_join.append_right _)).trans ?_
    rw [List.cons_append, List.append_assoc]
    exact List.perm_middle.symm

theorem plug_append : plug (ctx' ++ ctx) t = plug ctx (plug ctx' t) := by
  induction ctx' generalizing t with
  | nil => rfl
  | cons f ctx' ih => exact ih

theorem exists_plug (ha : a ∈ t.inorder) : ∃ ctx c l r, t = plug ctx (node c a l r) := by
  induction t with
  | nil => exact absurd ha List.not_mem_nil
  | node c b l r ihl ihr =>
    rcases List.mem_append.mp ha with hl | hr
    · obtain ⟨ctx, c', l', r', rfl⟩ := ihl hl
      exact ⟨ctx ++ [⟨.left, c, b, r⟩], c', l', r', by rw [plug_append]; rfl⟩
    · rcases List.mem_cons.mp hr with rfl | hr
      · exact ⟨[], c, l, r, rfl⟩
      · obtain ⟨ctx, c', l', r', rfl⟩ := ihr hr
        exact ⟨ctx ++ [⟨.right, c, b, l⟩], c', l', r', by rw [plug_append]; rfl⟩

theorem top_mem (hf : f ∈ ctx) : f.top ∈ names ctx := by
  induction ctx with
  | nil => exact absurd hf List.not_mem_nil
  | cons g ctx ih =>
    rcases List.mem_cons.mp hf with rfl | hf
    · exact List.mem_cons_self
    · exact List.mem_cons_of_mem _ (List.mem_append_right _ (ih hf))

theorem plug_length (ctx : List (Frame A)) (t : RbTree A) :
    ctx.length + t.inorder.length ≤ (plug ctx t).inorder.length := by
  induction ctx generalizing t with
  | nil => exact Nat.le_of_eq (Nat.zero_add _)
  | cons f ctx ih =>
    have hjoin := (perm_join (d := f.side) (c := f.red) (a := f.top) (t := t)
      (u := f.sib)).length_eq
    have hctx := ih (join f.side f.red f.top t f.sib)
    rw [List.length_cons, List.length_append] at hjoin
    rw [List.length_cons, plug]
    omega

theorem erase_inorder [DecidableEq A] {l₁ l₂ : List A} (hnodup : (plug ctx t).inorder.Nodup)
    (ht : t.inorder = l₁ ++ a :: l₂) (hu : u.inorder = l₁ ++ l₂) :
    (plug ctx t).inorder.erase a = (plug ctx u).inorder := by
  obtain ⟨pre, post, hplug⟩ := inorder_plug ctx
  have hsplit : (plug ctx t).inorder = (pre ++ l₁) ++ a :: (l₂ ++ post) := by
    rw [hplug, ht]
    simp
  rw [hsplit] at hnodup ⊢
  have hfresh : a ∉ pre ++ l₁ := fun hin =>
    (List.nodup_append.mp hnodup).2.2 a hin a List.mem_cons_self rfl
  rw [List.erase_append_right _ hfresh, List.erase_cons_head, hplug, hu]
  simp

theorem bal_join_red : (join d true a t u).Bal n ↔
    t.red = false ∧ u.red = false ∧ t.Bal n ∧ u.Bal n := by
  cases d with
  | left => exact Iff.rfl
  | right =>
    change _ ∧ _ ∧ _ ∧ _ ↔ _
    tauto

theorem bal_join_black : (join d false a t u).Bal n ↔ ∃ m, n = m + 1 ∧ t.Bal m ∧ u.Bal m := by
  cases n with
  | zero => cases d <;> exact ⟨False.elim, fun ⟨m, hm, _⟩ => absurd hm (Nat.succ_ne_zero m).symm⟩
  | succ n =>
    cases d <;> simp only [join, Bal, Nat.succ.injEq, exists_eq_left', and_comm]

theorem bal_paint (hred : t.red = true) (hbal : t.Bal n) : (t.paint false).Bal (n + 1) := by
  cases t with
  | nil => cases hred
  | node c a l r =>
    cases hred
    exact hbal.2.2

theorem isRb_paint (hrb : t.IsRb) : (t.paint false).IsRb := by
  cases t with
  | nil => exact hrb
  | node c a l r =>
    cases hrb.1
    exact hrb

theorem exists_red (d : Side) (hred : t.red = true) (hbal : t.Bal n) :
    ∃ a x y, t = join d true a x y ∧ x.red = false ∧ y.red = false ∧ x.Bal n ∧ y.Bal n := by
  obtain ⟨a, x, y, ht⟩ := exists_join d (t := t) fun hnil => by cases hnil; cases hred
  rw [hred] at ht
  exact ⟨a, x, y, ht, bal_join_red.mp (ht ▸ hbal)⟩

theorem exists_black (d : Side) (hred : t.red = false) (hbal : t.Bal (n + 1)) :
    ∃ a x y, t = join d false a x y ∧ x.Bal n ∧ y.Bal n := by
  obtain ⟨a, x, y, ht⟩ := exists_join d (t := t) fun hnil => by cases hnil; cases hbal
  rw [hred] at ht
  obtain ⟨m, hm, hx, hy⟩ := bal_join_black.mp (ht ▸ hbal)
  cases hm
  exact ⟨a, x, y, ht, hx, hy⟩

theorem isRb_plug : (plug ctx t).IsRb ↔
    ∃ n, t.Bal n ∧ Fit ctx n ∧ (t.red = true → topRed ctx = false) := by
  induction ctx generalizing t with
  | nil =>
    cases hred : t.red <;> simp [plug, IsRb, Fit, topRed, hred]
  | cons f ctx ih =>
    obtain ⟨d, c, a, u⟩ := f
    refine (ih (t := join d c a t u)).trans ?_
    cases c with
    | true =>
      simp only [bal_join_red, join_red, Fit, topRed, if_true, true_imp_iff]
      constructor
      · rintro ⟨n, ⟨ht, hu, hbt, hbu⟩, hfit, htop⟩
        exact ⟨n, hbt, ⟨hbu, hu, htop, hfit⟩, fun hr =>
          absurd (ht.symm.trans hr) Bool.false_ne_true⟩
      · rintro ⟨n, hbt, ⟨hbu, hu, htop, hfit⟩, hr⟩
        exact ⟨n, ⟨Bool.eq_false_iff.mpr fun ht => absurd (hr ht).symm Bool.false_ne_true, hu, hbt,
          hbu⟩, hfit, htop⟩
    | false =>
      simp only [bal_join_black, join_red, Fit, topRed, Bool.false_eq_true, if_false, false_imp_iff,
        and_true, imp_true_iff]
      constructor
      · rintro ⟨m, ⟨n, rfl, hbt, hbu⟩, hfit⟩
        exact ⟨n, hbt, hbu, hfit⟩
      · rintro ⟨n, hbt, hbu, hfit⟩
        exact ⟨n + 1, ⟨n, rfl, hbt, hbu⟩, hfit⟩

theorem isRb_rename (b : A) (hrb : (plug ctx (join d c a t u)).IsRb) :
    (plug ctx (join d c b t u)).IsRb := by
  obtain ⟨n, hbal, hfit, htop⟩ := isRb_plug.mp hrb
  refine isRb_plug.mpr ⟨n, ?_, hfit, by rwa [join_red] at htop ⊢⟩
  cases c with
  | true => exact bal_join_red.mpr (bal_join_red.mp hbal)
  | false => exact bal_join_black.mpr (bal_join_black.mp hbal)

end SylixOS.RedBlackTree
