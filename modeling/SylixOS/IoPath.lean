import Mathlib.Data.List.Flatten
import Mathlib.Logic.Function.Basic
import SylixOS.ByteBuffer
import SylixOS.PathStack

/-! `_PathCondense` (`ioPath.c`) on a path that begins at the root: one pass over the string with a
pointer that reads and a pointer that writes. -/

namespace SylixOS.IoPath
open SylixOS.ByteBuffer SylixOS.PathStack

def pxEos : UInt8 := 0x00
def pxDivider : UInt8 := 0x2f
def dot : UInt8 := 0x2e

def isDivider (c : UInt8) : Bool := c = 0x2f ∨ c = 0x5c

structure Condense where
  buf : Bytes
  pcNode : Nat
  pcTemp : Nat
  iDotNum : Nat
  bCheakDot : Bool
  bNotInc : Bool

def putBack (buf : Bytes) : Nat → Nat
  | 0 => 0
  | pcPtr + 1 => if isDivider (buf pcPtr) then pcPtr else putBack buf pcPtr

def turn (σ : Condense) : Condense :=
  let σ :=
    if isDivider (σ.buf σ.pcTemp) then
      let σ := { σ with buf := Function.update σ.buf σ.pcTemp pxDivider }
      let σ :=
        if σ.iDotNum > 1 then
          let σ := { σ with pcNode := putBack σ.buf σ.pcNode }
          if isDivider (σ.buf σ.pcNode) then σ else { σ with bNotInc := false }
        else if σ.iDotNum = 1 then σ
        else { σ with buf := Function.update σ.buf σ.pcNode (σ.buf σ.pcTemp), bNotInc := true }
      { σ with iDotNum := 0, bCheakDot := true }
    else if σ.buf σ.pcTemp = dot ∧ σ.bCheakDot then { σ with iDotNum := σ.iDotNum + 1 }
    else
      let σ := if σ.bNotInc then { σ with bNotInc := false, pcNode := σ.pcNode + 1 } else σ
      let σ :=
        if σ.bCheakDot then
          { σ with
            buf := patch σ.buf σ.pcNode σ.iDotNum fun _ => dot
            pcNode := σ.pcNode + σ.iDotNum, bCheakDot := false, iDotNum := 0 }
        else σ
      { σ with
        buf := Function.update σ.buf σ.pcNode (σ.buf σ.pcTemp), pcNode := σ.pcNode + 1 }
  { σ with pcTemp := σ.pcTemp + 1 }

def condenseLoop : (fuel : Nat) → Condense → Option Condense
  | 0, _ => none
  | fuel + 1, σ => if σ.buf σ.pcTemp = pxEos then some σ else condenseLoop fuel (turn σ)

def condenseEnd (σ : Condense) : Bytes :=
  let σ :=
    if σ.bCheakDot ∧ σ.iDotNum > 1 then { σ with pcNode := putBack σ.buf σ.pcNode } else σ
  let σ := if σ.bNotInc then { σ with pcNode := σ.pcNode + 1 } else σ
  let buf := Function.update σ.buf σ.pcNode pxEos
  if σ.pcNode > 1 ∧ isDivider (buf (σ.pcNode - 1)) then Function.update buf (σ.pcNode - 1) pxEos
  else buf

def pathCondense (fuel : Nat) (pcPathName : Bytes) : Option Bytes :=
  if pcPathName 0 = pxEos then some pcPathName
  else (condenseLoop fuel ⟨pcPathName, 0, 0, 0, true, false⟩).map condenseEnd

def Starts (buf : Bytes) (l : List UInt8) : Prop := ∀ i, (hi : i < l.length) → buf i = l[i]

def Holds (buf : Bytes) (s : List UInt8) : Prop := Starts buf s ∧ buf s.length = pxEos

def components (s : List UInt8) : List (List UInt8) := s.splitOnP isDivider

def joined (l : List (List UInt8)) : List UInt8 := l.flatMap fun c => pxDivider :: c

def render (l : List (List UInt8)) : List UInt8 := if l = [] then [pxDivider] else joined l

def pathKind (c : List UInt8) : Kind :=
  if c = [] ∨ c = [dot] then .skip else if c = [dot, dot] then .up else .name

def canonical (s : List UInt8) : List UInt8 := render (resolve pathKind (components s))

def dotKind (c : List UInt8) : Kind :=
  if c.all (· == dot) then if c.length ≤ 1 then .skip else .up else .name

def Condenses (s r : List UInt8) : Prop :=
  ∀ buf, Holds buf s →
    ∃ out, (∀ fuel, s.length < fuel → pathCondense fuel buf = some out) ∧ Holds out r

section Strings

variable {buf : Bytes} {l : List UInt8} {v : UInt8}

theorem Starts.left {l' : List UInt8} (h : Starts buf (l ++ l')) : Starts buf l := by
  intro i hi
  rw [h i (by rw [List.length_append]; omega), List.getElem_append_left hi]

theorem Starts.at {l' : List UInt8} (h : Starts buf (l ++ v :: l')) : buf l.length = v := by
  rw [h l.length (by rw [List.length_append, List.length_cons]; omega)]
  simp

theorem Starts.update {i : Nat} (h : Starts buf l) (hi : l.length ≤ i) :
    Starts (Function.update buf i v) l := by
  intro j hj
  rw [Function.update_of_ne (by omega)]
  exact h j hj

theorem Starts.snoc (h : Starts buf l) (hv : buf l.length = v) : Starts buf (l ++ [v]) := by
  intro i hi
  rw [List.length_append, List.length_singleton] at hi
  by_cases hlt : i < l.length
  · rw [List.getElem_append_left hlt]
    exact h i hlt
  · obtain rfl : i = l.length := by omega
    simpa using hv

theorem Starts.write (h : Starts buf l) : Starts (Function.update buf l.length v) (l ++ [v]) :=
  (h.update le_rfl).snoc (Function.update_self ..)

theorem Starts.fill (h : Starts buf l) (k : Nat) :
    Starts (patch buf l.length k fun _ => v) (l ++ List.replicate k v) := by
  intro i hi
  rw [List.length_append, List.length_replicate] at hi
  by_cases hlt : i < l.length
  · rw [patch_outside _ _ (Or.inl hlt), List.getElem_append_left hlt]
    exact h i hlt
  · rw [patch_inside _ _ (not_lt.mp hlt) hi, List.getElem_append_right (not_lt.mp hlt)]
    simp

theorem Holds.unique {s s' : List UInt8} (h : Holds buf s) (h' : Holds buf s') (hs : pxEos ∉ s)
    (hs' : pxEos ∉ s') : s = s' := by
  have hlen : ∀ {s s' : List UInt8}, Holds buf s → Holds buf s' → pxEos ∉ s' →
      s'.length ≤ s.length := by
    intro s s' h h' hs'
    by_contra hlt
    rw [not_le] at hlt
    have heq : s'[s.length] = pxEos := (h'.1 _ hlt).symm.trans h.2
    exact hs' (heq ▸ List.getElem_mem hlt)
  refine List.ext_getElem (le_antisymm (hlen h' h hs) (hlen h h' hs')) fun i hi hi' => ?_
  exact (h.1 i hi).symm.trans (h'.1 i hi')

theorem putBack_eq {l c : List UInt8} (h : Starts buf (l ++ pxDivider :: c))
    (hc : ∀ x ∈ c, isDivider x = false) : putBack buf (l ++ pxDivider :: c).length = l.length := by
  induction c using List.reverseRecOn with
  | nil =>
    rw [List.length_append, List.length_singleton, putBack, h.at]
    exact if_pos rfl
  | append_singleton c x ih =>
    have hsplit : l ++ pxDivider :: (c ++ [x]) = l ++ pxDivider :: c ++ [x] := by simp
    have hx : isDivider x = false := hc x (by simp)
    rw [hsplit] at h ⊢
    rw [List.length_append, List.length_singleton, putBack, h.at, hx, if_neg Bool.false_ne_true]
    exact ih h.left fun y hy => hc y (List.mem_append_left _ hy)

end Strings

section Components

variable {s c : List UInt8} {comps l : List (List UInt8)} {x : UInt8}

theorem mem_components (hc : c ∈ components s) : ∀ x ∈ c, x ∈ s ∧ isDivider x = false := by
  induction s generalizing c with
  | nil =>
    rw [components, List.splitOnP_nil, List.mem_singleton] at hc
    subst hc
    exact fun x hx => absurd hx List.not_mem_nil
  | cons y s ih =>
    rw [components, List.splitOnP_cons_eq_if_modifyHead] at hc
    by_cases hy : isDivider y = true
    · rw [if_pos hy, List.mem_cons] at hc
      rcases hc with rfl | hc
      · exact fun x hx => absurd hx List.not_mem_nil
      · exact fun x hx => ⟨List.mem_cons_of_mem _ (ih hc x hx).1, (ih hc x hx).2⟩
    · rw [if_neg hy] at hc
      obtain ⟨head, tail, hsplit⟩ := List.exists_cons_of_ne_nil (List.splitOnP_ne_nil isDivider s)
      rw [hsplit, List.modifyHead_cons, List.mem_cons] at hc
      have hmem : ∀ c ∈ head :: tail, ∀ x ∈ c, x ∈ s ∧ isDivider x = false :=
        fun c hc => ih (hsplit.symm ▸ hc : c ∈ s.splitOnP isDivider)
      rcases hc with rfl | hc
      · intro x hx
        rcases List.mem_cons.mp hx with rfl | hx
        · exact ⟨List.mem_cons_self, Bool.eq_false_iff.mpr hy⟩
        · have hsx := hmem head List.mem_cons_self x hx
          exact ⟨List.mem_cons_of_mem _ hsx.1, hsx.2⟩
      · intro x hx
        have hsx := hmem c (List.mem_cons_of_mem _ hc) x hx
        exact ⟨List.mem_cons_of_mem _ hsx.1, hsx.2⟩

theorem components_divider (hx : isDivider x = true) :
    components (s ++ [x]) = components s ++ [[]] := by
  rw [components, List.splitOnP_append_cons s [] hx]
  rfl

theorem components_concat (hs : components s = comps ++ [c]) (hx : isDivider x = false) :
    components (s ++ [x]) = comps ++ [c ++ [x]] := by
  have hsingle : components [x] = [[x]] :=
    List.splitOnP_eq_singleton fun y hy => (List.mem_singleton.mp hy) ▸ hx
  induction s generalizing comps c with
  | nil =>
    rw [components, List.splitOnP_nil] at hs
    obtain ⟨rfl, hc⟩ := List.append_inj' (show [] ++ [[]] = comps ++ [c] from hs) rfl
    obtain rfl := List.head_eq_of_cons_eq hc
    exact hsingle
  | cons y s ih =>
    obtain ⟨comps', c', hs'⟩ : ∃ comps' c', components s = comps' ++ [c'] :=
      ⟨_, _, (List.dropLast_concat_getLast (List.splitOnP_ne_nil isDivider s)).symm⟩
    have ih' := ih hs'
    rw [components] at hs hs' ih'
    rw [List.cons_append, components]
    rw [List.splitOnP_cons_eq_if_modifyHead] at hs ⊢
    by_cases hy : isDivider y = true
    · rw [if_pos hy, hs', ← List.cons_append] at hs
      obtain ⟨rfl, hc⟩ := List.append_inj' hs rfl
      obtain rfl := List.head_eq_of_cons_eq hc
      rw [if_pos hy, ih', List.cons_append]
    · rw [if_neg hy, hs'] at hs
      rw [if_neg hy, ih']
      cases comps' with
      | nil =>
        obtain ⟨rfl, hc⟩ := List.append_inj' (show [] ++ [y :: c'] = comps ++ [c] from hs) rfl
        obtain rfl := List.head_eq_of_cons_eq hc
        rfl
      | cons z comps' =>
        have hcons : (y :: z) :: comps' ++ [c'] = comps ++ [c] := hs
        obtain ⟨rfl, hc⟩ := List.append_inj' hcons rfl
        obtain rfl := List.head_eq_of_cons_eq hc
        rfl

theorem components_joined (hl : ∀ c ∈ l, ∀ x ∈ c, isDivider x = false) :
    components (joined l) = [] :: l := by
  induction l with
  | nil => rfl
  | cons c l ih =>
    have hc : ∀ x ∈ c, isDivider x = false := hl c List.mem_cons_self
    have hrest := ih fun c hc => hl c (List.mem_cons_of_mem _ hc)
    have hcons : joined (c :: l) = pxDivider :: (c ++ joined l) := rfl
    have hdivider : isDivider pxDivider = true := rfl
    rw [hcons, components, List.splitOnP_cons_eq_if_modifyHead, if_pos hdivider]
    congr 1
    cases l with
    | nil => rw [joined, List.flatMap_nil, List.append_nil, List.splitOnP_eq_singleton hc]
    | cons c' l =>
      have hcons' : joined (c' :: l) = pxDivider :: (c' ++ joined l) := rfl
      rw [hcons', components, List.splitOnP_cons_eq_if_modifyHead, if_pos hdivider] at hrest
      rw [hcons', List.splitOnP_append_cons_of_forall_mem hc pxDivider rfl]
      exact congrArg (c :: ·) (List.tail_eq_of_cons_eq hrest)

theorem joined_concat (l : List (List UInt8)) (c : List UInt8) :
    joined (l ++ [c]) = joined l ++ pxDivider :: c := by
  rw [joined, List.flatMap_append]
  simp [joined]

theorem length_joined_components (s : List UInt8) :
    (joined (components s)).length = s.length + 1 := by
  induction s using List.reverseRecOn with
  | nil => rfl
  | append_singleton s x ih =>
    rw [List.length_append, List.length_singleton]
    cases hx : isDivider x with
    | true =>
      rw [components_divider hx, joined_concat, List.length_append, ih]
      rfl
    | false =>
      obtain ⟨comps, c, hsplit⟩ : ∃ comps c, components s = comps ++ [c] :=
        ⟨_, _, (List.dropLast_concat_getLast (List.splitOnP_ne_nil isDivider s)).symm⟩
      rw [hsplit, joined_concat, List.length_append, List.length_cons] at ih
      rw [components_concat hsplit hx, joined_concat, List.length_append, List.length_cons,
        List.length_append, List.length_singleton]
      omega

theorem length_joined_sublist {l' : List (List UInt8)} (h : l'.Sublist l) :
    (joined l').length ≤ (joined l).length :=
  (h.flatMap (fun c => pxDivider :: c)).length_le

end Components

end SylixOS.IoPath
