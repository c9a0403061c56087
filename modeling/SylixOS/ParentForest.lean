import Mathlib.Data.List.Perm.Subperm
import Mathlib.Logic.Relation

/-! Forests given by a parent pointer. A node is grounded when every walk up
the parents ends; hanging a node under one that is not below it keeps this. -/

namespace SylixOS.ParentForest
open Relation

variable {α : Type*} (parent : α → Option α)

def Up (a b : α) : Prop := parent a = some b

def Grounded (a : α) : Prop := Acc (fun b a => Up parent a b) a

variable {parent} {a b : α}

theorem Grounded.intro (h : ∀ b, parent a = some b → Grounded parent b) : Grounded parent a :=
  Acc.intro a h

theorem Grounded.up (h : Grounded parent a) (hb : Up parent a b) : Grounded parent b :=
  Acc.inv h hb

theorem Grounded.acyclic (h : Grounded parent a) : ¬ TransGen (Up parent) a a := by
  induction h with
  | intro a _ ih =>
    intro hcycle
    obtain ⟨b, hab, hba⟩ := TransGen.head'_iff.mp hcycle
    exact ih b hab (TransGen.tail' hba hab)

theorem Grounded.congr {parent' : α → Option α} (h : Grounded parent a)
    (hsame : ∀ b, ReflTransGen (Up parent) a b → parent' b = parent b) : Grounded parent' a := by
  induction h with
  | intro a _ ih =>
    apply Grounded.intro
    intro b hb
    rw [hsame a ReflTransGen.refl] at hb
    apply ih b hb
    intro x hx
    exact hsame x (ReflTransGen.head hb hx)

theorem Grounded.reparent {parent' : α → Option α} {x : α}
    (hother : ∀ b, b ≠ x → parent' b = parent b)
    (hnew : ∀ b, parent' x = some b → Grounded parent b ∧ ¬ ReflTransGen (Up parent) b x)
    (h : Grounded parent a) : Grounded parent' a := by
  have hx : Grounded parent' x := by
    apply Grounded.intro
    intro b hb
    obtain ⟨hground, hnot⟩ := hnew b hb
    apply hground.congr
    intro y hy
    apply hother
    rintro rfl
    exact hnot hy
  induction h with
  | intro a _ ih =>
    by_cases hax : a = x
    · rw [hax]
      exact hx
    · apply Grounded.intro
      intro b hb
      rw [hother a hax] at hb
      exact ih b hb

section Climb

variable [DecidableEq α] (parent) (x : α)

def climb : (fuel : Nat) → (a : α) → Bool
  | 0, _ => false
  | fuel + 1, a =>
    if x = a then true
    else
      match parent a with
      | none => false
      | some b => climb fuel b

variable {parent} {x}

theorem climb_seen {nodes : List α} (hclosed : ∀ a ∈ nodes, ∀ b, parent a = some b → b ∈ nodes)
    (fuel : Nat) {a : α} (ha : a ∈ nodes) (hground : Grounded parent a) (seen : List α)
    (hnodup : seen.Nodup) (hseen : ∀ v ∈ seen, v ∈ nodes ∧ TransGen (Up parent) v a)
    (hfuel : nodes.length < seen.length + fuel) (hfail : climb parent x fuel a = false) :
    ¬ ReflTransGen (Up parent) a x := by
  induction fuel generalizing a seen with
  | zero =>
    have hle := (List.subperm_of_subset hnodup fun v hv => (hseen v hv).1).length_le
    omega
  | succ fuel ih =>
    rw [climb] at hfail
    split at hfail
    · cases hfail
    rename_i hxa
    intro hpath
    rcases ReflTransGen.cases_head hpath with rfl | ⟨b, hab, hbx⟩
    · exact hxa rfl
    have hab' : parent a = some b := hab
    rw [hab'] at hfail
    have hnot : a ∉ seen := fun hmem => hground.acyclic (hseen a hmem).2
    refine ih (hclosed a ha b hab) (hground.up hab) (a :: seen) (List.nodup_cons.mpr ⟨hnot, hnodup⟩)
      ?_ ?_ hfail hbx
    · intro v hv
      rcases List.mem_cons.mp hv with rfl | hv
      · exact ⟨ha, TransGen.single hab⟩
      · exact ⟨(hseen v hv).1, (hseen v hv).2.tail hab⟩
    · rw [List.length_cons]
      omega

theorem not_above_of_climb {nodes : List α}
    (hclosed : ∀ a ∈ nodes, ∀ b, parent a = some b → b ∈ nodes) {a : α} (ha : a ∈ nodes)
    (hground : Grounded parent a) (hfail : climb parent x (nodes.length + 1) a = false) :
    ¬ ReflTransGen (Up parent) a x :=
  climb_seen hclosed (nodes.length + 1) ha hground [] List.nodup_nil (fun _ hv => nomatch hv)
    (by simp) hfail

end Climb

end SylixOS.ParentForest
