import SylixOS.FdLockf
import Mathlib.Data.List.Basic

/-! Lists of ranges as byte maps. A range of a process is cut out of a sorted
list by trimming the locks of that process on its left and on its right, and a
new lock may take its place. -/

namespace SylixOS.FdLockf

structure Span.Ok (s : Span) : Prop where
  start : 0 ≤ s.oftStart
  stop : s.oftEnd = -1 ∨ s.oftStart ≤ s.oftEnd

def Before (x y : Span) : Prop := x.pid = y.pid → x.oftEnd ≠ -1 ∧ x.oftEnd < y.oftStart

def Denotes (l : List Span) (held : ℕ → ℤ → Option Kind) : Prop :=
  ∀ p b k, held p b = some k ↔ ∃ x ∈ l, x.pid = p ∧ x.usType = k ∧ x.Covers b

def rightPart (k f : Span) : Option Span :=
  if f.pid ≠ k.pid then some f
  else if k.oftEnd ≠ -1 ∧ f.oftStart > k.oftEnd then some f
  else if k.oftEnd ≠ -1 ∧ (f.oftEnd = -1 ∨ f.oftEnd > k.oftEnd) then
    some (f.withStart (k.oftEnd + 1))
  else none

def leftPart (k : Span) : List Span → List Span
  | [] => []
  | f :: _ => if f.pid = k.pid ∧ f.oftStart < k.oftStart then [f.withEnd (k.oftStart - 1)] else []

def newPart (k : Span) : List Span := if k.usType = .unlck then [] else [k]

def cut (k : Span) (front back : List Span) : List Span :=
  front ++ (leftPart k back ++ (newPart k ++ back.filterMap (rightPart k)))

structure Place (k : Span) (front back : List Span) : Prop where
  passed : ∀ x ∈ front, x.pid = k.pid → x.oftEnd ≠ -1 ∧ x.oftEnd < k.oftStart
  next : ∀ f rest, back = f :: rest → f.pid = k.pid ∧ (f.oftEnd = -1 ∨ k.oftStart ≤ f.oftEnd)

theorem rightPart_cases {k f y : Span} (h : rightPart k f = some y) :
    y.pid = f.pid ∧ y.usType = f.usType ∧ y.oftEnd = f.oftEnd ∧ f.oftStart ≤ y.oftStart ∧
      (f.pid ≠ k.pid ∧ y = f ∨
        f.pid = k.pid ∧ k.oftEnd ≠ -1 ∧ k.oftEnd < y.oftStart ∧
          (y = f ∨ y.oftStart = k.oftEnd + 1 ∧ (f.oftEnd = -1 ∨ f.oftEnd > k.oftEnd))) := by
  unfold rightPart at h
  split_ifs at h with hpid hbeyond hleft
  · obtain rfl := Option.some.inj h
    exact ⟨rfl, rfl, rfl, Int.le_refl _, Or.inl ⟨hpid, rfl⟩⟩
  · obtain rfl := Option.some.inj h
    rw [not_not] at hpid
    exact ⟨rfl, rfl, rfl, Int.le_refl _, Or.inr ⟨hpid, hbeyond.1, hbeyond.2, Or.inl rfl⟩⟩
  · obtain rfl := Option.some.inj h
    rw [not_not] at hpid
    have hstart : f.oftStart ≤ k.oftEnd := by
      by_contra hlt
      exact hbeyond ⟨hleft.1, by omega⟩
    refine ⟨rfl, rfl, rfl, ?_, Or.inr ⟨hpid, hleft.1, ?_, Or.inr ⟨rfl, hleft.2⟩⟩⟩
    · simp only [Span.withStart]
      omega
    · simp only [Span.withStart]
      omega

theorem leftPart_cases {k x : Span} {l : List Span} (h : x ∈ leftPart k l) :
    ∃ f rest, l = f :: rest ∧ f.pid = k.pid ∧ f.oftStart < k.oftStart ∧
      x = f.withEnd (k.oftStart - 1) := by
  cases l with
  | nil => cases h
  | cons f rest =>
    simp only [leftPart] at h
    split_ifs at h with hleft
    · exact ⟨f, rest, rfl, hleft.1, hleft.2, List.mem_singleton.mp h⟩
    · cases h

theorem newPart_cases {k x : Span} (h : x ∈ newPart k) : x = k ∧ k.usType ≠ .unlck := by
  unfold newPart at h
  split_ifs at h with hunlck
  · cases h
  · exact ⟨List.mem_singleton.mp h, hunlck⟩

section Cut

variable {k : Span} {front back : List Span}

theorem Place.rest {f : Span} {rest : List Span} (h : Place k front (f :: rest))
    (sorted : (front ++ f :: rest).Pairwise Before) :
    ∀ y ∈ rest, y.pid = k.pid → k.oftStart < y.oftStart := by
  intro y hy hpid
  obtain ⟨hf, hend⟩ := h.next f rest rfl
  have hbefore := (List.pairwise_cons.mp (List.pairwise_append.mp sorted).2.1).1 y hy
    (hf.trans hpid.symm)
  omega

theorem cut_ok (hk : k.Ok) (ok : ∀ x ∈ front ++ back, x.Ok) : ∀ x ∈ cut k front back, x.Ok := by
  intro x hx
  have hstart := hk.start
  simp only [cut, List.mem_append] at hx
  rcases hx with hx | hx | hx | hx
  · exact ok x (List.mem_append_left back hx)
  · obtain ⟨f, rest, rfl, -, hlt, rfl⟩ := leftPart_cases hx
    have hf := (ok f (by simp)).start
    refine ⟨hf, Or.inr ?_⟩
    simp only [Span.withEnd]
    omega
  · rwa [(newPart_cases hx).1]
  · obtain ⟨f, hf, hfx⟩ := List.mem_filterMap.mp hx
    obtain ⟨-, -, hend, hle, hcase⟩ := rightPart_cases hfx
    have hfok := ok f (List.mem_append_right front hf)
    have hfstart := hfok.start
    have hfstop := hfok.stop
    refine ⟨by omega, ?_⟩
    rw [hend]
    rcases hcase with ⟨-, rfl⟩ | ⟨-, -, -, rfl | ⟨hx, hlong⟩⟩
    · exact hfstop
    · exact hfstop
    · omega

theorem cut_sorted (h : Place k front back) (hk : k.Ok) (ok : ∀ x ∈ front ++ back, x.Ok)
    (sorted : (front ++ back).Pairwise Before) : (cut k front back).Pairwise Before := by
  obtain ⟨hfront, hback, hcross⟩ := List.pairwise_append.mp sorted
  have hright : (back.filterMap (rightPart k)).Pairwise Before := by
    refine List.Pairwise.filterMap (rightPart k) ?_ hback
    intro f g hfg x hx y hy hpid
    have hxf := rightPart_cases hx
    have hyg := rightPart_cases hy
    have hbefore := hfg (hxf.1.symm.trans (hpid.trans hyg.1))
    have hend := hxf.2.2.1
    have hstart := hyg.2.2.2.1
    omega
  have hnew : (newPart k ++ back.filterMap (rightPart k)).Pairwise Before := by
    refine List.pairwise_append.mpr ⟨?_, hright, ?_⟩
    · unfold newPart
      split_ifs <;> simp
    · intro x hx y hy hpid
      obtain ⟨g, -, hgy⟩ := List.mem_filterMap.mp hy
      obtain ⟨hg, -, -, -, hcase⟩ := rightPart_cases hgy
      obtain ⟨rfl, -⟩ := newPart_cases hx
      rcases hcase with ⟨hne, -⟩ | ⟨-, hend, hlt, -⟩
      · exact absurd (hg.symm.trans hpid.symm) hne
      · exact ⟨hend, hlt⟩
  have hleft : (leftPart k back ++ (newPart k ++ back.filterMap (rightPart k))).Pairwise
      Before := by
    refine List.pairwise_append.mpr ⟨?_, hnew, ?_⟩
    · cases back with
      | nil => exact List.Pairwise.nil
      | cons f rest =>
        simp only [leftPart]
        split_ifs <;> simp
    · intro x hx y hy hpid
      obtain ⟨f, rest, rfl, hf, hlt, rfl⟩ := leftPart_cases hx
      have hfok := (ok f (by simp)).start
      simp only [Span.withEnd] at hpid ⊢
      refine ⟨by omega, ?_⟩
      rcases List.mem_append.mp hy with hy | hy
      · obtain ⟨rfl, -⟩ := newPart_cases hy
        omega
      · obtain ⟨g, -, hgy⟩ := List.mem_filterMap.mp hy
        obtain ⟨hgpid, -, -, -, hcase⟩ := rightPart_cases hgy
        rcases hcase with ⟨hne, -⟩ | ⟨-, hend, hylt, -⟩
        · exact absurd (hgpid.symm.trans (hpid.symm.trans hf)) hne
        · have hkstop := hk.stop
          omega
  refine List.pairwise_append.mpr ⟨hfront, hleft, ?_⟩
  intro x hx y hy hpid
  rcases List.mem_append.mp hy with hy | hy
  · obtain ⟨f, rest, rfl, hf, hlt, rfl⟩ := leftPart_cases hy
    exact hcross x hx f (by simp) hpid
  · rcases List.mem_append.mp hy with hy | hy
    · obtain ⟨rfl, -⟩ := newPart_cases hy
      exact h.passed x hx hpid
    · obtain ⟨g, hg, hgy⟩ := List.mem_filterMap.mp hy
      obtain ⟨hgpid, -, -, hle, -⟩ := rightPart_cases hgy
      have hbefore := hcross x hx g hg (hpid.trans hgpid)
      omega

theorem rightPart_covers {y : Span} {b : ℤ} (hy : y.Covers b) (hk : k.oftEnd ≠ -1)
    (hb : k.oftEnd < b) : ∃ z, rightPart k y = some z ∧ z.pid = y.pid ∧ z.usType = y.usType ∧
      z.Covers b := by
  unfold rightPart
  split_ifs with hpid hbeyond hleft
  · exact ⟨y, rfl, rfl, rfl, hy⟩
  · exact ⟨y, rfl, rfl, rfl, hy⟩
  · refine ⟨_, rfl, rfl, rfl, ?_, hy.2⟩
    simp only [Span.withStart]
    omega
  · exfalso
    apply hleft
    refine ⟨hk, ?_⟩
    have hstop := hy.2
    omega

theorem rightPart_covered {y z : Span} {b : ℤ} (hz : rightPart k y = some z) (hb : z.Covers b) :
    y.pid = z.pid ∧ y.usType = z.usType ∧ y.Covers b := by
  obtain ⟨hpid, htype, hend, hle, -⟩ := rightPart_cases hz
  refine ⟨hpid.symm, htype.symm, ?_, ?_⟩
  · exact Int.le_trans hle hb.1
  · rw [← hend]
    exact hb.2

theorem mem_cut {x : Span} : x ∈ cut k front back ↔
    x ∈ front ∨ x ∈ leftPart k back ∨ x ∈ newPart k ∨ ∃ f ∈ back, rightPart k f = some x := by
  simp only [cut, List.mem_append, List.mem_filterMap]

theorem cut_inside (h : Place k front back) (ok : ∀ x ∈ front ++ back, x.Ok) {x : Span} {b : ℤ}
    (hx : x ∈ cut k front back) (hpid : x.pid = k.pid) (hb : k.Covers b) (hxb : x.Covers b) : x ∈ newPart k := by
  have hstart := hb.1
  have hxstart := hxb.1
  have hxstop := hxb.2
  rcases mem_cut.mp hx with hx | hx | hx | ⟨f, -, hfx⟩
  · have hpassed := h.passed x hx hpid
    omega
  · obtain ⟨f, rest, rfl, -, hlt, rfl⟩ := leftPart_cases hx
    have hfstart := (ok f (by simp)).start
    simp only [Span.withEnd] at hxstop
    omega
  · exact hx
  · obtain ⟨hfpid, -, -, -, hcase⟩ := rightPart_cases hfx
    have hstop := hb.2
    rcases hcase with ⟨hne, -⟩ | ⟨-, hend, hlt, -⟩
    · exact absurd (hfpid.symm.trans hpid) hne
    · omega

theorem cut_outside (h : Place k front back) (ok : ∀ x ∈ front ++ back, x.Ok)
    (sorted : (front ++ back).Pairwise Before) {p : ℕ} {b : ℤ} {t : Kind} (hout : ¬(p = k.pid ∧ k.Covers b)) :
    (∃ x ∈ cut k front back, x.pid = p ∧ x.usType = t ∧ x.Covers b) ↔
      ∃ x ∈ front ++ back, x.pid = p ∧ x.usType = t ∧ x.Covers b := by
  constructor
  · rintro ⟨x, hx, rfl, rfl, hb⟩
    rcases mem_cut.mp hx with hx | hx | hx | ⟨f, hf, hfx⟩
    · exact ⟨x, List.mem_append_left back hx, rfl, rfl, hb⟩
    · obtain ⟨f, rest, rfl, -, hlt, rfl⟩ := leftPart_cases hx
      refine ⟨f, by simp, rfl, rfl, hb.1, ?_⟩
      have hfstart := (ok f (by simp)).start
      have hend := (h.next f rest rfl).2
      have hstop := hb.2
      simp only [Span.withEnd] at hstop
      omega
    · obtain ⟨rfl, -⟩ := newPart_cases hx
      exact absurd ⟨rfl, hb⟩ hout
    · obtain ⟨hpid, htype, hcovers⟩ := rightPart_covered hfx hb
      exact ⟨f, List.mem_append_right front hf, hpid, htype, hcovers⟩
  · rintro ⟨x, hx, rfl, rfl, hb⟩
    rcases List.mem_append.mp hx with hx | hx
    · exact ⟨x, mem_cut.mpr (Or.inl hx), rfl, rfl, hb⟩
    · by_cases hpid : x.pid = k.pid
      · have houtside : b < k.oftStart ∨ k.oftEnd ≠ -1 ∧ k.oftEnd < b := by
          by_contra hin
          apply hout
          refine ⟨hpid, ?_, ?_⟩ <;> omega
        rcases houtside with hleft | hright
        · cases back with
          | nil => cases hx
          | cons f rest =>
            have hxf : x = f := by
              rcases List.mem_cons.mp hx with hxf | hxr
              · exact hxf
              · have hlate := h.rest sorted x hxr hpid
                have hstart := hb.1
                omega
            subst hxf
            have hstart := hb.1
            refine ⟨x.withEnd (k.oftStart - 1), mem_cut.mpr (Or.inr (Or.inl ?_)), rfl, rfl, hb.1,
              Or.inr ?_⟩
            · simp only [leftPart]
              rw [if_pos ⟨hpid, by omega⟩]
              exact List.mem_singleton_self _
            · simp only [Span.withEnd]
              omega
        · obtain ⟨z, hz, hzpid, hztype, hzb⟩ := rightPart_covers hb hright.1 hright.2
          exact ⟨z, mem_cut.mpr (Or.inr (Or.inr (Or.inr ⟨x, hx, hz⟩))), hzpid, hztype, hzb⟩
      · refine ⟨x, mem_cut.mpr (Or.inr (Or.inr (Or.inr ⟨x, hx, ?_⟩))), rfl, rfl, hb⟩
        unfold rightPart
        rw [if_pos hpid]

theorem cut_denotes (h : Place k front back) (ok : ∀ x ∈ front ++ back, x.Ok)
    (sorted : (front ++ back).Pairwise Before) {held : ℕ → ℤ → Option Kind}
    (denotes : Denotes (front ++ back) held) : Denotes (cut k front back) (overwrite held k) := by
  intro p b t
  by_cases hin : p = k.pid ∧ k.Covers b
  · simp only [overwrite]
    rw [if_pos hin]
    obtain ⟨rfl, hb⟩ := hin
    constructor
    · intro hmark
      have hlock : k.usType ≠ .unlck ∧ k.usType = t := by
        cases htype : k.usType with
        | unlck =>
          rw [htype] at hmark
          cases hmark
        | _ =>
          rw [htype] at hmark
          exact ⟨Kind.noConfusion, Option.some.inj hmark⟩
      refine ⟨k, mem_cut.mpr (Or.inr (Or.inr (Or.inl ?_))), rfl, hlock.2, hb⟩
      unfold newPart
      rw [if_neg hlock.1]
      exact List.mem_singleton_self k
    · rintro ⟨x, hx, hpid, rfl, hxb⟩
      obtain ⟨rfl, hlock⟩ := newPart_cases (cut_inside h ok hx hpid hb hxb)
      cases htype : x.usType with
      | unlck => exact absurd htype hlock
      | _ => rfl
  · simp only [overwrite]
    rw [if_neg hin, cut_outside h ok sorted hin]
    exact denotes p b t

theorem overwrite_same {l : List Span} {f : Span} {held : ℕ → ℤ → Option Kind}
    (denotes : Denotes l held) (hf : f ∈ l) (hpid : f.pid = k.pid) (htype : f.usType = k.usType)
    (hlock : k.usType ≠ .unlck) (hcovers : ∀ b, k.Covers b → f.Covers b) :
    overwrite held k = held := by
  funext p b
  simp only [overwrite]
  split_ifs with hin
  · obtain ⟨rfl, hb⟩ := hin
    have hheld := (denotes k.pid b k.usType).mpr ⟨f, hf, hpid, htype, hcovers b hb⟩
    rw [hheld]
    cases hk : k.usType with
    | unlck => exact absurd hk hlock
    | _ => rfl
  · rfl

end Cut

end SylixOS.FdLockf
