import SylixOS.IoPathRuns

/-! `_PathCondense` writes the canonical form of a path exactly if nothing remains of the components
of three dots and more. -/

namespace SylixOS.IoPath
open SylixOS.ByteBuffer SylixOS.PathStack

variable {s r r' : List UInt8} {d : List UInt8} {l l' : List (List UInt8)}

def ManyDots (d : List UInt8) : Prop := 3 ≤ d.length ∧ ∀ x ∈ d, x = dot

theorem dotKind_or (d : List UInt8) :
    dotKind d = pathKind d ∨ pathKind d = .name ∧ dotKind d = .up := by
  by_cases hall : ∀ x ∈ d, x = dot
  · obtain ⟨k, rfl⟩ : ∃ k, d = List.replicate k dot := ⟨d.length, List.eq_replicate_of_mem hall⟩
    rw [dotKind_dots]
    match k with
    | 0 | 1 | 2 => exact Or.inl rfl
    | k + 3 =>
      refine Or.inr ⟨?_, if_neg (by omega)⟩
      simp [pathKind, List.replicate_succ]
  · obtain ⟨x, hx, hdot⟩ : ∃ x ∈ d, x ≠ dot := by simpa using hall
    have hempty : d ≠ [] := List.ne_nil_of_mem hx
    have hone : d ≠ [dot] := fun h => hdot (List.mem_singleton.mp (h ▸ hx))
    have htwo : d ≠ [dot, dot] := fun h => hdot (by simpa [h] using hx)
    rw [dotKind_name hx hdot, pathKind, if_neg (not_or.mpr ⟨hempty, hone⟩), if_neg htwo]
    exact Or.inl rfl

theorem dotKind_ne_iff : dotKind d ≠ pathKind d ↔ ManyDots d := by
  constructor
  · intro hne
    obtain ⟨hname, hup⟩ := (dotKind_or d).resolve_left hne
    have hall : ∀ x ∈ d, x = dot := by
      by_contra hnot
      rw [dotKind, if_neg fun h => hnot (allDots_iff.mp h)] at hup
      cases hup
    refine ⟨?_, hall⟩
    obtain ⟨k, rfl⟩ : ∃ k, d = List.replicate k dot := ⟨d.length, List.eq_replicate_of_mem hall⟩
    rw [List.length_replicate]
    by_contra hlt
    rcases k with _ | _ | _ | k
    case succ.succ.succ => exact hlt (Nat.le_add_left 3 k)
    all_goals exact hne rfl
  · rintro ⟨hlen, hall⟩ heq
    obtain ⟨k, rfl⟩ : ∃ k, d = List.replicate k dot := ⟨d.length, List.eq_replicate_of_mem hall⟩
    rw [List.length_replicate] at hlen
    obtain ⟨k, rfl⟩ := Nat.exists_eq_add_of_le' hlen
    have hname : pathKind (List.replicate (k + 3) dot) = .name := by
      simp [pathKind, List.replicate_succ]
    rw [dotKind_dots, if_neg (by omega), hname] at heq
    cases heq

section Render

variable {kind : List UInt8 → Kind}

theorem resolve_render (hempty : kind [] = .skip) (hnames : ∀ c ∈ l, kind c = .name)
    (hl : ∀ c ∈ l, ∀ x ∈ c, isDivider x = false) : resolve kind (components (render l)) = l := by
  by_cases hnil : l = []
  · subst hnil
    have hroot : components (render []) = [[], []] := rfl
    rw [hroot, resolve_cons_skip hempty, resolve_cons_skip hempty]
    rfl
  · rw [render, if_neg hnil, components_joined hl, resolve_cons_skip hempty, resolve_names hnames]

theorem resolve_divider : ∀ c ∈ resolve kind (components s), ∀ x ∈ c, x ∈ s ∧ isDivider x = false :=
  fun _ hc => mem_components (mem_resolve hc).1

theorem render_root (l : List (List UInt8)) : (render l).head? = some pxDivider := by
  cases l <;> rfl

theorem mem_render {x : UInt8} (hx : x ∈ render l) : x = pxDivider ∨ ∃ c ∈ l, x ∈ c := by
  rw [render] at hx
  split at hx
  · exact Or.inl (List.mem_singleton.mp hx)
  · obtain ⟨c, hc, hmem⟩ := List.mem_flatMap.mp hx
    exact (List.mem_cons.mp hmem).imp id fun h => ⟨c, hc, h⟩

theorem render_terminator (hs : pxEos ∉ s) : pxEos ∉ render (resolve kind (components s)) := by
  intro hmem
  rcases mem_render hmem with heq | ⟨c, hc, hx⟩
  · exact absurd heq (by decide)
  · exact hs (resolve_divider c hc _ hx).1

theorem length_render_le (hempty : kind [] = .skip) (hroot : s.head? = some pxDivider) :
    (render (resolve kind (components s))).length ≤ s.length := by
  obtain ⟨rest, rfl⟩ : ∃ rest, s = pxDivider :: rest := List.head?_eq_some_iff.mp hroot
  have hsplit : components (pxDivider :: rest) = [] :: components rest := by
    have hdivider : isDivider pxDivider = true := rfl
    rw [components, List.splitOnP_cons_eq_if_modifyHead, if_pos hdivider]
    rfl
  have hsub : (resolve kind (components rest)).Sublist (components rest) := resolve_sublist _
  have hle := length_joined_sublist hsub
  rw [length_joined_components] at hle
  rw [hsplit, resolve_cons_skip hempty, render]
  split
  · exact Nat.succ_le_succ (Nat.zero_le _)
  · exact hle

end Render

theorem condenses_dotKind (hroot : s.head? = some pxDivider) (hs : pxEos ∉ s) :
    Condenses s (render (resolve dotKind (components s))) := by
  obtain ⟨rest, hrest⟩ := List.head?_eq_some_iff.mp hroot
  intro buf holds
  obtain ⟨σ, hloop, reading⟩ := (Reading.start hrest holds).loop hs rest hrest
  have hfirst : buf 0 ≠ pxEos := by
    rw [holds.1 0 (by rw [hrest, List.length_cons]; omega)]
    simp only [hrest, List.getElem_cons_zero]
    decide
  refine ⟨condenseEnd σ, fun fuel hfuel => ?_, reading.ends⟩
  obtain ⟨fuel, rfl⟩ := Nat.exists_eq_succ_of_ne_zero (Nat.ne_zero_of_lt hfuel)
  have hfuel' : rest.length < fuel := by
    rw [hrest, List.length_cons] at hfuel
    exact Nat.lt_of_succ_lt_succ hfuel
  rw [pathCondense, if_neg hfirst, Nat.succ_eq_add_one, condenseLoop, if_neg hfirst,
    hloop fuel hfuel']
  rfl

theorem Condenses.unique (h : Condenses s r) (h' : Condenses s r') (hr : pxEos ∉ r)
    (hr' : pxEos ∉ r') : r = r' := by
  have holds : Holds (fun i => s.getD i pxEos) s := by
    refine ⟨fun i hi => ?_, ?_⟩
    · simp [hi]
    · simp
  obtain ⟨out, hout, hold⟩ := h _ holds
  obtain ⟨out', hout', hold'⟩ := h' _ holds
  have heq : out = out' :=
    Option.some.inj ((hout _ (Nat.lt_succ_self _)).symm.trans (hout' _ (Nat.lt_succ_self _)))
  exact hold.unique (heq ▸ hold') hr hr'

theorem condenses_again (hs : pxEos ∉ s) :
    Condenses (render (resolve dotKind (components s)))
      (render (resolve dotKind (components s))) := by
  have hcode := condenses_dotKind (render_root (resolve dotKind (components s)))
    (render_terminator hs)
  have hsame : resolve dotKind (components (render (resolve dotKind (components s)))) =
      resolve dotKind (components s) :=
    resolve_render rfl (fun c hc => (mem_resolve hc).2)
      fun c hc x hx => (resolve_divider c hc x hx).2
  rwa [hsame] at hcode

theorem condenses_canonical (hroot : s.head? = some pxDivider) (hs : pxEos ∉ s) :
    Condenses s (canonical s) ↔
      resolve dotKind (components s) = resolve pathKind (components s) := by
  constructor
  · intro h
    have hpaths := Condenses.unique (condenses_dotKind hroot hs) h (render_terminator hs)
      (render_terminator hs)
    have hname : ∀ c ∈ resolve dotKind (components s), pathKind c = .name := by
      intro c hc
      have hkeep := (mem_resolve hc).2
      exact (dotKind_or c).elim (fun heq => heq ▸ hkeep) fun h => h.1
    calc resolve dotKind (components s)
        = resolve pathKind (components (render (resolve dotKind (components s)))) :=
          (resolve_render rfl hname fun c hc x hx => (resolve_divider c hc x hx).2).symm
      _ = resolve pathKind (components (canonical s)) := by rw [hpaths]
      _ = resolve pathKind (components s) :=
          resolve_render rfl (fun c hc => (mem_resolve hc).2)
            fun c hc x hx => (resolve_divider c hc x hx).2
  · intro heq
    rw [canonical, ← heq]
    exact condenses_dotKind hroot hs

/-- `_PathCondense` rewrites a path to its canonical form, no longer than the path and left as it
is by another call, exactly if behind every component of three or more dots there is a place
where none of the components remains. -/
theorem condense_iff (hroot : s.head? = some pxDivider) (hs : pxEos ∉ s) :
    (Condenses s (canonical s) ∧ (canonical s).length ≤ s.length ∧
        Condenses (canonical s) (canonical s)) ↔
      ∀ pre d post, components s = pre ++ d :: post → ManyDots d →
        ∃ mid rest, post = mid ++ rest ∧ resolve pathKind (pre ++ d :: mid) = [] := by
  have hreadings := resolve_eq_iff dotKind_or (components s)
  constructor
  · rintro ⟨hcanonical, -, -⟩ pre d post hsplit hdots
    have heq := (condenses_canonical hroot hs).mp hcanonical
    exact hreadings.mp heq pre d post hsplit (dotKind_ne_iff.mpr hdots)
  · intro hall
    have heq := hreadings.mpr fun pre d post hsplit hne =>
      hall pre d post hsplit (dotKind_ne_iff.mp hne)
    refine ⟨(condenses_canonical hroot hs).mpr heq, length_render_le rfl hroot, ?_⟩
    rw [canonical, ← heq]
    exact condenses_again hs

/-- `/a/./b/../c` -/
theorem condense_a_b_c :
    Condenses [0x2f, 0x61, 0x2f, 0x2e, 0x2f, 0x62, 0x2f, 0x2e, 0x2e, 0x2f, 0x63]
      [0x2f, 0x61, 0x2f, 0x63] := by
  have hshort : ∀ d ∈ components
      [0x2f, 0x61, 0x2f, 0x2e, 0x2f, 0x62, 0x2f, 0x2e, 0x2e, 0x2f, 0x63], d.length < 3 := by
    decide
  refine ((condense_iff rfl (by decide)).mpr ?_).1
  intro pre d post hsplit hdots
  have hmem : d ∈ pre ++ d :: post := List.mem_append_right _ List.mem_cons_self
  exact absurd hdots.1 (Nat.not_le.mpr (hshort d (hsplit ▸ hmem)))

/-- The name `...` in `/a/...` takes the directory in front of it away. -/
theorem condense_drops_dots :
    ¬Condenses [0x2f, 0x61, 0x2f, 0x2e, 0x2e, 0x2e]
      (canonical [0x2f, 0x61, 0x2f, 0x2e, 0x2e, 0x2e]) := by
  intro h
  have hsame := (condenses_canonical rfl (by decide)).mp h
  exact absurd hsame (by decide)

end SylixOS.IoPath
