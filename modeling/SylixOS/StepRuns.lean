import Mathlib.Logic.Basic

/-! Runs of a machine whose step is a partial function of a state and an
action. A property is followed through every state of a run; a condition is
asked of every step, in the state before it. -/

namespace SylixOS.StepRuns

variable {σ α : Type*} (step : σ → α → Option σ)

def run : σ → List α → Option σ
  | s, [] => some s
  | s, a :: as => (step s a).bind fun s' => run s' as

def Visits (P : σ → Prop) : σ → List α → Prop
  | s, [] => P s
  | s, a :: as => P s ∧ ∀ s', step s a = some s' → Visits P s' as

def Obeys (C : σ → α → Prop) : σ → List α → Prop
  | _, [] => True
  | s, a :: as => ∀ s', step s a = some s' → C s a ∧ Obeys C s' as

variable {step} {P Q I : σ → Prop} {C : σ → α → Prop} {s : σ} {as : List α}

theorem obeys_cons {s' : σ} {a : α} (h : step s a = some s') :
    Obeys step C s (a :: as) ↔ C s a ∧ Obeys step C s' as := by
  constructor
  · exact fun hobeys => hobeys s' h
  · intro hfirst t ht
    rw [h] at ht
    obtain rfl := Option.some.inj ht
    exact hfirst

instance Obeys.decidable [∀ s a, Decidable (C s a)] :
    ∀ (s : σ) (as : List α), Decidable (Obeys step C s as)
  | _, [] => isTrue trivial
  | s, a :: as =>
    match h : step s a with
    | none => isTrue fun s' hs => absurd (h.symm.trans hs) (by simp)
    | some s' =>
      have : Decidable (Obeys step C s' as) := Obeys.decidable s' as
      decidable_of_iff (C s a ∧ Obeys step C s' as) (obeys_cons h).symm

theorem run_cons (s : σ) (a : α) (as : List α) :
    run step s (a :: as) = (step s a).bind fun s' => run step s' as := rfl

theorem Visits.first (h : Visits step P s as) : P s := by
  cases as with
  | nil => exact h
  | cons a as => exact h.1

theorem Visits.mono (h : Visits step P s as) (hPQ : ∀ s, P s → Q s) : Visits step Q s as := by
  induction as generalizing s with
  | nil => exact hPQ s h
  | cons a as ih => exact ⟨hPQ s h.1, fun s' hs => ih (h.2 s' hs)⟩

theorem Visits.last (h : Visits step P s as) {s' : σ} (hrun : run step s as = some s') : P s' := by
  induction as generalizing s with
  | nil =>
    obtain rfl : s = s' := by simpa [run] using hrun
    exact h
  | cons a as ih =>
    rw [run_cons, Option.bind_eq_some_iff] at hrun
    obtain ⟨m, hm, hrun⟩ := hrun
    exact ih (h.2 m hm) hrun

theorem visits_of_obeys (hI : ∀ s a s', I s → C s a → step s a = some s' → I s')
    (hs : I s) (h : Obeys step C s as) : Visits step I s as := by
  induction as generalizing s with
  | nil => exact hs
  | cons a as ih =>
    refine ⟨hs, fun s' hstep => ?_⟩
    obtain ⟨hC, hrest⟩ := h s' hstep
    exact ih (hI s a s' hs hC hstep) hrest

theorem Obeys.and {D : σ → α → Prop} (h : Obeys step C s as) (h' : Obeys step D s as) :
    Obeys step (fun s a => C s a ∧ D s a) s as := by
  induction as generalizing s with
  | nil => trivial
  | cons a as ih =>
    intro s' hstep
    obtain ⟨hfirst, hrest⟩ := h s' hstep
    obtain ⟨hfirst', hrest'⟩ := h' s' hstep
    exact ⟨⟨hfirst, hfirst'⟩, ih hrest hrest'⟩

theorem obeys_trivial : Obeys step (fun _ _ => True) s as := by
  induction as generalizing s with
  | nil => trivial
  | cons a as ih => exact fun s' _ => ⟨trivial, ih⟩

theorem visits_of_steps (hI : ∀ s a s', I s → step s a = some s' → I s') (hs : I s) :
    Visits step I s as :=
  visits_of_obeys (fun s a s' hs _ hstep => hI s a s' hs hstep) hs obeys_trivial

theorem visits_iff_obeys (hI : ∀ s a s', I s → C s a → step s a = some s' → I s')
    (hP : ∀ s, I s → P s) (hC : ∀ s a s', I s → step s a = some s' → P s' → C s a)
    (hs : I s) : Visits step P s as ↔ Obeys step C s as := by
  constructor
  · intro h
    induction as generalizing s with
    | nil => trivial
    | cons a as ih =>
      intro s' hstep
      have hvisits := h.2 s' hstep
      have hc := hC s a s' hs hstep hvisits.first
      exact ⟨hc, ih (hI s a s' hs hc hstep) hvisits⟩
  · intro h
    exact (visits_of_obeys hI hs h).mono hP

variable {ε τ : Type*}

variable (step) in
def trace (event : σ → α → ε) : σ → List α → List ε
  | _, [] => []
  | s, a :: as =>
    match step s a with
    | none => []
    | some s' => event s a :: trace event s' as

def Admits (abs : τ → ε → τ → Prop) : τ → List ε → τ → Prop
  | q, [], q' => q = q'
  | q, e :: es, q' => ∃ m, abs q e m ∧ Admits abs m es q'

theorem admits_append {abs : τ → ε → τ → Prop} {q q' q'' : τ} {es fs : List ε}
    (h : Admits abs q es q') (h' : Admits abs q' fs q'') : Admits abs q (es ++ fs) q'' := by
  induction es generalizing q with
  | nil =>
    obtain rfl : q = q' := h
    exact h'
  | cons e es ih =>
    obtain ⟨m, hm, hrest⟩ := h
    exact ⟨m, hm, ih hrest⟩

theorem simulation {abs : τ → ε → τ → Prop} {event : σ → α → ε} {R : σ → τ → Prop}
    (hstep : ∀ s a s' q, R s q → step s a = some s' → ∃ q', abs q (event s a) q' ∧ R s' q')
    {q : τ} (hs : R s q) {s' : σ} (hrun : run step s as = some s') :
    ∃ q', Admits abs q (trace step event s as) q' ∧ R s' q' := by
  induction as generalizing s q with
  | nil =>
    obtain rfl : s = s' := by simpa [run] using hrun
    exact ⟨q, rfl, hs⟩
  | cons a as ih =>
    rw [run_cons, Option.bind_eq_some_iff] at hrun
    obtain ⟨m, hm, hrun⟩ := hrun
    obtain ⟨r, habs, hr⟩ := hstep s a m q hs hm
    obtain ⟨q', hadmits, hq'⟩ := ih hr hrun
    refine ⟨q', ?_, hq'⟩
    simp only [trace, hm]
    exact ⟨r, habs, hadmits⟩

variable (step) in
def history : σ → List α → List (σ × α × σ)
  | _, [] => []
  | s, a :: as =>
    match step s a with
    | none => []
    | some s' => (s, a, s') :: history s' as

def recording (step : σ → α → Option σ) (p : List (σ × α × σ) × σ) (a : α) :
    Option (List (σ × α × σ) × σ) :=
  (step p.2 a).map fun s' => (p.1 ++ [(p.2, a, s')], s')

theorem recording_eq_some {p p' : List (σ × α × σ) × σ} {a : α}
    (h : recording step p a = some p') :
    step p.2 a = some p'.2 ∧ p'.1 = p.1 ++ [(p.2, a, p'.2)] := by
  obtain ⟨s', hs, rfl⟩ := Option.map_eq_some_iff.mp h
  exact ⟨hs, rfl⟩

theorem obeys_recording {h : List (σ × α × σ)} :
    Obeys (recording step) (fun p a => C p.2 a) (h, s) as ↔ Obeys step C s as := by
  induction as generalizing s h with
  | nil => exact Iff.rfl
  | cons a as ih =>
    constructor
    · intro hobeys s' hs
      have hstep : recording step (h, s) a = some (h ++ [(s, a, s')], s') := by
        simp [recording, hs]
      obtain ⟨hfirst, hrest⟩ := hobeys _ hstep
      exact ⟨hfirst, ih.mp hrest⟩
    · rintro hobeys ⟨h', s'⟩ hp
      obtain ⟨hs, -⟩ := recording_eq_some hp
      obtain ⟨hfirst, hrest⟩ := hobeys s' hs
      exact ⟨hfirst, ih.mpr hrest⟩

theorem filterMap_concat {β γ : Type*} (g : β → Option γ) (l : List β) (x : β) :
    (l ++ [x]).filterMap g = l.filterMap g ++ (g x).toList := by
  rw [List.filterMap_append]
  cases hx : g x <;> simp [hx]

end SylixOS.StepRuns
