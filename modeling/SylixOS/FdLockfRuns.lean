import SylixOS.FdLockfSteps

/-! Record locks along every run of requests, waits and removals of the file
node. -/

namespace SylixOS.FdLockf
open LinkedChain StepRuns

/-- The list of installed locks denotes the byte map; the locks of one process are disjoint and in
order, and no two processes hold conflicting locks on one byte. -/
def RefinesMap (s : State) : Prop :=
  (∃ ids, IsMono s.node.next s.node.head ids ∧ Denotes (ids.map s.node.span) s.held ∧
    (ids.map s.node.span).Pairwise Before) ∧ Exclusive s.held

theorem Installed.refinesMap {s : State} {ids : List Addr} (h : Installed s ids) : RefinesMap s :=
  ⟨⟨ids, h.linked.mono, h.denotes, h.sorted⟩, h.exclusive⟩

/-- Every request of every run returns or sleeps, and does to the list what overwriting its range
does to the map; without waiting it fails with `EAGAIN` exactly when another process holds a
conflicting lock on some byte. -/
theorem record_locks_refine_map (acts : List Act) :
    Visits step (fun s => RefinesMap s ∧ ∀ r : Request, ∃ s', step s (.request r) = some s' ∧
      RefinesMap s' ∧ (∀ start, r.Asks start → Served s r (r.span start) s') ∧
      ((∀ start, ¬r.Asks start) → s'.held = s.held)) fresh acts := by
  have hinstalled : Visits step (fun s => ∃ ids, Installed s ids) fresh acts := by
    refine visits_of_steps (fun s a s' hs hstep => ?_) ⟨[], fresh_installed⟩
    obtain ⟨ids, h⟩ := hs
    obtain ⟨ids', h', -⟩ := step_installed h hstep
    exact ⟨ids', h'⟩
  refine hinstalled.mono fun s hs => ?_
  obtain ⟨ids, h⟩ := hs
  refine ⟨h.refinesMap, fun r => ?_⟩
  obtain ⟨s', ids', hadv, h', -, hserved, hfailed⟩ := advLock_installed h r
  exact ⟨s', hadv, h'.refinesMap, hserved, fun hno => (hfailed hno).1⟩

/-- Every request that sleeps has been posted, or waits for an installed lock of another process
that overlaps it and conflicts with it. -/
def Unstranded (s : State) : Prop :=
  ∃ ids, IsMono s.node.next s.node.head ids ∧ ∀ k, s.phase k = .asleep →
    s.node.sem (.lock k) = true ∨
      ∃ b ∈ ids, s.node.next (.lock k) = some b ∧ Blocks (s.node.span b) (s.node.span (.lock k))

def RemovedIdle (s : State) : Act → Prop
  | .abort => ∀ ids, IsMono s.node.next s.node.head ids → ∀ b ∈ ids, ∀ k,
      .lock k ∈ s.node.blockHd b → s.phase k ≠ .asleep
  | _ => True

def Orderly (s : State) : Prop :=
  (∃ ids, Installed s ids) ∧ ∀ k, s.phase k = .asleep → s.node.abort (.lock k) = false

theorem Orderly.unstranded {s : State} (h : Orderly s) : Unstranded s := by
  obtain ⟨⟨ids, h⟩, hmarks⟩ := h
  refine ⟨ids, h.linked.mono, fun k hk => ?_⟩
  rcases h.linked.queued.waits (.lock k) ⟨Or.inl hk, hmarks k hk⟩ with
    ⟨-, hposted | htaken⟩ | ⟨-, b, hb, hmem⟩
  · exact Or.inl hposted
  · rw [State.Taken, hk] at htaken
    cases htaken
  · exact Or.inr ⟨b, hb, (h.linked.queued.listed b hb _ hmem).2, h.linked.queued.blocks b hb id _ hmem⟩

theorem Orderly.step {s s' : State} {a : Act} (h : Orderly s) (hidle : RemovedIdle s a)
    (hstep : step s a = some s') : Orderly s' := by
  obtain ⟨⟨ids, h⟩, hmarks⟩ := h
  obtain ⟨ids', h', hunmarked⟩ := step_installed h hstep
  refine ⟨⟨ids', h'⟩, fun k hk => ?_⟩
  rw [← Bool.not_eq_true]
  intro hmark
  by_cases ha : a = .abort
  · subst ha
    obtain ⟨abort', habort, hiff, -⟩ := abort_installed h
    obtain rfl := Option.some.inj (habort.symm.trans hstep)
    rcases (hiff (.lock k)).mp hmark with hold | ⟨b, hb, hmem⟩
    · exact absurd (hold.symm.trans (hmarks k hk)) (by decide)
    · exact hidle ids h.linked.mono b hb k hmem hk
  · obtain ⟨hasleep, hold⟩ := hunmarked ha k hk hmark
    exact absurd (hold.symm.trans (hmarks k hasleep)) (by decide)

theorem Orderly.idle {s s' : State} {a : Act} (h : Orderly s) (hstep : FdLockf.step s a = some s')
    (hsafe : Unstranded s') : RemovedIdle s a := by
  obtain ⟨⟨ids, h⟩, hmarks⟩ := h
  cases a with
  | abort =>
    intro ids₁ hmono b hb k hmem hk
    obtain rfl : ids₁ = ids := hmono.unique h.linked.mono
    obtain ⟨abort', habort, -, -⟩ := abort_installed h
    obtain rfl := Option.some.inj (habort.symm.trans hstep)
    obtain ⟨ids', hmono', hsafe⟩ := hsafe
    obtain rfl : ids' = [] := hmono'.unique rfl
    rcases hsafe k hk with hposted | ⟨c, hc, -⟩
    · rcases h.linked.queued.waits (.lock k) ⟨Or.inl hk, hmarks k hk⟩ with ⟨hnone, -⟩ | ⟨hnot, -⟩
      · rw [(h.linked.queued.listed b hb _ hmem).2] at hnone
        cases hnone
      · exact absurd (hposted.symm.trans hnot) (by decide)
    · cases hc
  | _ => trivial

/-- Along a run no sleeping request is stranded exactly when the file node is only removed while
no request sleeps in the list of an installed lock. -/
theorem no_waiter_stranded_iff (acts : List Act) :
    Visits step Unstranded fresh acts ↔ Obeys step RemovedIdle fresh acts := by
  refine visits_iff_obeys (I := Orderly) (fun s a s' h hidle hstep => h.step hidle hstep)
    (fun s h => h.unstranded) (fun s a s' h hstep hsafe => h.idle hstep hsafe) ?_
  exact ⟨⟨[], fresh_installed⟩, fun _ hk => nomatch hk⟩

def wholeFile (pid : ℕ) (wait : Bool) : Request where
  pid := pid
  type := .wrlck
  whence := .seekSet
  start := 0
  len := 0
  oftSize := 0
  wait := wait
  spareOk := true
  lockOk := true

/-- A process holds the file, another waits for it, and the file node is removed: the wait never
ends. -/
theorem removal_strands_waiter : ¬∀ acts : List Act, Visits step Unstranded fresh acts := by
  intro hall
  have hvisits := hall [.request (wholeFile 1 false), .request (wholeFile 2 true), .abort]
  have hrun : ∃ s, run step fresh
      [.request (wholeFile 1 false), .request (wholeFile 2 true), .abort] = some s ∧
      s.phase 1 = .asleep ∧ s.node.sem (.lock 1) = false ∧ s.node.head = none :=
    ⟨_, rfl, rfl, rfl, rfl⟩
  obtain ⟨s, hrun, hasleep, hsem, hhead⟩ := hrun
  obtain ⟨ids, hmono, hsafe⟩ := hvisits.last hrun
  rw [hhead] at hmono
  obtain rfl : ids = [] := hmono.unique rfl
  rcases hsafe 1 hasleep with hposted | ⟨b, hb, -⟩
  · rw [hsem] at hposted
    cases hposted
  · cases hb

end SylixOS.FdLockf
