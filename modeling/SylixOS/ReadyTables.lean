import SylixOS.CandTable

/-! Consistency of the ready and candidate tables along every run. `Tables G c s R ring`
says that the tables hold exactly the threads of `R`, each in one place; these are the
ready threads between calls. `G` is the status of every thread, which the table functions
leave alone. -/

namespace SylixOS.CandTable
open LinkedChain ListLink BitmapLib Function

variable {c : Config} {G : Nat → Bool}

def Occupied (ring : Pcb → List Nat) (T : Table) (p : Nat) : Prop :=
  ∃ hp : p < 256, ring ⟨T, p, hp⟩ ≠ []

structure Tables (G : Nat → Bool) (c : Config) (s : State) (R : Nat → Prop)
    (ring : Pcb → List Nat) : Prop where
  status : ∀ t, (s.tcb t).isReady = G t
  family : RingFamily s.ringReady s.pringReadyHeader ring
  queued : ∀ k t, t ∈ ring k ↔ R t ∧ (s.tcb t).bIsCand = false ∧ getPcb c s t = k
  cand : ∀ i t, (s.cpu i).ptcbCand = some t ↔ (s.tcb t).bIsCand = true ∧ (s.tcb t).ulCPUId = i
  held : ∀ t, (s.tcb t).bIsCand = true → R t
  bmap : ∀ T, Represents (s.bmap T) (Occupied ring T)

section Frame

variable {s : State} {R : Nat → Prop} {ring : Pcb → List Nat}

theorem Tables.congr (tables : Tables G c s R ring) {s' : State} {G' : Nat → Bool}
    {R' : Nat → Prop} (status : ∀ t, (s'.tcb t).isReady = G' t)
    (links : s'.ringReady = s.ringReady) (header : s'.pringReadyHeader = s.pringReadyHeader)
    (bmap : s'.bmap = s.bmap) (slots : ∀ i, (s'.cpu i).ptcbCand = (s.cpu i).ptcbCand)
    (flags : ∀ t, (s'.tcb t).bIsCand = (s.tcb t).bIsCand ∧
      ((s.tcb t).bIsCand = true → (s'.tcb t).ulCPUId = (s.tcb t).ulCPUId) ∧
      ((s.tcb t).bIsCand = false → R t → getPcb c s' t = getPcb c s t))
    (held : ∀ t, R' t ↔ R t) : Tables G' c s' R' ring := by
  refine ⟨status, by rw [links, header]; exact tables.family, ?_, ?_, ?_, ?_⟩
  · intro k t
    obtain ⟨cand, _, place⟩ := flags t
    rw [tables.queued, held, cand]
    constructor
    · rintro ⟨member, idle, here⟩
      exact ⟨member, idle, (place idle member).trans here⟩
    · rintro ⟨member, idle, here⟩
      exact ⟨member, idle, (place idle member).symm.trans here⟩
  · intro i t
    obtain ⟨cand, cpu, _⟩ := flags t
    rw [slots, tables.cand, cand]
    constructor
    · rintro ⟨flag, here⟩
      exact ⟨flag, (cpu flag).trans here⟩
    · rintro ⟨flag, here⟩
      exact ⟨flag, (cpu flag).symm.trans here⟩
  · intro t flag
    rw [(flags t).1] at flag
    exact (held t).mpr (tables.held t flag)
  · rw [bmap]
    exact tables.bmap

theorem Tables.setRot (tables : Tables G c s R ring) (i : Nat) (b : Bool) :
    Tables G c (s.setRot i b) R ring := by
  refine tables.congr tables.status rfl rfl rfl ?_
    (fun t => ⟨rfl, fun _ => rfl, fun _ _ => rfl⟩) (fun _ => Iff.rfl)
  intro j
  by_cases h : j = i <;> simp [State.setRot, State.setCpu, h]

end Frame

theorem Tables.setCand {s : State} {R : Nat → Prop} {ring : Pcb → List Nat} {i t : Nat}
    (tables : Tables G c s R ring) (slot : (s.cpu i).ptcbCand = none) (out : ¬ R t) :
    Tables G c (setCand s i t) (fun u => R u ∨ u = t) ring := by
  have self : ((CandTable.setCand s i t).tcb t).bIsCand = true ∧
      ((CandTable.setCand s i t).tcb t).ulCPUId = i := by
    simp [CandTable.setCand, State.setTcb, State.setCpu]
  have other : ∀ u, u ≠ t → (CandTable.setCand s i t).tcb u = s.tcb u := by
    intro u hu
    simp [CandTable.setCand, State.setTcb, State.setCpu, hu]
  have cpus : ∀ j, ((CandTable.setCand s i t).cpu j).ptcbCand =
      if j = i then some t else (s.cpu j).ptcbCand := by
    intro j
    by_cases h : j = i <;> simp [CandTable.setCand, State.setTcb, State.setCpu, h]
  have status : ∀ u, ((CandTable.setCand s i t).tcb u).isReady = G u := by
    intro u
    rw [← tables.status u]
    by_cases h : u = t <;> simp [CandTable.setCand, State.setTcb, State.setCpu, h]
  refine ⟨status, tables.family, ?_, ?_, ?_, tables.bmap⟩
  · intro k u
    by_cases h : u = t
    · rw [h, self.1]
      simp only [Bool.true_eq_false, false_and, and_false, iff_false]
      intro mem
      exact out ((tables.queued k t).mp mem).1
    · rw [tables.queued, getPcb, getPcbEx, getPcb, getPcbEx, other u h]
      simp [h]
  · intro j u
    rw [cpus]
    by_cases h : u = t
    · rw [h]
      split
      next hj => simp [self, hj]
      next hj =>
        constructor
        · intro e
          exact absurd (tables.held t ((tables.cand j t).mp e).1) out
        · rintro ⟨_, e⟩
          exact absurd (e.symm.trans self.2) hj
    · rw [other u h, ← tables.cand]
      split
      next hj =>
        subst hj
        simp [slot, Ne.symm h]
      next => rfl
  · intro u flag
    by_cases h : u = t
    · exact Or.inr h
    · rw [other u h] at flag
      exact Or.inl (tables.held u flag)

theorem Tables.clearCand {s s' : State} {R : Nat → Prop} {ring : Pcb → List Nat} {i t : Nat}
    (tables : Tables G c s R ring) (here : (s.cpu i).ptcbCand = some t)
    (links : s'.ringReady = s.ringReady) (header : s'.pringReadyHeader = s.pringReadyHeader)
    (bmap : s'.bmap = s.bmap)
    (slots : ∀ j, (s'.cpu j).ptcbCand = if j = i then none else (s.cpu j).ptcbCand)
    (self : (s'.tcb t).bIsCand = false) (status : (s'.tcb t).isReady = (s.tcb t).isReady)
    (other : ∀ u, u ≠ t → s'.tcb u = s.tcb u) :
    Tables G c s' (fun u => R u ∧ u ≠ t) ring := by
  have owner := (tables.cand i t).mp here
  refine ⟨?_, by rw [links, header]; exact tables.family, ?_, ?_, ?_,
    by rw [bmap]; exact tables.bmap⟩
  · intro u
    rw [← tables.status u]
    by_cases h : u = t
    · rw [h]
      exact status
    · rw [other u h]
  · intro k u
    rw [tables.queued]
    by_cases h : u = t
    · rw [h]
      simp [owner.1]
    · rw [getPcb, getPcbEx, getPcb, getPcbEx, other u h]
      simp [h]
  · intro j u
    rw [slots]
    by_cases h : u = t
    · rw [h, self]
      split
      next => simp
      next hj =>
        simp only [Bool.false_eq_true, false_and, iff_false]
        intro e
        exact hj (((tables.cand j t).mp e).2.symm.trans owner.2)
    · rw [other u h, ← tables.cand]
      split
      next hj => simp [hj, here, Ne.symm h]
      next => rfl
  · intro u flag
    by_cases h : u = t
    · rw [h, self] at flag
      exact absurd flag (by simp)
    · rw [other u h] at flag
      exact ⟨tables.held u flag, h⟩

section Bitmaps

variable {ring : Pcb → List Nat} {k : Pcb} {l' : List Nat}

theorem occupied_update (T : Table) (p : Nat) :
    Occupied (update ring k l') T p ↔
      (T = k.table ∧ p = k.ucPriority ∧ l' ≠ []) ∨
      (¬(T = k.table ∧ p = k.ucPriority) ∧ Occupied ring T p) := by
  obtain ⟨T', p', hp'⟩ := k
  by_cases here : T = T' ∧ p = p'
  · obtain ⟨rfl, rfl⟩ := here
    simp [Occupied, hp']
  · have differ : ∀ hp : p < 256, (⟨T, p, hp⟩ : Pcb) ≠ ⟨T', p', hp'⟩ := by
      intro hp e
      simp only [Pcb.mk.injEq, Fin.mk.injEq] at e
      exact here e
    simp only [Occupied, here, not_false_eq_true, true_and]
    constructor
    · rintro ⟨hp, some⟩
      rw [update_of_ne (differ hp)] at some
      exact Or.inr ⟨hp, some⟩
    · rintro (⟨hT, hp, _⟩ | ⟨hp, some⟩)
      · exact absurd ⟨hT, hp⟩ here
      · refine ⟨hp, ?_⟩
        rw [update_of_ne (differ hp)]
        exact some

theorem represents_enqueue {bmap : Table → Bmap} (rep : ∀ T, Represents (bmap T) (Occupied ring T))
    (some : l' ≠ []) (T : Table) :
    Represents ((if ring k = [] then
        update bmap k.table (bitmapAdd (bmap k.table) k.ucPriority) else bmap) T)
      (Occupied (update ring k l') T) := by
  have here : ∀ p, T = k.table → p = k.ucPriority.val → ring k ≠ [] → Occupied ring T p := by
    rintro p rfl rfl nonempty
    exact ⟨k.ucPriority.isLt, nonempty⟩
  split
  next empty =>
    by_cases hT : T = k.table
    · rw [hT, update_self]
      refine ((rep k.table).add k.ucPriority.isLt).congr ?_
      intro p _
      rw [occupied_update]
      by_cases hp : p = k.ucPriority.val <;> simp [hp, some]
    · rw [update_of_ne hT]
      refine (rep T).congr ?_
      intro p _
      rw [occupied_update]
      simp [hT]
  next nonempty =>
    refine (rep T).congr ?_
    intro p _
    rw [occupied_update]
    by_cases hT : T = k.table
    · by_cases hp : p = k.ucPriority.val
      · simp [hT, hp, some, hT ▸ hp ▸ here p hT hp nonempty]
      · simp [hT, hp]
    · simp [hT]

variable (l') in
theorem represents_dequeue {bmap : Table → Bmap} (rep : ∀ T, Represents (bmap T) (Occupied ring T))
    (old : ring k ≠ []) (T : Table) :
    Represents ((if l' = [] then
        update bmap k.table (bitmapDel (bmap k.table) k.ucPriority) else bmap) T)
      (Occupied (update ring k l') T) := by
  split
  next empty =>
    by_cases hT : T = k.table
    · rw [hT, update_self]
      refine ((rep k.table).del k.ucPriority.isLt).congr ?_
      intro p _
      rw [occupied_update]
      simp [empty, and_comm]
    · rw [update_of_ne hT]
      refine (rep T).congr ?_
      intro p _
      rw [occupied_update]
      simp [hT]
  next nonempty =>
    refine (rep T).congr ?_
    intro p _
    rw [occupied_update]
    by_cases here : T = k.table ∧ p = k.ucPriority.val
    · obtain ⟨rfl, rfl⟩ := here
      have mem : Occupied ring k.table k.ucPriority := ⟨k.ucPriority.isLt, old⟩
      simp [nonempty, mem]
    · simp only [here, not_false_eq_true, true_and]
      constructor
      · exact Or.inr
      · rintro (⟨hT, hp, _⟩ | mem)
        · exact absurd ⟨hT, hp⟩ here
        · exact mem

end Bitmaps

theorem Tables.enqueue {s : State} {R : Nat → Prop} {ring : Pcb → List Nat} {t : Nat}
    (tables : Tables G c s R ring) (out : ¬ R t) {new : Links Nat × Option Nat} {l' : List Nat}
    (perm : l'.Perm (t :: ring (getPcb c s t))) (isRing : IsRing new.1 new.2 l')
    (frame : ∀ x, x ∉ t :: ring (getPcb c s t) →
      new.1.next x = s.ringReady.next x ∧ new.1.prev x = s.ringReady.prev x)
    {bmap : Table → Bmap}
    (rep : ∀ T, Represents (bmap T) (Occupied (update ring (getPcb c s t) l') T)) :
    Tables G c { s.setRing (getPcb c s t) new with bmap := bmap } (fun u => R u ∨ u = t)
      (update ring (getPcb c s t) l') := by
  have idle : (s.tcb t).bIsCand = false := by
    by_contra flag
    exact out (tables.held t (by simpa using flag))
  have apart : ∀ k', k' ≠ getPcb c s t → ∀ x ∈ ring k', x ∉ t :: ring (getPcb c s t) := by
    intro k' hk x hx mem
    rcases List.mem_cons.mp mem with rfl | mem
    · exact out ((tables.queued k' x).mp hx).1
    · exact hk (tables.family.disjoint hx mem)
  refine ⟨tables.status, tables.family.update isRing (fun k' hk x hx => frame x (apart k' hk x hx))
    (fun k' hk x hx mem => apart k' hk x hx (perm.mem_iff.mp mem)), ?_, tables.cand, ?_, rep⟩
  · intro k u
    change _ ↔ (R u ∨ u = t) ∧ (s.tcb u).bIsCand = false ∧ getPcb c s u = k
    by_cases hk : k = getPcb c s t
    · rw [hk, update_self, perm.mem_iff, List.mem_cons, tables.queued]
      by_cases hu : u = t
      · simp [hu, idle]
      · simp [hu]
    · rw [update_of_ne hk, tables.queued]
      by_cases hu : u = t
      · rw [hu]
        simp [out, Ne.symm hk]
      · simp [hu]
  · intro u flag
    exact Or.inl (tables.held u flag)

theorem Tables.dequeue {s : State} {R : Nat → Prop} {ring : Pcb → List Nat} {t : Nat} {k : Pcb}
    (tables : Tables G c s R ring) (mem : t ∈ ring k) {bmap : Table → Bmap}
    (rep : ∀ T, Represents (bmap T) (Occupied (update ring k ((ring k).erase t)) T)) :
    Tables G c { delTCBFromReadyRing s t k with bmap := bmap } (fun u => R u ∧ u ≠ t)
      (update ring k ((ring k).erase t)) := by
  obtain ⟨isRing, _, _, frame⟩ := listRingDel_spec (tables.family.isRing k) mem
  have nodup := (tables.family.isRing k).nodup
  obtain ⟨_, idle, place⟩ := (tables.queued k t).mp mem
  have apart : ∀ k', k' ≠ k → ∀ x ∈ ring k', x ∉ ring k :=
    fun k' hk x hx hxk => hk (tables.family.disjoint hx hxk)
  refine ⟨tables.status, tables.family.update isRing (fun k' hk x hx => frame x (apart k' hk x hx))
    (fun k' hk x hx e => apart k' hk x hx (List.mem_of_mem_erase e)), ?_, tables.cand, ?_, rep⟩
  · intro k' u
    change _ ↔ (R u ∧ u ≠ t) ∧ (s.tcb u).bIsCand = false ∧ getPcb c s u = k'
    by_cases hk : k' = k
    · rw [hk, update_self, nodup.mem_erase_iff, tables.queued]
      tauto
    · rw [update_of_ne hk, tables.queued]
      have apart : getPcb c s u = k' → u ≠ t := by
        rintro here rfl
        exact hk (here.symm.trans place)
      tauto
  · intro u flag
    refine ⟨tables.held u flag, ?_⟩
    rintro rfl
    change (s.tcb u).bIsCand = true at flag
    simp [idle] at flag

section Rings

variable {s : State} {R : Nat → Prop} {ring : Pcb → List Nat}

theorem Tables.of_iff (tables : Tables G c s R ring) {R' : Nat → Prop} (same : ∀ t, R' t ↔ R t) :
    Tables G c s R' ring :=
  tables.congr tables.status rfl rfl rfl (fun _ => rfl)
    (fun _ => ⟨rfl, fun _ => rfl, fun _ _ => rfl⟩) same

theorem pcbIsEmpty_iff (family : RingFamily s.ringReady s.pringReadyHeader ring) (k : Pcb) :
    pcbIsEmpty s k = true ↔ ring k = [] := by
  rw [pcbIsEmpty, (family.isRing k).header_eq, Option.isNone_iff_eq_none, List.head?_eq_none_iff]

theorem pcbIsOne_iff {k : Pcb} {l : List Nat}
    (isRing : IsRing s.ringReady (s.pringReadyHeader k) l) :
    pcbIsOne s k = true ↔ l.length = 1 := by
  have header := isRing.header_eq
  cases l with
  | nil => simp [pcbIsOne, header]
  | cons h t =>
    simp only [pcbIsOne, header, List.head?_cons, beq_iff_eq, isRing.next_head_eq_iff,
      List.length_cons]
    rw [← List.length_eq_zero_iff]
    omega

theorem readyRingAdd_cases (x : Tcb) (bIsHeader : Bool) :
    readyRingAdd x bIsHeader = listRingAddAhead ∨ readyRingAdd x bIsHeader = listRingAddLast ∨
    readyRingAdd x bIsHeader = listRingAddFront := by
  unfold readyRingAdd
  cases bIsHeader with
  | true => exact Or.inl rfl
  | false =>
    refine Or.inr ?_
    by_cases fifo : x.ucSchedPolicy = .fifo
    · simp [fifo]
    · cases mode : x.ucSchedActivateMode with
      | immiedia => simp [fifo]
      | standard => simp [fifo]
      | auto => cases x.ucSchedActivate <;> simp [fifo]

theorem readyRingAdd_spec {L : Links Nat} {header : Option Nat} {t : Nat} {l : List Nat}
    (isRing : IsRing L header l) (fresh : t ∉ l) (x : Tcb) (bIsHeader : Bool) :
    ∃ l', l'.Perm (t :: l) ∧
      IsRing (readyRingAdd x bIsHeader L t header).1 (readyRingAdd x bIsHeader L t header).2 l' ∧
      ∀ u, u ∉ t :: l → (readyRingAdd x bIsHeader L t header).1.next u = L.next u ∧
        (readyRingAdd x bIsHeader L t header).1.prev u = L.prev u := by
  obtain ⟨ahead, aheadFrame⟩ := listRingAddAhead_spec isRing fresh
  obtain ⟨last, lastFrame⟩ := listRingAddLast_spec isRing fresh
  obtain ⟨⟨l', frontPerm, front⟩, frontFrame⟩ := listRingAddFront_spec isRing fresh
  have lastPerm : (l ++ [t]).Perm (t :: l) := List.perm_append_singleton t l
  have lastFrame' := fun u (hu : u ∉ t :: l) => lastFrame u (fun e => hu (lastPerm.mem_iff.mp e))
  rcases readyRingAdd_cases x bIsHeader with which | which | which
  · rw [which]
    exact ⟨_, List.Perm.refl _, ahead, aheadFrame⟩
  · rw [which]
    exact ⟨_, lastPerm, last, lastFrame'⟩
  · rw [which]
    exact ⟨_, frontPerm, front, frontFrame⟩

theorem Tables.not_mem (tables : Tables G c s R ring) {t : Nat} (out : ¬ R t) (k : Pcb) :
    t ∉ ring k := fun mem => out ((tables.queued k t).mp mem).1

theorem Tables.join (tables : Tables G c s R ring) {t : Nat} (out : ¬ R t) (bIsHeader : Bool) :
    ∃ ring', Tables G c
        { addTCBToReadyRing s t (getPcb c s t) bIsHeader with
          bmap := if pcbIsEmpty s (getPcb c s t) then (readyTableAdd c s t).bmap else s.bmap }
        (fun u => R u ∨ u = t) ring' ∧
      (∀ k, ring k ≠ [] → ring' k ≠ []) ∧
      (pcbIsOne (addTCBToReadyRing s t (getPcb c s t) bIsHeader) (getPcb c s t) =
        pcbIsEmpty s (getPcb c s t)) := by
  obtain ⟨l', perm, isRing, frame⟩ := readyRingAdd_spec
    (tables.family.isRing (getPcb c s t)) (tables.not_mem out _) (s.tcb t) bIsHeader
  have filled : l' ≠ [] := fun e => by simpa [e] using perm.length_eq
  have rep := represents_enqueue (k := getPcb c s t) tables.bmap filled
  have empty := pcbIsEmpty_iff tables.family (getPcb c s t)
  have bits : (if pcbIsEmpty s (getPcb c s t) then (readyTableAdd c s t).bmap else s.bmap) =
      if ring (getPcb c s t) = [] then
        update s.bmap (getPcb c s t).table
          (bitmapAdd (s.bmap (getPcb c s t).table) (getPcb c s t).ucPriority)
      else s.bmap := by
    simp only [empty]
    rfl
  rw [bits]
  refine ⟨_, tables.enqueue out perm isRing frame rep, ?_, ?_⟩
  · intro k some
    by_cases hk : k = getPcb c s t
    · rw [hk, update_self]
      exact filled
    · rw [update_of_ne hk]
      exact some
  · have here : IsRing (addTCBToReadyRing s t (getPcb c s t) bIsHeader).ringReady
        ((addTCBToReadyRing s t (getPcb c s t) bIsHeader).pringReadyHeader (getPcb c s t)) l' := by
      simpa [addTCBToReadyRing, State.setRing] using isRing
    rw [Bool.eq_iff_iff, pcbIsOne_iff here, empty, perm.length_eq, List.length_cons,
      ← List.length_eq_zero_iff]
    omega

theorem Tables.leave (tables : Tables G c s R ring) {t : Nat} {k : Pcb} (mem : t ∈ ring k) :
    ∃ ring', Tables G c
        { delTCBFromReadyRing s t k with
          bmap := if pcbIsEmpty (delTCBFromReadyRing s t k) k then (readyTableDel c s t).bmap
            else s.bmap }
        (fun u => R u ∧ u ≠ t) ring' := by
  have place : getPcb c s t = k := ((tables.queued k t).mp mem).2.2
  have some : ring k ≠ [] := List.ne_nil_of_mem mem
  have rep := represents_dequeue (k := k) ((ring k).erase t) tables.bmap some
  obtain ⟨isRing, _, _, _⟩ := listRingDel_spec (tables.family.isRing k) mem
  have empty : pcbIsEmpty (delTCBFromReadyRing s t k) k = true ↔ (ring k).erase t = [] := by
    have header := isRing.header_eq
    rw [pcbIsEmpty, delTCBFromReadyRing, State.setRing]
    simp only [update_self]
    rw [header, Option.isNone_iff_eq_none, List.head?_eq_none_iff]
  have bits : (if pcbIsEmpty (delTCBFromReadyRing s t k) k then (readyTableDel c s t).bmap
      else s.bmap) =
      if (ring k).erase t = [] then
        update s.bmap k.table (bitmapDel (s.bmap k.table) k.ucPriority)
      else s.bmap := by
    simp only [empty]
    rw [← place]
    rfl
  rw [bits]
  exact ⟨_, tables.dequeue mem rep⟩

end Rings

section Candidates

variable {s : State} {R : Nat → Prop} {ring : Pcb → List Nat}

theorem candTableEmpty_spec (tables : Tables G c s R ring) {i t : Nat}
    (here : (s.cpu i).ptcbCand = some t) :
    ∃ ring', Tables G c (candTableEmpty c s i t) R ring' ∧
      ((candTableEmpty c s i t).cpu i).ptcbCand = none ∧ ∀ k, ring k ≠ [] → ring' k ≠ [] := by
  obtain ⟨flag, owner⟩ := (tables.cand i t).mp here
  have cleared : Tables G c ((s.setTcb t (fun x => { x with bIsCand := false })).setCpu i
      (fun x => { x with ptcbCand := none })) (fun u => R u ∧ u ≠ t) ring := by
    refine tables.clearCand here rfl rfl rfl ?_ ?_ ?_ ?_
    · intro j
      by_cases h : j = i <;> simp [State.setTcb, State.setCpu, h]
    · simp [State.setTcb, State.setCpu]
    · simp [State.setTcb, State.setCpu]
    · intro u hu
      simp [State.setTcb, State.setCpu, hu]
  obtain ⟨ring', joined, grows, one⟩ := cleared.join (t := t) (by simp) true
  have place : getPcb c ((s.setTcb t (fun x => { x with bIsCand := false })).setCpu i
      (fun x => { x with ptcbCand := none })) t = getPcb c s t := by
    simp [getPcb, getPcbEx, State.setTcb, State.setCpu, tableOf]
  rw [place] at joined one
  have value : candTableEmpty c s i t =
      { addTCBToReadyRing ((s.setTcb t (fun x => { x with bIsCand := false })).setCpu i
          (fun x => { x with ptcbCand := none })) t (getPcb c s t) true with
        bmap := if pcbIsEmpty ((s.setTcb t (fun x => { x with bIsCand := false })).setCpu i
            (fun x => { x with ptcbCand := none })) (getPcb c s t) then
          (readyTableAdd c ((s.setTcb t (fun x => { x with bIsCand := false })).setCpu i
            (fun x => { x with ptcbCand := none })) t).bmap
          else s.bmap } := by
    have same : pcbIsOne (addTCBToReadyRing (s.setTcb t (fun x => { x with bIsCand := false })) t
        (getPcb c s t) true) (getPcb c s t) =
        pcbIsEmpty ((s.setTcb t (fun x => { x with bIsCand := false })).setCpu i
          (fun x => { x with ptcbCand := none })) (getPcb c s t) := one
    simp only [candTableEmpty, same]
    split <;> rfl
  rw [value]
  refine ⟨ring', joined.of_iff ?_, ?_, grows⟩
  · intro u
    by_cases hu : u = t
    · simp [hu, tables.held t flag]
    · simp [hu]
  · simp [addTCBToReadyRing, State.setRing, State.setTcb, State.setCpu]

theorem Tables.turn (tables : Tables G c s R ring) {k : Pcb} (filled : ring k ≠ []) :
    ∃ t ring', listRingNext s.ringReady (s.pringReadyHeader k) = some t ∧ t ∈ ring' k ∧
      Tables G c { s with pringReadyHeader := update s.pringReadyHeader k (some t) } R
        ring' := by
  obtain ⟨l', perm, turned⟩ := listRingNext_spec (tables.family.isRing k)
  have filled' : l' ≠ [] := by
    intro e
    rw [e] at perm
    exact filled perm.symm.eq_nil
  obtain ⟨t, l, rfl⟩ := List.exists_cons_of_ne_nil filled'
  have next : listRingNext s.ringReady (s.pringReadyHeader k) = some t := turned.header_eq
  rw [next] at turned
  have mem_update : ∀ k' x, x ∈ update ring k (t :: l) k' ↔ x ∈ ring k' := by
    intro k' x
    by_cases hk : k' = k
    · rw [hk, update_self]
      exact perm.mem_iff
    · rw [update_of_ne hk]
  refine ⟨t, update ring k (t :: l), next, by simp, tables.status, ?_, ?_, tables.cand,
    tables.held, ?_⟩
  · refine tables.family.update turned (fun _ _ _ _ => ⟨rfl, rfl⟩) ?_
    intro k' hk x hx hxl
    exact hk (tables.family.disjoint hx (perm.mem_iff.mp hxl))
  · intro k' u
    rw [mem_update]
    exact tables.queued k' u
  · intro T
    refine (tables.bmap T).congr ?_
    intro p hp
    rw [occupied_update]
    by_cases here : T = k.table ∧ p = k.ucPriority
    · obtain ⟨rfl, rfl⟩ := here
      have mem : Occupied ring k.table k.ucPriority := ⟨hp, filled⟩
      simp [mem]
    · simp only [here, not_false_eq_true, true_and]
      constructor
      · exact Or.inr
      · rintro (⟨hT, hp, _⟩ | mem)
        · exact absurd ⟨hT, hp⟩ here
        · exact mem

theorem candTableNext_spec (tables : Tables G c s R ring) {k : Pcb} (filled : ring k ≠ []) :
    ∃ s' t ring', candTableNext s k = some (s', t) ∧ Tables G c s' R ring' ∧ t ∈ ring' k ∧
      s'.cpu = s.cpu := by
  have header := (tables.family.isRing k).header_eq
  obtain ⟨h, l, hl⟩ := List.exists_cons_of_ne_nil filled
  rw [hl, List.head?_cons] at header
  unfold candTableNext
  simp only [header]
  split
  next =>
    have refilled : Tables G c (s.setTcb h (fun x => { x with usSchedCounter := x.usSchedSlice })) R
        ring := by
      refine tables.congr ?_ rfl rfl rfl (fun _ => rfl) ?_ (fun _ => Iff.rfl)
      · intro u
        rw [← tables.status u]
        by_cases hu : u = h <;> simp [State.setTcb, hu]
      intro u
      by_cases hu : u = h <;> simp [State.setTcb, getPcb, getPcbEx, tableOf, hu]
    obtain ⟨t, ring', next, mem, turned⟩ := refilled.turn filled
    rw [show (s.setTcb h _).pringReadyHeader k = some h from header] at next
    refine ⟨_, t, ring', ?_, turned, mem, rfl⟩
    rw [show (s.setTcb h _).pringReadyHeader k = some h from header, next]
    rfl
  next =>
    refine ⟨s, h, ring, rfl, tables, ?_, rfl⟩
    rw [hl]
    simp

theorem candTableResel_spec (tables : Tables G c s R ring) {i : Nat} {k : Pcb}
    (slot : (s.cpu i).ptcbCand = none) (filled : ring k ≠ []) :
    ∃ s' ring', candTableResel c s i k = some s' ∧ Tables G c s' R ring' ∧
      ∀ j, j ≠ i → s'.cpu j = s.cpu j := by
  obtain ⟨s₁, t, ring₁, next, tables₁, mem, cpus⟩ := candTableNext_spec tables filled
  obtain ⟨member, idle, place⟩ := (tables₁.queued k t).mp mem
  obtain ⟨ring₂, left⟩ := tables₁.leave mem
  have slot₂ : (({ delTCBFromReadyRing s₁ t k with
      bmap := if pcbIsEmpty (delTCBFromReadyRing s₁ t k) k then (readyTableDel c s₁ t).bmap
        else s₁.bmap } : State).cpu i).ptcbCand = none := by
    change (s₁.cpu i).ptcbCand = none
    rw [cpus, slot]
  have placed := left.setCand (t := t) slot₂ (by simp)
  have value : candTableResel c s i k = some (setCand
      { delTCBFromReadyRing s₁ t k with
        bmap := if pcbIsEmpty (delTCBFromReadyRing s₁ t k) k then (readyTableDel c s₁ t).bmap
          else s₁.bmap } i t) := by
    have same : tableOf c ((setCand s₁ i t).tcb t) = tableOf c (s₁.tcb t) ∧
        ((setCand s₁ i t).tcb t).ucPriority = (s₁.tcb t).ucPriority := by
      simp [setCand, State.setTcb, State.setCpu, tableOf]
    have empty : pcbIsEmpty (delTCBFromReadyRing (setCand s₁ i t) t k) k =
        pcbIsEmpty (delTCBFromReadyRing s₁ t k) k := rfl
    simp only [candTableResel, next, Option.map_some, empty]
    split
    next => simp only [readyTableDel, delTCBFromReadyRing, State.setRing, same]; rfl
    next => rfl
  refine ⟨_, ring₂, value, placed.of_iff ?_, ?_⟩
  · intro u
    by_cases hu : u = t
    · simp [hu, member]
    · simp [hu]
  · intro j hj
    rw [← cpus]
    simp [setCand, State.setTcb, State.setCpu, delTCBFromReadyRing, State.setRing, hj]

theorem candTableSeek_spec (tables : Tables G c s R ring) {i : Nat} {k : Pcb}
    (found : candTableSeek c s i = some k) : ring k ≠ [] := by
  have high : ∀ T, bitmapIsEmpty (s.bmap T) = false → ring (tableHigh s T) ≠ [] := by
    intro T some
    obtain ⟨small, ⟨hp, filled⟩, _⟩ := (tables.bmap T).high_spec some
    have same : tableHigh s T = ⟨T, bitmapHigh (s.bmap T), hp⟩ := by
      simp [tableHigh, Fin.ext_iff, Nat.mod_eq_of_lt small]
    rw [same]
    exact filled
  unfold candTableSeek at found
  simp only [Bool.or_eq_true] at found
  split at found
  next =>
    split at found
    next =>
      split at found
      next => exact absurd found (by simp)
      next global =>
        rw [← Option.some.inj found]
        exact high _ (by simpa using (not_or.mp global).2)
    next own =>
      split at found
      next =>
        rw [← Option.some.inj found]
        exact high _ (by simpa using own)
      next global =>
        split at found
        next =>
          rw [← Option.some.inj found]
          exact high _ (by simpa using own)
        next =>
          rw [← Option.some.inj found]
          exact high _ (by simpa using (not_or.mp global).2)
  next =>
    split at found
    next => exact absurd found (by simp)
    next global =>
      rw [← Option.some.inj found]
      exact high _ (by simpa using global)

theorem candTableFill_spec (tables : Tables G c s R ring) {i : Nat} {s' : State}
    (slot : (s.cpu i).ptcbCand = none) (filled : candTableFill c s i = some s') :
    ∃ ring', Tables G c s' R ring' := by
  obtain ⟨k, found, resel⟩ := Option.bind_eq_some_iff.mp filled
  obtain ⟨s₁, ring', value, tables', _⟩ :=
    candTableResel_spec tables slot (candTableSeek_spec tables found)
  rw [value] at resel
  exact ⟨ring', Option.some.inj resel ▸ tables'⟩

end Candidates

section Moves

variable {s : State} {R : Nat → Prop} {ring : Pcb → List Nat}

def clearSlot (s : State) (i : Nat) : State := s.setCpu i (fun x => { x with ptcbCand := none })

theorem candTableFill_clearSlot (s : State) (i : Nat) :
    candTableFill c (clearSlot s i) i = candTableFill c s i := by
  have seek : candTableSeek c (clearSlot s i) i = candTableSeek c s i := by
    have affinity : ((clearSlot s i).cpu i).bOnlyAffinity = (s.cpu i).bOnlyAffinity := by
      simp [clearSlot, State.setCpu]
    unfold candTableSeek
    rw [affinity]
    rfl
  have slot : ∀ (s : State) (t : Nat), setCand (clearSlot s i) i t = setCand s i t := by
    intro s t
    simp [setCand, clearSlot, State.setCpu, State.setTcb]
  have next : ∀ k, candTableNext (clearSlot s i) k =
      (candTableNext s k).map (fun p => (clearSlot p.1 i, p.2)) := by
    intro k
    unfold candTableNext
    simp only [show (clearSlot s i).pringReadyHeader = s.pringReadyHeader from rfl,
      show (clearSlot s i).tcb = s.tcb from rfl]
    split
    next => rfl
    next h _ =>
      split
      next =>
        simp only [Option.map_map]
        rfl
      next => rfl
  simp only [candTableFill, seek]
  cases candTableSeek c s i with
  | none => rfl
  | some k =>
    simp only [Option.bind_some, candTableResel, next, Option.map_map]
    congr 1
    funext p
    simp only [Function.comp_apply, slot]

theorem delFromReadyRing_spec (tables : Tables G c s R ring) {t : Nat} {s' : State} (member : R t)
    (deleted : delFromReadyRing c s t (getPcb c s t) = some s') :
    ∃ ring', Tables G c s' (fun u => R u ∧ u ≠ t) ring' := by
  unfold delFromReadyRing at deleted
  cases flag : (s.tcb t).bIsCand with
  | true =>
    have here : (s.cpu (s.tcb t).ulCPUId).ptcbCand = some t := (tables.cand _ t).mpr ⟨flag, rfl⟩
    simp only [flag, if_true, candTableTryDel, here] at deleted
    rw [← candTableFill_clearSlot] at deleted
    obtain ⟨s₁, filled, rfl⟩ := Option.map_eq_some_iff.mp deleted
    have cleared : Tables G c (clearSlot (s.setTcb t (fun x => { x with bIsCand := false }))
        (s.tcb t).ulCPUId) (fun u => R u ∧ u ≠ t) ring := by
      refine tables.clearCand here rfl rfl rfl ?_ ?_ ?_ ?_
      · intro j
        by_cases h : j = (s.tcb t).ulCPUId <;>
          simp [clearSlot, State.setTcb, State.setCpu, h]
      · simp [clearSlot, State.setTcb, State.setCpu]
      · simp [clearSlot, State.setTcb, State.setCpu]
      · intro u hu
        simp [clearSlot, State.setTcb, State.setCpu, hu]
    obtain ⟨ring', tables'⟩ := candTableFill_spec cleared (by simp [clearSlot, State.setCpu]) filled
    exact ⟨ring', tables'.setRot _ _⟩
  | false =>
    have mem : t ∈ ring (getPcb c s t) := (tables.queued _ t).mpr ⟨member, flag, rfl⟩
    obtain ⟨ring', left⟩ := tables.leave mem
    have notCand : (s.cpu (s.tcb t).ulCPUId).ptcbCand ≠ some t := by
      intro e
      have := ((tables.cand _ t).mp e).1
      simp [flag] at this
    have other : ((delTCBFromReadyRing s t (getPcb c s t)).cpu
        ((delTCBFromReadyRing s t (getPcb c s t)).tcb t).ulCPUId).ptcbCand ≠ some t := notCand
    simp only [flag, Bool.false_eq_true, if_false, candTableTryDel, other] at deleted
    refine ⟨ring', ?_⟩
    split at deleted
    next empty =>
      simp only [empty, if_true] at left
      rw [← Option.some.inj deleted]
      exact left
    next some =>
      simp only [some] at left
      rw [← Option.some.inj deleted]
      exact left

theorem tryAddLower_spec (tables : Tables G c s R ring) {t : Nat} (out : ¬ R t) (cpus : List Nat) :
    ((tryAddLower s t cpus).2 = true ∧
      Tables G c (tryAddLower s t cpus).1 (fun u => R u ∨ u = t) ring) ∨
    ((tryAddLower s t cpus).2 = false ∧ Tables G c (tryAddLower s t cpus).1 R ring ∧
      (tryAddLower s t cpus).1.tcb = s.tcb) := by
  induction cpus generalizing s with
  | nil => exact Or.inr ⟨rfl, tables, rfl⟩
  | cons i rest ih =>
    unfold tryAddLower
    split
    next => exact ih tables
    next =>
      split
      next slot => exact Or.inl ⟨rfl, tables.setCand slot out⟩
      next =>
        split
        next => exact ih (tables.setRot i true)
        next => exact ih tables

theorem tryAddIdle_slot {s : State} {cpus : List Nat} {pcpuIdle : Option Nat} {i : Nat}
    (found : tryAddIdle c s cpus pcpuIdle = .slot i) : (s.cpu i).ptcbCand = none := by
  induction cpus generalizing pcpuIdle with
  | nil =>
    unfold tryAddIdle at found
    split at found <;> simp at found
  | cons j rest ih =>
    unfold tryAddIdle at found
    split at found
    next => exact ih found
    next =>
      split at found
      next slot =>
        have same : j = i := by simpa using found
        exact same ▸ slot
      next =>
        split at found
        next =>
          split at found
          next =>
            split at found
            next => simp at found
            next => exact ih found
          next => simp at found
        next => exact ih found

def Sought (G : Nat → Bool) (c : Config) (s : State) (R : Nat → Prop) (t : Nat) (r : State × Bool) : Prop :=
  (r.2 = true ∧ ∃ ring, Tables G c r.1 (fun u => R u ∨ u = t) ring) ∨
  (r.2 = false ∧ (∃ ring, Tables G c r.1 R ring) ∧ r.1.tcb = s.tcb)

theorem tryAddAny_spec (tables : Tables G c s R ring) {t : Nat} (out : ¬ R t) :
    Sought G c s R t (tryAddAny c s t) := by
  unfold tryAddAny
  split
  next i found => exact Or.inl ⟨rfl, ring, tables.setCand (tryAddIdle_slot found) out⟩
  next i _ => exact Or.inr ⟨rfl, ⟨ring, tables.setRot i true⟩, rfl⟩
  next =>
    rcases tryAddLower_spec tables out (cpuForeachActive c s) with ⟨placed, done⟩ |
      ⟨none, same, tcb⟩
    · exact Or.inl ⟨placed, ring, done⟩
    · exact Or.inr ⟨none, ⟨ring, same⟩, tcb⟩

theorem tryAddSmp_spec (tables : Tables G c s R ring) {t : Nat} (out : ¬ R t) :
    Sought G c s R t (tryAddSmp c s t) := by
  unfold tryAddSmp
  simp only
  split
  next =>
    split
    next => exact Or.inr ⟨rfl, ⟨ring, tables⟩, rfl⟩
    next =>
      split
      next slot => exact Or.inl ⟨rfl, ring, tables.setCand slot out⟩
      next =>
        split
        next => exact Or.inr ⟨rfl, ⟨ring, tables.setRot _ true⟩, rfl⟩
        next => exact Or.inr ⟨rfl, ⟨ring, tables⟩, rfl⟩
  next =>
    split
    next =>
      split
      next slot => exact Or.inl ⟨rfl, ring, tables.setCand slot out⟩
      next =>
        split
        next => exact Or.inr ⟨rfl, ⟨ring, tables.setRot _ true⟩, rfl⟩
        next => exact tryAddAny_spec tables out
    next => exact tryAddAny_spec tables out

theorem tryAddSingle_spec (tables : Tables G c s R ring) {t : Nat} (out : ¬ R t) :
    Sought G c s R t (tryAddSingle c s t) := by
  unfold tryAddSingle
  split
  next => exact Or.inr ⟨rfl, ⟨ring, tables⟩, rfl⟩
  next =>
    split
    next slot => exact Or.inl ⟨rfl, ring, tables.setCand slot out⟩
    next ptcbCand here =>
      split
      next =>
        split
        next => exact Or.inr ⟨rfl, ⟨ring, tables.setRot 0 true⟩, rfl⟩
        next =>
          obtain ⟨ring', emptied, slot, _⟩ := candTableEmpty_spec tables here
          exact Or.inl ⟨rfl, ring', emptied.setCand slot out⟩
      next => exact Or.inr ⟨rfl, ⟨ring, tables⟩, rfl⟩

theorem addToReadyRing_spec (tables : Tables G c s R ring) {t : Nat} (out : ¬ R t) :
    ∃ ring', Tables G c (addToReadyRing c s t (getPcb c s t)) (fun u => R u ∨ u = t) ring' := by
  have sought : Sought G c s R t (if c.smpEn then tryAddSmp c s t else tryAddSingle c s t) := by
    split
    · exact tryAddSmp_spec tables out
    · exact tryAddSingle_spec tables out
  unfold addToReadyRing candTableTryAdd
  generalize (if c.smpEn then tryAddSmp c s t else tryAddSingle c s t) = r at sought
  obtain ⟨s₁, placed⟩ := r
  rcases sought with ⟨yes, ring', done⟩ | ⟨no, ⟨ring', same⟩, tcb⟩
  · have hp : placed = true := yes
    subst hp
    exact ⟨ring', done⟩
  · have hp : placed = false := no
    subst hp
    have place : getPcb c s₁ t = getPcb c s t := by
      simp only [getPcb, getPcbEx, show s₁.tcb = s.tcb from tcb]
    obtain ⟨ring'', joined, _, _⟩ := same.join out false
    rw [place] at joined
    refine ⟨ring'', ?_⟩
    simp only
    have value : addTCBToReadyRing
        (if pcbIsEmpty s₁ (getPcb c s t) then readyTableAdd c s₁ t else s₁) t (getPcb c s t) false =
        { addTCBToReadyRing s₁ t (getPcb c s t) false with
          bmap := if pcbIsEmpty s₁ (getPcb c s t) then (readyTableAdd c s₁ t).bmap
            else s₁.bmap } := by
      split <;> rfl
    rw [value]
    exact joined

end Moves

section Operations

variable {s s' : State} {R : Nat → Prop} {ring : Pcb → List Nat}

theorem notifyLower_spec (tables : Tables G c s R ring) {t : Nat} {cpus : List Nat}
    (done : notifyLower s t cpus = some s') : Tables G c s' R ring := by
  induction cpus generalizing s with
  | nil => exact Option.some.inj done ▸ tables
  | cons i rest ih =>
    unfold notifyLower at done
    split at done
    next => exact ih tables done
    next =>
      split at done
      next => exact absurd done (by simp)
      next =>
        split at done
        next => exact ih (tables.setRot i true) done
        next => exact ih tables done

theorem candTableNotify_spec (tables : Tables G c s R ring) {i t : Nat}
    (done : candTableNotify c s i t = some s') : Tables G c s' R ring := by
  unfold candTableNotify at done
  split at done
  next => exact absurd done (by simp)
  next j _ => exact Option.some.inj done ▸ tables.setRot j true
  next => exact notifyLower_spec tables done

theorem candTableUpdate_spec (tables : Tables G c s R ring) {i : Nat}
    (done : candTableUpdate c s i = some s') : ∃ ring', Tables G c s' R ring' := by
  unfold candTableUpdate at done
  split at done
  next => exact ⟨ring, Option.some.inj done ▸ tables⟩
  next =>
    split at done
    next slot =>
      obtain ⟨s₁, filled, rfl⟩ := Option.map_eq_some_iff.mp done
      obtain ⟨ring', tables'⟩ := candTableFill_spec tables slot filled
      exact ⟨ring', tables'.setRot i false⟩
    next ptcbCand here =>
      split at done
      next => exact ⟨ring, Option.some.inj done ▸ tables.setRot i false⟩
      next ppcb found =>
        split at done
        next =>
          obtain ⟨ring₁, emptied, slot, grows⟩ := candTableEmpty_spec tables here
          have filled := grows ppcb (candTableSeek_spec tables found)
          obtain ⟨s₁, ring₂, value, tables₂, _⟩ := candTableResel_spec emptied slot filled
          rw [value, Option.bind_some] at done
          obtain ⟨s₂, notified, rfl⟩ := Option.map_eq_some_iff.mp done
          split at notified
          next => exact ⟨ring₂, (candTableNotify_spec tables₂ notified).setRot i false⟩
          next => exact ⟨ring₂, Option.some.inj notified ▸ tables₂.setRot i false⟩
        next => exact ⟨ring, Option.some.inj done ▸ tables.setRot i false⟩

theorem candTableRemove_spec (tables : Tables G c s R ring) (i : Nat) :
    ∃ ring', Tables G c (candTableRemove c s i) R ring' := by
  unfold candTableRemove
  split
  next => exact ⟨ring, tables⟩
  next =>
    split
    next => exact ⟨ring, tables⟩
    next t here =>
      obtain ⟨ring', emptied, _⟩ := candTableEmpty_spec tables here
      exact ⟨ring', emptied⟩

theorem Tables.setTcb (tables : Tables G c s R ring) (t : Nat) (f : Tcb → Tcb)
    {G' : Nat → Bool} (status : ∀ u, ((s.setTcb t f).tcb u).isReady = G' u)
    (flag : (f (s.tcb t)).bIsCand = (s.tcb t).bIsCand)
    (cpu : (f (s.tcb t)).ulCPUId = (s.tcb t).ulCPUId)
    (place : (s.tcb t).bIsCand = false → R t → tableOf c (f (s.tcb t)) = tableOf c (s.tcb t) ∧
      (f (s.tcb t)).ucPriority = (s.tcb t).ucPriority) {R' : Nat → Prop}
    (held : ∀ u, R' u ↔ R u) : Tables G' c (s.setTcb t f) R' ring := by
  refine tables.congr status rfl rfl rfl (fun _ => rfl) ?_ held
  intro u
  by_cases hu : u = t
  · subst hu
    refine ⟨by simpa [State.setTcb] using flag, by simpa [State.setTcb] using fun _ => cpu, ?_⟩
    intro idle member
    obtain ⟨table, prio⟩ := place idle member
    simp [getPcb, getPcbEx, State.setTcb, table, prio]
  · simp [State.setTcb, getPcb, getPcbEx, hu]

theorem delFromReadyRing_tcb {t : Nat} {k : Pcb} (idle : (s.tcb t).bIsCand = false)
    (notCand : (s.cpu (s.tcb t).ulCPUId).ptcbCand ≠ some t)
    (done : delFromReadyRing c s t k = some s') : s'.tcb = s.tcb := by
  have other : ((delTCBFromReadyRing s t k).cpu
      ((delTCBFromReadyRing s t k).tcb t).ulCPUId).ptcbCand ≠ some t := notCand
  simp only [delFromReadyRing, idle, Bool.false_eq_true, if_false, candTableTryDel, other] at done
  split at done
  next => exact Option.some.inj done ▸ rfl
  next => exact Option.some.inj done ▸ rfl

end Operations

end SylixOS.CandTable
