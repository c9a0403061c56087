import SylixOS.RamFsLib

/-! The son lists and father pointers of the directory tree. `TreeOk` says
that they describe each other; creating, deleting and moving nodes keep it. -/

namespace SylixOS.RamFs

variable {V : Volume}

def Volume.HasDir (V : Volume) : Option Nat → Prop
  | none => True
  | some d => d ∈ V.nodes ∧ (V.node d).kind = .dir

structure TreeOk (V : Volume) : Prop where
  nodup : V.nodes.Nodup
  hasDir : ∀ x ∈ V.nodes, V.HasDir (V.node x).father
  mem_sons : ∀ x ∈ V.nodes, x ∈ V.sonsOf (V.node x).father
  of_mem : ∀ d, V.HasDir d → ∀ x ∈ V.sonsOf d, x ∈ V.nodes ∧ (V.node x).father = d
  sons_nodup : ∀ d, V.HasDir d → (V.sonsOf d).Nodup

section Update

variable (V) (d : Option Nat) (sons : List Nat)

@[simp] theorem setSons_nodes : (V.setSons d sons).nodes = V.nodes := by
  cases d <;> rfl

@[simp] theorem setSons_store : (V.setSons d sons).store = V.store := by
  cases d <;> rfl

theorem setSons_node (x : Nat) :
    (V.setSons d sons).node x = { V.node x with sons := ((V.setSons d sons).node x).sons } := by
  cases d with
  | none => rfl
  | some d =>
    by_cases hx : x = d
    · subst hx
      simp [Volume.setSons]
    · simp [Volume.setSons, Function.update_of_ne hx]

@[simp] theorem setSons_father (x : Nat) : ((V.setSons d sons).node x).father = (V.node x).father := by
  rw [setSons_node]

@[simp] theorem setSons_kind (x : Nat) : ((V.setSons d sons).node x).kind = (V.node x).kind := by
  rw [setSons_node]

@[simp] theorem setSons_name (x : Nat) : ((V.setSons d sons).node x).name = (V.node x).name := by
  rw [setSons_node]

@[simp] theorem setSons_file (x : Nat) : ((V.setSons d sons).node x).file = (V.node x).file := by
  rw [setSons_node]

theorem setSons_sonsOf (d' : Option Nat) :
    (V.setSons d sons).sonsOf d' = if d' = d then sons else V.sonsOf d' := by
  cases d with
  | none =>
    cases d' with
    | none => rfl
    | some d' => rfl
  | some d =>
    cases d' with
    | none => rfl
    | some d' =>
      by_cases h : d' = d
      · subst h
        simp [Volume.setSons, Volume.sonsOf]
      · simp [Volume.setSons, Volume.sonsOf, h]

variable (id : Nat) (father : Option Nat) (name : List Char)

@[simp] theorem setFather_sonsOf (d' : Option Nat) : (V.setFather id father).sonsOf d' = V.sonsOf d' := by
  cases d' with
  | none => rfl
  | some d' =>
    by_cases h : d' = id
    · simp [Volume.setFather, Volume.sonsOf, h]
    · simp [Volume.setFather, Volume.sonsOf, h]

@[simp] theorem setName_sonsOf (d' : Option Nat) : (V.setName id name).sonsOf d' = V.sonsOf d' := by
  cases d' with
  | none => rfl
  | some d' =>
    by_cases h : d' = id
    · simp [Volume.setName, Volume.sonsOf, h]
    · simp [Volume.setName, Volume.sonsOf, h]

end Update

structure SameTree (V V' : Volume) : Prop where
  nodes : V'.nodes = V.nodes
  son : V'.son = V.son
  father : ∀ x, (V'.node x).father = (V.node x).father
  kind : ∀ x, (V'.node x).kind = (V.node x).kind
  sons : ∀ x, (V'.node x).sons = (V.node x).sons

theorem SameTree.sonsOf {V V' : Volume} (h : SameTree V V') (d : Option Nat) :
    V'.sonsOf d = V.sonsOf d := by
  cases d with
  | none => exact h.son
  | some d => exact h.sons d

theorem SameTree.hasDir {V V' : Volume} (h : SameTree V V') (d : Option Nat) :
    V'.HasDir d ↔ V.HasDir d := by
  cases d with
  | none => exact Iff.rfl
  | some d => simp only [Volume.HasDir, h.nodes, h.kind]

theorem SameTree.treeOk {V V' : Volume} (h : SameTree V V') (hV : TreeOk V) : TreeOk V' where
  nodup := by
    rw [h.nodes]
    exact hV.nodup
  hasDir := by
    intro x hx
    rw [h.nodes] at hx
    rw [h.father, h.hasDir]
    exact hV.hasDir x hx
  mem_sons := by
    intro x hx
    rw [h.nodes] at hx
    rw [h.father, h.sonsOf]
    exact hV.mem_sons x hx
  of_mem := by
    intro d hd x hx
    rw [h.hasDir] at hd
    rw [h.sonsOf] at hx
    rw [h.nodes, h.father]
    exact hV.of_mem d hd x hx
  sons_nodup := by
    intro d hd
    rw [h.hasDir] at hd
    rw [h.sonsOf]
    exact hV.sons_nodup d hd

theorem sameTree_setFile (V : Volume) (id : Nat) (r : Store × File) : SameTree V (V.setFile id r) := by
  refine ⟨rfl, rfl, ?_, ?_, ?_⟩
  all_goals
    intro x
    by_cases hx : x = id
    · subst hx
      simp [Volume.setFile]
    · simp [Volume.setFile, Function.update_of_ne hx]

theorem TreeOk.not_father (hV : TreeOk V) {x y : Nat} (hy : y ∈ V.nodes)
    (hsons : (V.node x).sons = []) : (V.node y).father ≠ some x := by
  intro hf
  have hmem := hV.mem_sons y hy
  rw [hf] at hmem
  have hnil : V.sonsOf (some x) = [] := hsons
  rw [hnil] at hmem
  cases hmem

theorem TreeOk.no_sons (hV : TreeOk V) {x : Nat}
    (hdel : ¬ ((V.node x).kind = .dir ∧ (V.node x).sons ≠ [])) :
    ∀ y ∈ V.nodes, (V.node y).father ≠ some x := by
  intro y hy hf
  have hdir := hV.hasDir y hy
  rw [hf] at hdir
  by_cases hsons : (V.node x).sons = []
  · exact hV.not_father hy hsons hf
  · exact hdel ⟨hdir.2, hsons⟩

theorem openFrom_spec (hV : TreeOk V) (path : List (List Char)) {father : Option Nat}
    (hf : V.HasDir father) :
    V.HasDir (openFrom V father path).father ∧
      ∀ x, (openFrom V father path).node = some x →
        x ∈ V.nodes ∧ (openFrom V father path).father = (V.node x).father := by
  induction path generalizing father with
  | nil => exact ⟨hf, fun x hx => nomatch hx⟩
  | cons pcNode rest ih =>
    rw [openFrom]
    cases hfind : (V.sonsOf father).find? fun id => (V.node id).name = pcNode with
    | none => exact ⟨hf, fun x hx => nomatch hx⟩
    | some id =>
      have hmem := List.mem_of_find?_eq_some hfind
      have hid := hV.of_mem father hf id hmem
      have hfound : V.HasDir (V.node id).father ∧ ∀ x, some id = some x →
          x ∈ V.nodes ∧ (V.node id).father = (V.node x).father := by
        refine ⟨by rw [hid.2]; exact hf, ?_⟩
        rintro x ⟨⟩
        exact ⟨hid.1, rfl⟩
      cases hkind : (V.node id).kind with
      | lnk =>
        simp only [hkind]
        exact hfound
      | dir =>
        have hdir : V.HasDir (some id) := ⟨hid.1, hkind⟩
        simp only [hkind]
        split
        · exact hfound
        · exact ih hdir
      | file =>
        simp only [hkind]
        split
        · exact hfound
        · exact ⟨hf, fun x hx => nomatch hx⟩

theorem ramOpen_spec (hV : TreeOk V) (pcName : List Char) :
    V.HasDir (ramOpen V pcName).father ∧
      ∀ x, (ramOpen V pcName).node = some x →
        x ∈ V.nodes ∧ (ramOpen V pcName).father = (V.node x).father := by
  rw [ramOpen]
  split
  · exact ⟨trivial, fun x hx => nomatch hx⟩
  · exact openFrom_spec hV _ trivial

section Maken

variable {pcName pcLink : List Char} {father : Option Nat} {kind : Kind} {new : Nat}

theorem ramMaken_nodes :
    (ramMaken V pcName father kind pcLink (some new)).2.nodes = new :: V.nodes := by
  simp [ramMaken]

theorem ramMaken_store : (ramMaken V pcName father kind pcLink (some new)).2.store = V.store := by
  simp [ramMaken]

theorem ramMaken_new :
    ((ramMaken V pcName father kind pcLink (some new)).2.node new).name = fileName pcName ∧
      ((ramMaken V pcName father kind pcLink (some new)).2.node new).kind = kind ∧
      ((ramMaken V pcName father kind pcLink (some new)).2.node new).father = father ∧
      ((ramMaken V pcName father kind pcLink (some new)).2.node new).file = emptyFile := by
  simp [ramMaken]

theorem ramMaken_old {x : Nat} (hx : x ≠ new) :
    ((ramMaken V pcName father kind pcLink (some new)).2.node x).name = (V.node x).name ∧
      ((ramMaken V pcName father kind pcLink (some new)).2.node x).kind = (V.node x).kind ∧
      ((ramMaken V pcName father kind pcLink (some new)).2.node x).father = (V.node x).father ∧
      ((ramMaken V pcName father kind pcLink (some new)).2.node x).file = (V.node x).file := by
  simp [ramMaken, hx]

theorem ramMaken_sonsOf (hf : father ≠ some new) (d : Option Nat) :
    (ramMaken V pcName father kind pcLink (some new)).2.sonsOf d =
      if d = father then new :: V.sonsOf father else if d = some new then [] else V.sonsOf d := by
  have hin : ∀ d : Option Nat, ({ V with
      node := Function.update V.node new
        { name := fileName pcName, link := if kind = Kind.lnk then pcLink else [], kind := kind
          father := father, sons := [], file := emptyFile }
      nodes := new :: V.nodes } : Volume).sonsOf d = if d = some new then [] else V.sonsOf d := by
    intro d
    cases d with
    | none => rfl
    | some d =>
      by_cases hd : d = new
      · simp [Volume.sonsOf, hd]
      · simp [Volume.sonsOf, hd]
  simp only [ramMaken, setSons_sonsOf, hin, if_neg hf]

theorem ramMaken_hasDir (hnew : new ∉ V.nodes) (d : Option Nat) :
    (ramMaken V pcName father kind pcLink (some new)).2.HasDir d ↔
      V.HasDir d ∨ (d = some new ∧ kind = .dir) := by
  cases d with
  | none => simp [Volume.HasDir]
  | some d =>
    simp only [Volume.HasDir, ramMaken_nodes, List.mem_cons]
    by_cases hd : d = new
    · subst hd
      rw [ramMaken_new.2.1]
      simp [hnew]
    · rw [(ramMaken_old hd).2.1]
      simp [hd]

theorem TreeOk.maken (hV : TreeOk V) (hf : V.HasDir father) (hnew : new ∉ V.nodes) :
    TreeOk (ramMaken V pcName father kind pcLink (some new)).2 := by
  have hne : father ≠ some new := by
    rintro rfl
    exact hnew hf.1
  have hold : ∀ d, V.HasDir d → d ≠ some new := by
    rintro d hd rfl
    exact hnew hd.1
  refine ⟨?_, ?_, ?_, ?_, ?_⟩
  · rw [ramMaken_nodes]
    exact List.nodup_cons.mpr ⟨hnew, hV.nodup⟩
  · intro x hx
    rw [ramMaken_nodes, List.mem_cons] at hx
    rw [ramMaken_hasDir hnew]
    by_cases hxn : x = new
    · rw [hxn, ramMaken_new.2.2.1]
      exact Or.inl hf
    · rw [(ramMaken_old hxn).2.2.1]
      exact Or.inl (hV.hasDir x (hx.resolve_left hxn))
  · intro x hx
    rw [ramMaken_nodes, List.mem_cons] at hx
    rw [ramMaken_sonsOf hne]
    by_cases hxn : x = new
    · rw [hxn, ramMaken_new.2.2.1, if_pos rfl]
      exact List.mem_cons_self
    · have hx' := hx.resolve_left hxn
      rw [(ramMaken_old hxn).2.2.1]
      have hmem := hV.mem_sons x hx'
      split
      · rename_i heq
        rw [heq] at hmem
        exact List.mem_cons_of_mem _ hmem
      · rw [if_neg (hold _ (hV.hasDir x hx'))]
        exact hmem
  · intro d hd x hx
    rw [ramMaken_hasDir hnew] at hd
    rw [ramMaken_sonsOf hne] at hx
    rw [ramMaken_nodes, List.mem_cons]
    have hsame : ∀ y ∈ V.nodes, ((ramMaken V pcName father kind pcLink (some new)).2.node y).father =
        (V.node y).father := by
      intro y hy
      have hyn : y ≠ new := fun e => hnew (e ▸ hy)
      exact (ramMaken_old hyn).2.2.1
    split at hx
    · rename_i heq
      subst heq
      rcases List.mem_cons.mp hx with rfl | hx
      · exact ⟨Or.inl rfl, ramMaken_new.2.2.1⟩
      · have hold' := hV.of_mem d hf x hx
        exact ⟨Or.inr hold'.1, (hsame x hold'.1).trans hold'.2⟩
    · split at hx
      · cases hx
      · rename_i hdn
        have hd' : V.HasDir d := hd.resolve_right fun h => hdn h.1
        have hold' := hV.of_mem d hd' x hx
        exact ⟨Or.inr hold'.1, (hsame x hold'.1).trans hold'.2⟩
  · intro d hd
    rw [ramMaken_hasDir hnew] at hd
    rw [ramMaken_sonsOf hne]
    split
    · exact List.nodup_cons.mpr ⟨fun hm => hnew (hV.of_mem father hf new hm).1,
        hV.sons_nodup father hf⟩
    · split
      · exact List.nodup_nil
      · rename_i hdn
        exact hV.sons_nodup d (hd.resolve_right fun h => hdn h.1)

end Maken

section Unlink

variable {id : Nat}

theorem ramUnlink_fail (h : (V.node id).kind = .dir ∧ (V.node id).sons ≠ []) :
    ramUnlink V id = (false, V) := if_pos h

theorem ramUnlink_eq (h : ¬ ((V.node id).kind = .dir ∧ (V.node id).sons ≠ [])) :
    ∃ r, ramUnlink V id = (true,
      { (V.setSons (V.node id).father ((V.sonsOf (V.node id).father).erase id)).setFile id r with
        nodes := V.nodes.erase id }) ∧
      r = unlinkFree (V.store.live.card + 1) V.store (V.node id).file := by
  refine ⟨_, ?_, rfl⟩
  rw [ramUnlink, if_neg h]
  simp [Volume.setFile]

theorem ramUnlink_spec (h : ¬ ((V.node id).kind = .dir ∧ (V.node id).sons ≠ [])) :
    (ramUnlink V id).1 = true ∧ (ramUnlink V id).2.nodes = V.nodes.erase id ∧
      (∀ d, (ramUnlink V id).2.sonsOf d =
        if d = (V.node id).father then (V.sonsOf d).erase id else V.sonsOf d) ∧
      (∀ x, ((ramUnlink V id).2.node x).father = (V.node x).father) ∧
      (∀ x, ((ramUnlink V id).2.node x).kind = (V.node x).kind) ∧
      (∀ x, ((ramUnlink V id).2.node x).name = (V.node x).name) ∧
      (∀ x, x ≠ id → ((ramUnlink V id).2.node x).file = (V.node x).file) ∧
      (ramUnlink V id).2.store =
        (unlinkFree (V.store.live.card + 1) V.store (V.node id).file).1 := by
  obtain ⟨r, heq, hr⟩ := ramUnlink_eq h
  have htree := sameTree_setFile
    (V.setSons (V.node id).father ((V.sonsOf (V.node id).father).erase id)) id r
  rw [heq]
  refine ⟨rfl, rfl, ?_, ?_, ?_, ?_, ?_, ?_⟩
  · intro d
    have hsons : ({ (V.setSons (V.node id).father ((V.sonsOf (V.node id).father).erase id)).setFile
        id r with nodes := V.nodes.erase id } : Volume).sonsOf d =
        ((V.setSons (V.node id).father ((V.sonsOf (V.node id).father).erase id)).setFile
          id r).sonsOf d := by cases d <;> rfl
    dsimp only
    rw [hsons, htree.sonsOf, setSons_sonsOf]
    split
    · rename_i hd
      rw [hd]
    · rfl
  · intro x
    dsimp only
    rw [htree.father, setSons_father]
  · intro x
    dsimp only
    rw [htree.kind, setSons_kind]
  · intro x
    by_cases hx : x = id
    · subst hx
      simp [Volume.setFile]
    · simp [Volume.setFile, hx]
  · intro x hx
    simp [Volume.setFile, hx]
  · rw [← hr]
    rfl

theorem TreeOk.unlink (hV : TreeOk V) (hid : id ∈ V.nodes) : TreeOk (ramUnlink V id).2 := by
  by_cases hdel : (V.node id).kind = .dir ∧ (V.node id).sons ≠ []
  · rw [ramUnlink_fail hdel]
    exact hV
  obtain ⟨-, hnodes, hsons, hfather, hkind, -, -, -⟩ := ramUnlink_spec hdel
  have hno := hV.no_sons hdel
  have hmem : ∀ x, x ∈ (ramUnlink V id).2.nodes ↔ x ≠ id ∧ x ∈ V.nodes := by
    intro x
    rw [hnodes, hV.nodup.mem_erase_iff]
  have hdir : ∀ d, (ramUnlink V id).2.HasDir d → V.HasDir d := by
    intro d hd
    cases d with
    | none => trivial
    | some d => exact ⟨((hmem d).mp hd.1).2, (hkind d).symm.trans hd.2⟩
  refine ⟨?_, ?_, ?_, ?_, ?_⟩
  · rw [hnodes]
    exact hV.nodup.erase id
  · intro x hx
    have hx' := (hmem x).mp hx
    rw [hfather]
    have hold := hV.hasDir x hx'.2
    cases hd : (V.node x).father with
    | none => trivial
    | some d =>
      rw [hd] at hold
      have hne : d ≠ id := by
        rintro rfl
        exact hno x hx'.2 hd
      exact ⟨(hmem d).mpr ⟨hne, hold.1⟩, (hkind d).trans hold.2⟩
  · intro x hx
    have hx' := (hmem x).mp hx
    rw [hfather, hsons]
    have hold := hV.mem_sons x hx'.2
    split
    · exact (List.mem_erase_of_ne hx'.1).mpr hold
    · exact hold
  · intro d hd x hx
    have hd' := hdir d hd
    rw [hsons] at hx
    rw [hmem, hfather]
    split at hx
    · have hx' := ((hV.sons_nodup d hd').mem_erase_iff).mp hx
      have hold := hV.of_mem d hd' x hx'.2
      exact ⟨⟨hx'.1, hold.1⟩, hold.2⟩
    · rename_i hne
      have hold := hV.of_mem d hd' x hx
      refine ⟨⟨?_, hold.1⟩, hold.2⟩
      rintro rfl
      exact hne hold.2.symm
  · intro d hd
    rw [hsons]
    split
    · exact (hV.sons_nodup d (hdir d hd)).erase id
    · exact hV.sons_nodup d (hdir d hd)

end Unlink

section Move

variable {id : Nat} {newFather : Option Nat} {name : List Char}

variable (V id newFather name) in
theorem relocate_spec :
    (relocate V id newFather name).nodes = V.nodes ∧
      (relocate V id newFather name).store = V.store ∧
      (∀ d, (relocate V id newFather name).sonsOf d =
        if (V.node id).father = newFather then V.sonsOf d
        else if d = newFather then id :: V.sonsOf d
        else if d = (V.node id).father then (V.sonsOf d).erase id else V.sonsOf d) ∧
      (∀ x, ((relocate V id newFather name).node x).father =
        if x = id then newFather else (V.node x).father) ∧
      (∀ x, ((relocate V id newFather name).node x).kind = (V.node x).kind) ∧
      (∀ x, ((relocate V id newFather name).node x).name =
        if x = id then name else (V.node x).name) ∧
      (∀ x, ((relocate V id newFather name).node x).file = (V.node x).file) := by
  by_cases hsame : (V.node id).father = newFather
  · have heq : relocate V id newFather name = V.setName id name := by
      simp only [relocate, hsame, ne_eq, not_true_eq_false, if_false]
    rw [heq]
    refine ⟨rfl, rfl, ?_, ?_, ?_, ?_, ?_⟩
    · intro d
      rw [if_pos hsame, setName_sonsOf]
    all_goals
      intro x
      by_cases hx : x = id
      · subst hx
        simp [Volume.setName, hsame]
      · simp [Volume.setName, hx]
  · refine ⟨?_, ?_, ?_, ?_, ?_, ?_, ?_⟩
    · simp [relocate, hsame, Volume.setName, Volume.setFather]
    · simp [relocate, hsame, Volume.setName, Volume.setFather]
    · intro d
      rw [if_neg hsame]
      simp only [relocate, ne_eq, hsame, not_false_eq_true, if_true]
      rw [setName_sonsOf, setFather_sonsOf, setSons_sonsOf, setSons_sonsOf, setSons_sonsOf,
        if_neg (Ne.symm hsame)]
      split
      · rename_i hd
        rw [hd]
      · split
        · rename_i hd
          rw [hd]
        · rfl
    all_goals
      intro x
      by_cases hx : x = id
      · subst hx
        simp [relocate, hsame, Volume.setName, Volume.setFather]
      · simp [relocate, hsame, hx, Volume.setName, Volume.setFather]

theorem TreeOk.relocate (hV : TreeOk V) (hid : id ∈ V.nodes) (hf : V.HasDir newFather) :
    TreeOk (relocate V id newFather name) := by
  obtain ⟨hnodes, -, hsons, hfather, hkind, -, -⟩ := relocate_spec V id newFather name
  have hdir : ∀ d, (RamFs.relocate V id newFather name).HasDir d ↔ V.HasDir d := by
    intro d
    cases d with
    | none => exact Iff.rfl
    | some d => simp only [Volume.HasDir, hnodes, hkind]
  have hold := hV.hasDir id hid
  by_cases hsame : (V.node id).father = newFather
  · -- only the name changes
    have hfather' : ∀ x, ((RamFs.relocate V id newFather name).node x).father = (V.node x).father := by
      intro x
      rw [hfather]
      split
      · rename_i hx
        rw [hx, hsame]
      · rfl
    simp only [if_pos hsame] at hsons
    refine ⟨by rw [hnodes]; exact hV.nodup, ?_, ?_, ?_, ?_⟩
    · intro x hx
      rw [hnodes] at hx
      rw [hfather', hdir]
      exact hV.hasDir x hx
    · intro x hx
      rw [hnodes] at hx
      rw [hfather', hsons]
      exact hV.mem_sons x hx
    · intro d hd x hx
      rw [hdir] at hd
      rw [hsons] at hx
      rw [hnodes, hfather']
      exact hV.of_mem d hd x hx
    · intro d hd
      rw [hdir] at hd
      rw [hsons]
      exact hV.sons_nodup d hd
  · simp only [if_neg hsame] at hsons
    refine ⟨by rw [hnodes]; exact hV.nodup, ?_, ?_, ?_, ?_⟩
    · intro x hx
      rw [hnodes] at hx
      rw [hfather, hdir]
      split
      · exact hf
      · exact hV.hasDir x hx
    · intro x hx
      rw [hnodes] at hx
      rw [hfather, hsons]
      by_cases hxi : x = id
      · rw [if_pos hxi, if_pos rfl, hxi]
        exact List.mem_cons_self
      · rw [if_neg hxi]
        have hmem := hV.mem_sons x hx
        split
        · exact List.mem_cons_of_mem _ hmem
        · split
          · exact (List.mem_erase_of_ne hxi).mpr hmem
          · exact hmem
    · intro d hd x hx
      rw [hdir] at hd
      rw [hsons] at hx
      rw [hnodes, hfather]
      split at hx
      · rename_i hdn
        rcases List.mem_cons.mp hx with rfl | hx
        · rw [if_pos rfl]
          exact ⟨hid, hdn.symm⟩
        · have hin := hV.of_mem d hd x hx
          have hxi : x ≠ id := by
            rintro rfl
            exact hsame (hin.2.trans hdn)
          rw [if_neg hxi]
          exact hin
      · split at hx
        · have hx' := ((hV.sons_nodup d hd).mem_erase_iff).mp hx
          rw [if_neg hx'.1]
          exact hV.of_mem d hd x hx'.2
        · rename_i hdf
          have hin := hV.of_mem d hd x hx
          have hxi : x ≠ id := by
            rintro rfl
            exact hdf hin.2.symm
          rw [if_neg hxi]
          exact hin
    · intro d hd
      rw [hdir] at hd
      rw [hsons]
      split
      · rename_i hdn
        refine List.nodup_cons.mpr ⟨?_, hV.sons_nodup d hd⟩
        intro hm
        exact hsame ((hV.of_mem d hd id hm).2.trans hdn)
      · split
        · exact (hV.sons_nodup d hd).erase id
        · exact hV.sons_nodup d hd

theorem ramMove_cases (hV : TreeOk V) (hid : id ∈ V.nodes) (pcNewName : List Char) (bAlloc : Bool) :
    (ramMove V id pcNewName bAlloc).2 = V ∨
      ((ramOpen V pcNewName).node = none ∧ (ramMove V id pcNewName bAlloc).2 =
        RamFs.relocate V id (ramOpen V pcNewName).father (fileName pcNewName)) ∨
      ∃ temp, (ramOpen V pcNewName).node = some temp ∧ temp ≠ id ∧ temp ∈ V.nodes ∧
        ¬ ((V.node temp).kind = .dir ∧ (V.node temp).sons ≠ []) ∧
        (ramMove V id pcNewName bAlloc).2 =
          RamFs.relocate (ramUnlink V temp).2 id (ramOpen V pcNewName).father (fileName pcNewName) := by
  have hopen := ramOpen_spec hV pcNewName
  rw [ramMove]
  split
  · exact Or.inl rfl
  split
  · exact Or.inl rfl
  rename_i hne
  split
  · exact Or.inl rfl
  split
  · exact Or.inl rfl
  cases hnode : (ramOpen V pcNewName).node with
  | none => exact Or.inr (Or.inl ⟨rfl, rfl⟩)
  | some temp =>
    dsimp only
    split
    · exact Or.inl rfl
    split
    · exact Or.inl rfl
    by_cases hdel : (V.node temp).kind = .dir ∧ (V.node temp).sons ≠ []
    · rw [ramUnlink_fail hdel]
      exact Or.inl rfl
    · have hok := (ramUnlink_spec hdel).1
      refine Or.inr (Or.inr ⟨temp, rfl, ?_, (hopen.2 temp hnode).1, hdel, ?_⟩)
      · rintro rfl
        exact hne hnode
      · rw [show ramUnlink V temp = (true, (ramUnlink V temp).2) by rw [← hok]]

theorem hasDir_unlink (hV : TreeOk V) {temp : Nat} (htemp : temp ∈ V.nodes)
    (hdel : ¬ ((V.node temp).kind = .dir ∧ (V.node temp).sons ≠ [])) {d : Option Nat}
    (hd : V.HasDir d) (hfather : (V.node temp).father = d) : (ramUnlink V temp).2.HasDir d := by
  obtain ⟨-, hnodes, -, -, hkind, -, -, -⟩ := ramUnlink_spec hdel
  cases d with
  | none => trivial
  | some d =>
    have hne : d ≠ temp := by
      rintro rfl
      exact hV.no_sons hdel d htemp hfather
    refine ⟨?_, (hkind d).trans hd.2⟩
    rw [hnodes]
    exact (List.mem_erase_of_ne hne).mpr hd.1

theorem TreeOk.move (hV : TreeOk V) (hid : id ∈ V.nodes) (pcNewName : List Char) (bAlloc : Bool) :
    TreeOk (ramMove V id pcNewName bAlloc).2 := by
  obtain ⟨hdir, hfound⟩ := ramOpen_spec hV pcNewName
  rcases ramMove_cases hV hid pcNewName bAlloc with h | ⟨-, h⟩ | ⟨temp, hnode, hne, htemp, hdel, h⟩
  · rw [h]
    exact hV
  · rw [h]
    exact hV.relocate hid hdir
  · rw [h]
    apply (hV.unlink htemp).relocate
    · rw [(ramUnlink_spec hdel).2.1]
      exact (List.mem_erase_of_ne hne.symm).mpr hid
    · exact hasDir_unlink hV htemp hdel hdir (hfound temp hnode).2.symm

end Move

end SylixOS.RamFs
