import SylixOS.RamFsBlocks
import SylixOS.RamFsTree

/-! The block lists of all files of a volume, over every sequence of
operations. `BlockListsOk` is what holds between operations; the invariant
that carries it adds that no block is in two lists. -/

namespace SylixOS.RamFs
open SylixOS.ByteBuffer SylixOS.LinkedChain SylixOS.ListLink Function

variable (c : Config)

inductive Op where
  | maken (pcName : List Char) (father : Option Nat) (kind : Kind) (pcLink : List Char)
      (new : Option Nat)
  | write (id : Nat) (src : Bytes) (stNBytes stOft : Nat) (alloc : Alloc)
  | read (id stSize stOft : Nat)
  | truncate (id stOft : Nat)
  | increase (id stNewSize : Nat)
  | move (id : Nat) (pcNewName : List Char) (bAlloc : Bool)
  | unlink (id : Nat)

def apply (V : Volume) : Op → Volume
  | .maken pcName father kind pcLink new => (ramMaken V pcName father kind pcLink new).2
  | .write id src stNBytes stOft alloc =>
    V.setFile id (ramWrite c V.store (V.node id).file src stNBytes stOft alloc).2
  | .read id stSize stOft =>
    V.setFile id (V.store, (ramRead c V.store (V.node id).file stSize stOft).2)
  | .truncate id stOft => V.setFile id (ramTruncate c V.store (V.node id).file stOft)
  | .increase id stNewSize => V.setFile id (V.store, ramIncrease (V.node id).file stNewSize)
  | .move id pcNewName bAlloc => (ramMove V id pcNewName bAlloc).2
  | .unlink id => (ramUnlink V id).2

/-- A call as the callers make it: on a node of the volume, with offsets and sizes that are
`size_t`, and with memory that is not in use. -/
def Legal (V : Volume) : Op → Prop
  | .maken _ father _ _ new => V.HasDir father ∧ ∀ i, new = some i → i ∉ V.nodes
  | .write id _ stNBytes stOft alloc =>
    id ∈ V.nodes ∧ stNBytes < 2 ^ c.word ∧ stOft < 2 ^ c.word ∧ FreshAlloc c alloc V.store.live
  | .read id _ stOft => id ∈ V.nodes ∧ stOft < 2 ^ c.word
  | .truncate id stOft => id ∈ V.nodes ∧ stOft < 2 ^ c.word
  | .increase id stNewSize => id ∈ V.nodes ∧ stNewSize < 2 ^ c.word
  | .move id _ _ => id ∈ V.nodes
  | .unlink id => id ∈ V.nodes

def CutOk (V : Volume) : Op → Prop
  | .truncate id stOft => CutsAtEnd c (V.node id).file.cnt stOft
  | _ => True

def mounted (maxBlk : Nat) : Volume :=
  { node := fun _ => ⟨[], [], .file, none, [], emptyFile⟩, nodes := [], son := []
    store := { links := ⟨fun _ => none, fun _ => none⟩, data := fun _ _ => 0, live := ∅
               curBlk := 0, maxBlk := maxBlk } }

def run (V : Volume) : List Op → Volume
  | [] => V
  | op :: ops => run (apply c V op) ops

def EachStep (P : Volume → Op → Prop) (V : Volume) : List Op → Prop
  | [] => True
  | op :: ops => P V op ∧ EachStep P (apply c V op) ops

/-- Every file is a line of live blocks with its fields right, and the number of blocks in use is
the sum over the files and within its limit. -/
def BlockListsOk (V : Volume) : Prop :=
  (∀ x ∈ V.nodes, ∃ l, Chained V.store (V.node x).file l) ∧
    V.store.curBlk = (V.nodes.map fun x => (V.node x).file.cnt).sum ∧
    V.store.curBlk ≤ V.store.maxBlk

structure BlocksInv (V : Volume) (blocks : Nat → List Nat) : Prop where
  tree : TreeOk V
  store : StoreOk c V.store
  chained : ∀ x ∈ V.nodes, Chained V.store (V.node x).file (blocks x)
  disjoint : ∀ x ∈ V.nodes, ∀ y ∈ V.nodes, ∀ b ∈ blocks x, b ∈ blocks y → x = y
  cur : V.store.curBlk = (V.nodes.map fun x => (V.node x).file.cnt).sum

variable {c} {V : Volume} {blocks : Nat → List Nat}

theorem BlocksInv.blockListsOk (h : BlocksInv c V blocks) : BlockListsOk V :=
  ⟨fun x hx => ⟨blocks x, h.chained x hx⟩, h.cur, h.store.max⟩

theorem sum_change {nodes : List Nat} (hnodup : nodes.Nodup) {x : Nat} (hx : x ∈ nodes)
    (g g' : Nat → Nat) (hsame : ∀ y, y ≠ x → g' y = g y) :
    (nodes.map g').sum + g x = (nodes.map g).sum + g' x := by
  induction nodes with
  | nil => cases hx
  | cons a nodes ih =>
    rw [List.nodup_cons] at hnodup
    rw [List.map_cons, List.map_cons, List.sum_cons, List.sum_cons]
    rcases List.mem_cons.mp hx with rfl | hx
    · have hrest : nodes.map g' = nodes.map g := by
        apply List.map_congr_left
        intro y hy
        exact hsame y fun e => hnodup.1 (e ▸ hy)
      rw [hrest]
      omega
    · have hax : a ≠ x := fun e => hnodup.1 (e ▸ hx)
      have := ih hnodup.2 hx
      rw [hsame a hax]
      omega

theorem Touches.chained_other {s s' : Store} {f f' f₂ : File} {l l' l₂ : List Nat}
    (h : Touches s f l s' f' l') (h₂ : Chained s f₂ l₂) (hdisj : ∀ b ∈ l₂, b ∉ l) :
    Chained s' f₂ l₂ where
  line := ⟨h₂.line.nodup, h₂.line.linked.congr fun x hx => h.links x (h₂.live x hx) (hdisj x hx)⟩
  start := h₂.start
  last := h₂.last
  cnt := h₂.cnt
  live := fun b hb => h.live b (h₂.live b hb) (hdisj b hb)
  cookie := h₂.cookie

theorem BlocksInv.setFile (h : BlocksInv c V blocks) {id : Nat} (hid : id ∈ V.nodes)
    {r : Store × File} {l' : List Nat}
    (htouch : Touches V.store (V.node id).file (blocks id) r.1 r.2 l') (hstore : StoreOk c r.1) :
    BlocksInv c (V.setFile id r) (update blocks id l') := by
  have hfile : ((V.setFile id r).node id).file = r.2 := by simp [Volume.setFile]
  have hother : ∀ x, x ≠ id → ((V.setFile id r).node x).file = (V.node x).file := by
    intro x hx
    simp [Volume.setFile, hx]
  have hapart : ∀ x ∈ V.nodes, x ≠ id → ∀ b ∈ blocks x, b ∉ blocks id := by
    intro x hx hne b hb hb'
    exact hne (h.disjoint x hx id hid b hb hb')
  have hnew : ∀ x ∈ V.nodes, x ≠ id → ∀ b ∈ blocks x, b ∉ l' := by
    intro x hx hne b hb hb'
    rcases htouch.fresh b hb' with hin | hout
    · exact hapart x hx hne b hb hin
    · exact hout ((h.chained x hx).live b hb)
  refine ⟨(sameTree_setFile V id r).treeOk h.tree, hstore, ?_, ?_, ?_⟩
  · intro x hx
    by_cases hxi : x = id
    · rw [hxi, hfile, update_self]
      exact htouch.chained
    · rw [hother x hxi, update_of_ne hxi]
      exact htouch.chained_other (h.chained x hx) (hapart x hx hxi)
  · intro x hx y hy b hbx hby
    by_cases hxi : x = id
    · by_cases hyi : y = id
      · rw [hxi, hyi]
      · rw [hxi, update_self] at hbx
        rw [update_of_ne hyi] at hby
        exact absurd hbx (hnew y hy hyi b hby)
    · rw [update_of_ne hxi] at hbx
      by_cases hyi : y = id
      · rw [hyi, update_self] at hby
        exact absurd hby (hnew x hx hxi b hbx)
      · rw [update_of_ne hyi] at hby
        exact h.disjoint x hx y hy b hbx hby
  · have hsum := sum_change h.tree.nodup hid (fun x => (V.node x).file.cnt)
      (fun x => ((V.setFile id r).node x).file.cnt) (fun y hy => by rw [hother y hy])
    have hcount := htouch.count
    have hcur := h.cur
    rw [hfile] at hsum
    have hgoal : r.1.curBlk = (V.nodes.map fun x => ((V.setFile id r).node x).file.cnt).sum := by
      omega
    exact hgoal

theorem BlocksInv.sameFiles (h : BlocksInv c V blocks) {V' : Volume} (htree : TreeOk V')
    (hnodes : V'.nodes = V.nodes) (hstore : V'.store = V.store)
    (hfile : ∀ x, (V'.node x).file = (V.node x).file) : BlocksInv c V' blocks where
  tree := htree
  store := hstore ▸ h.store
  chained := by
    intro x hx
    rw [hnodes] at hx
    rw [hstore, hfile]
    exact h.chained x hx
  disjoint := by
    rw [hnodes]
    exact h.disjoint
  cur := by
    simp only [hstore, hnodes, hfile]
    exact h.cur

theorem BlocksInv.maken (h : BlocksInv c V blocks) {pcName pcLink : List Char}
    {father : Option Nat} {kind : Kind} {new : Nat} (hf : V.HasDir father) (hnew : new ∉ V.nodes) :
    BlocksInv c (ramMaken V pcName father kind pcLink (some new)).2 (update blocks new []) := by
  have hold : ∀ x ∈ V.nodes, x ≠ new := fun x hx e => hnew (e ▸ hx)
  have hfile : ∀ x ∈ V.nodes, ((ramMaken V pcName father kind pcLink (some new)).2.node x).file =
      (V.node x).file := fun x hx => (ramMaken_old (hold x hx)).2.2.2
  refine ⟨h.tree.maken hf hnew, by rw [ramMaken_store]; exact h.store, ?_, ?_, ?_⟩
  · intro x hx
    rw [ramMaken_nodes, List.mem_cons] at hx
    rw [ramMaken_store]
    by_cases hxn : x = new
    · rw [hxn, ramMaken_new.2.2.2, update_self]
      exact ⟨⟨List.nodup_nil, trivial⟩, rfl, rfl, rfl, (fun b hb => nomatch hb), (fun b hb => nomatch hb)⟩
    · have hx' := hx.resolve_left hxn
      rw [hfile x hx', update_of_ne hxn]
      exact h.chained x hx'
  · intro x hx y hy b hbx hby
    rw [ramMaken_nodes, List.mem_cons] at hx hy
    by_cases hxn : x = new
    · rw [hxn, update_self] at hbx
      cases hbx
    · by_cases hyn : y = new
      · rw [hyn, update_self] at hby
        cases hby
      · rw [update_of_ne hxn] at hbx
        rw [update_of_ne hyn] at hby
        exact h.disjoint x (hx.resolve_left hxn) y (hy.resolve_left hyn) b hbx hby
  · rw [ramMaken_store, ramMaken_nodes, List.map_cons, List.sum_cons, ramMaken_new.2.2.2, h.cur,
      List.map_congr_left (fun x hx => congrArg File.cnt (hfile x hx))]
    exact (Nat.zero_add _).symm

theorem BlocksInv.unlink (h : BlocksInv c V blocks) {id : Nat} (hid : id ∈ V.nodes) :
    BlocksInv c (ramUnlink V id).2 blocks := by
  by_cases hdel : (V.node id).kind = .dir ∧ (V.node id).sons ≠ []
  · rw [ramUnlink_fail hdel]
    exact h
  obtain ⟨-, hnodes, -, -, -, -, hfile, hstore⟩ := ramUnlink_spec hdel
  have hch := h.chained id hid
  have hlen := hch.length_le
  have hfrees := unlinkFree_spec (V.store.live.card + 1) hch.line hch.start (by omega)
  rw [← hstore] at hfrees
  have hcard := card_of_freed (k := 0) hch.line.nodup hch.live hfrees.live (Nat.zero_le _)
  have hmem : ∀ x, x ∈ (ramUnlink V id).2.nodes ↔ x ≠ id ∧ x ∈ V.nodes := by
    intro x
    rw [hnodes, h.tree.nodup.mem_erase_iff]
  have hcur := hfrees.curBlk
  have hscur := h.store.cur
  refine ⟨h.tree.unlink hid, ⟨by omega, ?_, ?_⟩, ?_, ?_, ?_⟩
  · refine le_trans (Nat.mul_le_mul_right _ ?_) h.store.room
    omega
  · have := h.store.max
    have := hfrees.maxBlk
    omega
  · intro x hx
    obtain ⟨hne, hx⟩ := (hmem x).mp hx
    rw [hfile x hne]
    have hold := h.chained x hx
    have hapart : ∀ b ∈ blocks x, b ∉ blocks id := fun b hb hb' =>
      hne (h.disjoint x hx id hid b hb hb')
    exact ⟨⟨hold.line.nodup, hold.line.linked.congr fun b hb => hfrees.links b (hapart b hb)⟩,
      hold.start, hold.last, hold.cnt, fun b hb => (hfrees.live b).mpr ⟨hold.live b hb, hapart b hb⟩,
      hold.cookie⟩
  · intro x hx y hy b hbx hby
    exact h.disjoint x ((hmem x).mp hx).2 y ((hmem y).mp hy).2 b hbx hby
  · have hperm := (List.perm_cons_erase hid).map fun x => (V.node x).file.cnt
    have hsum := hperm.sum_nat
    rw [List.map_cons, List.sum_cons] at hsum
    have hrest : ((ramUnlink V id).2.nodes.map fun x => ((ramUnlink V id).2.node x).file.cnt) =
        (V.nodes.erase id).map fun x => (V.node x).file.cnt := by
      rw [hnodes]
      apply List.map_congr_left
      intro x hx
      rw [hfile x ((h.tree.nodup.mem_erase_iff).mp hx).1]
    have := h.cur
    have := hch.cnt
    rw [hrest]
    omega

theorem BlocksInv.step (h : BlocksInv c V blocks) {op : Op} (hlegal : Legal c V op)
    (hcut : CutOk c V op) : ∃ blocks', BlocksInv c (apply c V op) blocks' := by
  cases op with
  | maken pcName father kind pcLink new =>
    cases new with
    | none => exact ⟨blocks, h⟩
    | some new => exact ⟨_, h.maken hlegal.1 (hlegal.2 new rfl)⟩
  | write id src n stOft alloc =>
    obtain ⟨hid, -, hoft, halloc⟩ := hlegal
    obtain ⟨-, htouch, hstore, -, -⟩ := ramWrite_spec h.store (h.chained id hid) (n := n) hoft
      halloc src
    exact ⟨_, h.setFile hid htouch hstore⟩
  | read id stSize stOft =>
    obtain ⟨hid, hoft⟩ := hlegal
    have hch := h.chained id hid
    obtain ⟨-, hch', hsame⟩ := ramRead_spec hch hoft (h.store.length_lt hch)
    have hcnt := congrArg File.cnt hsame
    exact ⟨_, h.setFile hid ((SameButData.refl _ _).touches hch' hcnt) h.store⟩
  | truncate id stOft =>
    obtain ⟨hid, -⟩ := hlegal
    obtain ⟨htouch, hstore, -⟩ := ramTruncate_spec h.store (h.chained id hid) hcut
    exact ⟨_, h.setFile hid htouch hstore⟩
  | increase id stNewSize =>
    obtain ⟨hid, -⟩ := hlegal
    have hch := h.chained id hid
    exact ⟨_, h.setFile hid ((SameButData.refl _ _).touches (hch.grow stNewSize) (grow_cnt _ _))
      h.store⟩
  | move id pcNewName bAlloc =>
    have htree := h.tree.move hlegal pcNewName bAlloc
    rcases ramMove_cases h.tree hlegal pcNewName bAlloc with heq | ⟨-, heq⟩ | ⟨temp, -, -, htemp, -, heq⟩
    · exact ⟨blocks, by rw [apply, heq]; exact h⟩
    · rw [heq] at htree
      obtain ⟨hnodes, hstore, -, -, -, -, hfile⟩ := relocate_spec V _ _ _
      exact ⟨blocks, by rw [apply, heq]; exact h.sameFiles htree hnodes hstore hfile⟩
    · rw [heq] at htree
      obtain ⟨hnodes, hstore, -, -, -, -, hfile⟩ := relocate_spec (ramUnlink V temp).2 _ _ _
      exact ⟨blocks, by
        rw [apply, heq]
        exact (h.unlink htemp).sameFiles htree hnodes hstore hfile⟩
  | unlink id => exact ⟨blocks, h.unlink hlegal⟩

theorem BlocksInv.not_ok (h : BlocksInv c V blocks) {op : Op} (hlegal : Legal c V op)
    (hcut : ¬ CutOk c V op) : ¬ BlockListsOk (apply c V op) := by
  cases op with
  | truncate id stOft =>
    obtain ⟨hid, -⟩ := hlegal
    obtain ⟨z, hend, hdead⟩ := ramTruncate_dangling h.store (h.chained id hid) hcut
    rintro ⟨hlists, -⟩
    obtain ⟨l, hch⟩ := hlists id hid
    have hfile : ((apply c V (.truncate id stOft)).node id).file =
        (ramTruncate c V.store (V.node id).file stOft).2 := by
      simp [apply, Volume.setFile]
    rw [hfile] at hch
    have hlast := hch.last
    rw [hend] at hlast
    exact hdead (hch.live z (List.mem_of_getLast? hlast.symm))
  | _ => exact absurd trivial hcut

theorem treeOk_mounted (maxBlk : Nat) : TreeOk (mounted maxBlk) where
  nodup := List.nodup_nil
  hasDir := fun x hx => nomatch hx
  mem_sons := fun x hx => nomatch hx
  of_mem := fun d hd x hx => by
    cases d with
    | none => cases hx
    | some d => exact nomatch hd.1
  sons_nodup := fun d hd => by
    cases d with
    | none => exact List.nodup_nil
    | some d => exact nomatch hd.1

theorem blocksInv_mounted (maxBlk : Nat) : BlocksInv c (mounted maxBlk) fun _ => [] where
  tree := treeOk_mounted maxBlk
  store := ⟨rfl, by simp [mounted], Nat.zero_le _⟩
  chained := fun x hx => nomatch hx
  disjoint := fun x hx => nomatch hx
  cur := rfl

theorem BlocksInv.run_iff (h : BlocksInv c V blocks) (ops : List Op)
    (hlegal : EachStep c (Legal c) V ops) :
    (∀ k, BlockListsOk (run c V (ops.take k))) ↔ EachStep c (CutOk c) V ops := by
  induction ops generalizing V blocks with
  | nil =>
    refine ⟨fun _ => trivial, fun _ k => ?_⟩
    rw [List.take_nil]
    exact h.blockListsOk
  | cons op ops ih =>
    obtain ⟨hop, hrest⟩ := hlegal
    constructor
    · intro hall
      have hcut : CutOk c V op := by
        by_contra hcut
        exact h.not_ok hop hcut (hall 1)
      obtain ⟨blocks', h'⟩ := h.step hop hcut
      exact ⟨hcut, (ih h' hrest).mp fun k => hall (k + 1)⟩
    · rintro ⟨hcut, hcuts⟩ k
      obtain ⟨blocks', h'⟩ := h.step hop hcut
      cases k with
      | zero => exact h.blockListsOk
      | succ k => exact (ih h' hrest).mpr hcuts k

/-- The block lists are right after every call of a run exactly when no truncation cuts a file in
the middle. -/
theorem ram_block_lists_iff (c : Config) (maxBlk : Nat) (ops : List Op)
    (hlegal : EachStep c (Legal c) (mounted maxBlk) ops) :
    (∀ k, BlockListsOk (run c (mounted maxBlk) (ops.take k))) ↔
      EachStep c (CutOk c) (mounted maxBlk) ops :=
  (blocksInv_mounted maxBlk).run_iff ops hlegal

def pageConfig : Config := ⟨64, 11, Or.inr rfl, by decide, by decide⟩

def fourBlocks : Alloc := fun i => if i < 4 then some (i, fun _ => 9) else none

theorem fresh_fourBlocks : FreshAlloc pageConfig fourBlocks ∅ where
  fresh := fun _ _ _ _ hmem => absurd hmem (Finset.notMem_empty _)
  distinct := by
    intro i j b bytes bytes' hi hj
    simp only [fourBlocks, Option.ite_none_right_eq_some, Option.some.injEq, Prod.mk.injEq] at hi hj
    omega
  room := by
    intro i r hi
    simp only [fourBlocks, Option.ite_none_right_eq_some] at hi
    have hle : (0 + i + 1) * 2048 ≤ 2 ^ 64 := by omega
    exact hle

def cutRun (stOft : Nat) : List Op :=
  [.maken ['a'] none .file [] (some 0), .write 0 (fun _ => 1) 8000 0 fourBlocks, .truncate 0 stOft]

theorem legal_cutRun {stOft : Nat} (h : stOft < 2 ^ 64) :
    EachStep pageConfig (Legal pageConfig) (mounted 100) (cutRun stOft) := by
  refine ⟨⟨trivial, fun i _ hmem => nomatch hmem⟩, ⟨?_, by decide, by decide, fresh_fourBlocks⟩,
    ⟨?_, h⟩, trivial⟩
  · exact List.mem_singleton.mpr rfl
  · exact List.mem_singleton.mpr rfl

/-- The last block is cut off. -/
theorem ram_block_lists_iff_last :
    EachStep pageConfig (Legal pageConfig) (mounted 100) (cutRun 6096) ∧
      ∀ k, BlockListsOk (run pageConfig (mounted 100) ((cutRun 6096).take k)) := by
  have hcut : CutsAtEnd pageConfig
      ((run pageConfig (mounted 100) ((cutRun 6096).take 2)).node 0).file.cnt 6096 := by
    decide +kernel
  have hlegal : EachStep pageConfig (Legal pageConfig) (mounted 100) (cutRun 6096) :=
    legal_cutRun (by decide)
  exact ⟨hlegal, (ram_block_lists_iff pageConfig 100 (cutRun 6096) hlegal).mpr
    ⟨trivial, trivial, hcut, trivial⟩⟩

/-- Two of the four blocks are cut off, and `RAMN_plineBEnd` still points to the last of them. -/
theorem ram_truncate_leaves_end :
    EachStep pageConfig (Legal pageConfig) (mounted 100) (cutRun 4064) ∧
      ¬ ∀ k, BlockListsOk (run pageConfig (mounted 100) ((cutRun 4064).take k)) := by
  refine ⟨legal_cutRun (by decide), ?_⟩
  intro hall
  obtain ⟨l, hch⟩ := (hall 3).1 0 (List.mem_singleton.mpr rfl)
  have hend : ((run pageConfig (mounted 100) ((cutRun 4064).take 3)).node 0).file.bEnd = some 3 := by
    decide +kernel
  have hdead : 3 ∉ (run pageConfig (mounted 100) ((cutRun 4064).take 3)).store.live := by
    decide +kernel
  rw [hch.last] at hend
  exact hdead (hch.live 3 (List.mem_of_getLast? hend))

end SylixOS.RamFs
