import Mathlib.Algebra.Order.Ring.Nat
import Mathlib.Data.Int.Notation
import Mathlib.Data.List.Basic
import Mathlib.Tactic.Tauto

/-! `API_VmmMunmap` on the map nodes of a process. A node stands for its virtual area, which is
split, merged and freed together with it. -/

namespace SylixOS.VmmMmap

abbrev pageSize : ℕ := 4096

def roundUp (n : ℕ) : ℕ := (n + (pageSize - 1)) % 2 ^ 64 / pageSize * pageSize

/-- `LW_VMM_MAP_NODE`. `reg` is `S_ISREG(MAPN_mode)`; `shared` and `prealloc` are the flags
`LW_VMM_SHARED_CHANGE` and `LW_VMM_PHY_PREALLOC` of `MAPN_iFlags`. -/
structure Mapn where
  pvAddr : ℕ
  stLen : ℕ
  ulFlag : ℕ
  iFd : ℤ
  reg : Bool
  off : ℤ
  offFSize : ℤ
  shared : Bool
  prealloc : Bool
deriving DecidableEq

def mapnFindCur : List Mapn → ℕ → Option Mapn
  | [], _ => none
  | m :: s, pvAddr =>
    if m.pvAddr ≤ pvAddr ∧ pvAddr < m.pvAddr + m.stLen then some m
    else if pvAddr < m.pvAddr then none
    else mapnFindCur s pvAddr

def mapnLink (m : Mapn) : List Mapn → List Mapn
  | [] => [m]
  | n :: s => if m.pvAddr < n.pvAddr then m :: n :: s else n :: mapnLink m s

def mmapDelete (s : List Mapn) (m : Mapn) : List Mapn := s.erase m

def Mapn.left (m : Mapn) (stSplit : ℕ) : Mapn := { m with stLen := stSplit }

def Mapn.right (m : Mapn) (stSplit : ℕ) : Mapn :=
  { m with
    pvAddr := m.pvAddr + stSplit
    stLen := m.stLen - stSplit
    off := m.off + stSplit }

/-- `__vmmMmapSplit`. `splitOk` tells whether the allocations behind a split at an address succeed:
of the map node, and of the area's own control blocks in `API_VmmSplitArea`. Left out is that
`PAGEP_pvArg` of the right area still points to the left node. -/
def mmapSplit (splitOk : ℕ → Bool) (s : List Mapn) (m : Mapn) (stSplit : ℕ) :
    Option (Mapn × Mapn × List Mapn) :=
  if splitOk (m.pvAddr + stSplit) then
    some (m.left stSplit, m.right stSplit,
      mapnLink (m.right stSplit) (s.replace m (m.left stSplit)))
  else none

/-- `__vmmMmapMerge`. No area begins at the right node's address any more, so that the deletion
frees no page. -/
def mmapMerge (s : List Mapn) (l r : Mapn) : List Mapn :=
  mmapDelete (s.replace l { l with stLen := l.stLen + r.stLen }) r

def cutLeft (splitOk : ℕ → Bool) (s : List Mapn) (m : Mapn) (pvAddr : ℕ) :
    Option (Option Mapn × Mapn × List Mapn) :=
  if m.pvAddr ≠ pvAddr then
    (mmapSplit splitOk s m (pvAddr - m.pvAddr)).map fun (l, r, s) => (some l, r, s)
  else some (none, m, s)

def munmapFrom (splitOk : ℕ → Bool) (goon : List Mapn → ℕ → ℕ → Option (Bool × List Mapn))
    (l : Option Mapn) (m : Mapn) (s : List Mapn) (pvAddr stLen : ℕ) :
    Option (Bool × List Mapn) :=
  if stLen < m.stLen then
    match mmapSplit splitOk s m stLen, l with
    | some (m, _, s), _ => some (true, mmapDelete s m)
    | none, some l => some (false, mmapMerge s l m)
    -- nothing was cut off on the left: the whole mapping goes
    | none, none => some (true, mmapDelete s m)
  else if m.stLen < stLen then
    goon (mmapDelete s m) ((pvAddr + m.stLen) % 2 ^ 64) (stLen - m.stLen)
  else some (true, mmapDelete s m)

def munmapLoop (splitOk : ℕ → Bool) : ℕ → List Mapn → ℕ → ℕ → Option (Bool × List Mapn)
  | 0, _, _, _ => none
  | fuel + 1, s, pvAddr, stLen =>
    match mapnFindCur s pvAddr with
    | none =>
      if pageSize < stLen then
        munmapLoop splitOk fuel s ((pvAddr + pageSize) % 2 ^ 64) (stLen - pageSize)
      else some (false, s)
    | some m =>
      if m.prealloc = true ∧ (m.pvAddr ≠ pvAddr ∨ m.stLen ≠ stLen) then some (false, s)
      else
        match cutLeft splitOk s m pvAddr with
        | none => some (false, s)
        | some (l, m, s) => munmapFrom splitOk (munmapLoop splitOk fuel) l m s pvAddr stLen

def vmmMunmap (splitOk : ℕ → Bool) (s : List Mapn) (pvAddr stLen : ℕ) :
    Option (Bool × List Mapn) :=
  if ¬pageSize ∣ pvAddr ∨ stLen = 0 then some (false, s)
  else munmapLoop splitOk (roundUp stLen / pageSize) s pvAddr (roundUp stLen)

def Mapn.Covers (m : Mapn) (x : ℕ) : Prop := m.pvAddr ≤ x ∧ x < m.pvAddr + m.stLen

def Mapn.Crosses (m : Mapn) (x : ℕ) : Prop := m.pvAddr < x ∧ x < m.pvAddr + m.stLen

structure Shown where
  iFd : ℤ
  off : ℤ
  ulFlag : ℕ

def Mapn.shown (m : Mapn) (x : ℕ) : Shown := ⟨m.iFd, m.off + (x - m.pvAddr : ℕ), m.ulFlag⟩

def View (s : List Mapn) (x : ℕ) (v : Shown) : Prop := ∃ m ∈ s, m.Covers x ∧ m.shown x = v

def Mapped (s : List Mapn) (x : ℕ) : Prop := ∃ m ∈ s, m.Covers x

def Crossed (s : List Mapn) (x : ℕ) : Prop := ∃ m ∈ s, m.Crosses x

structure Mapn.Ok (m : Mapn) : Prop where
  addr : pageSize ∣ m.pvAddr
  len : pageSize ∣ m.stLen
  pos : 0 < m.stLen
  below : m.pvAddr + m.stLen < 2 ^ 64

structure Granular (s : List Mapn) : Prop where
  sorted : s.Pairwise fun m n => m.pvAddr + m.stLen ≤ n.pvAddr
  ok : ∀ m ∈ s, m.Ok

def Plain (s : List Mapn) : Prop := ∀ m ∈ s, m.prealloc = false

def InRange (pvAddr stLen x : ℕ) : Prop := x < 2 ^ 64 ∧ (x + 2 ^ 64 - pvAddr) % 2 ^ 64 < stLen

def Removed (s s' : List Mapn) (pvAddr stLen : ℕ) : Prop :=
  ∀ x v, View s' x v ↔ View s x v ∧ ¬InRange pvAddr stLen x

/-- A mapping reaches across an end of the range, and the split there fails. -/
def SplitFails (splitOk : ℕ → Bool) (s : List Mapn) (x : ℕ) : Prop :=
  Crossed s x ∧ splitOk x = false

structure Exact (splitOk : ℕ → Bool) (s : List Mapn) (pvAddr stLen : ℕ) (r : Bool × List Mapn) :
    Prop where
  done : r.1 = true → Removed s r.2 pvAddr stLen
  kept : r.1 = false → ∀ x, Mapped r.2 x ↔ Mapped s x
  refused : r.1 = false → (∃ x, InRange pvAddr stLen x ∧ Mapped s x) →
    SplitFails splitOk s pvAddr ∨ SplitFails splitOk s ((pvAddr + stLen) % 2 ^ 64)

/-- The range ends in a mapped page, and a split at its end that fails is of a mapping that also
reaches across its begin. -/
def EndsWell (splitOk : ℕ → Bool) (s : List Mapn) (pvAddr stLen : ℕ) : Prop :=
  Mapped s ((pvAddr + stLen - 1) % 2 ^ 64) ∧
    (SplitFails splitOk s ((pvAddr + stLen) % 2 ^ 64) →
      ∃ m ∈ s, m.pvAddr < pvAddr ∧ pvAddr + stLen < m.pvAddr + m.stLen)

variable {splitOk : ℕ → Bool} {s s' p q : List Mapn} {m k : Mapn} {a n c x : ℕ} {v : Shown}
  {r : Bool × List Mapn}

theorem Granular.around (h : Granular (p ++ m :: q)) :
    (∀ k ∈ p, k.pvAddr + k.stLen ≤ m.pvAddr) ∧ ∀ k ∈ q, m.pvAddr + m.stLen ≤ k.pvAddr := by
  obtain ⟨-, hq, hpq⟩ := List.pairwise_append.mp h.sorted
  exact ⟨fun k hk => hpq k hk m List.mem_cons_self, fun k hk => List.rel_of_pairwise_cons hq hk⟩

theorem Granular.notMem (h : Granular (p ++ m :: q)) : m ∉ p ∧ m ∉ q := by
  have hpos := (h.ok m (List.mem_append_right p List.mem_cons_self)).pos
  constructor
  · intro hm
    have hle := h.around.1 m hm
    omega
  · intro hm
    have hle := h.around.2 m hm
    omega

theorem Granular.apart (h : Granular s) (hk : k ∈ s) (hm : m ∈ s) (hne : k ≠ m) :
    k.pvAddr + k.stLen ≤ m.pvAddr ∨ m.pvAddr + m.stLen ≤ k.pvAddr := by
  obtain ⟨p, q, rfl⟩ := List.append_of_mem hm
  rcases List.mem_append.mp hk with hp | hq
  · exact Or.inl (h.around.1 k hp)
  · exact Or.inr (h.around.2 k ((List.mem_cons.mp hq).resolve_left hne))

theorem mapnFindCur_some (hfind : mapnFindCur s a = some m) : m ∈ s ∧ m.Covers a := by
  induction s with
  | nil => cases hfind
  | cons k s ih =>
    rw [mapnFindCur] at hfind
    split_ifs at hfind with hcov hlt
    · cases hfind
      exact ⟨List.mem_cons_self, hcov⟩
    · exact ⟨List.mem_cons_of_mem k (ih hfind).1, (ih hfind).2⟩

theorem Granular.mapnFindCur_none (h : Granular s) (hfind : mapnFindCur s a = none) :
    ¬Mapped s a := by
  induction s with
  | nil => exact fun ⟨m, hm, _⟩ => absurd hm List.not_mem_nil
  | cons k s ih =>
    rw [mapnFindCur] at hfind
    split_ifs at hfind with hcov hlt
    · rintro ⟨m, hm, hle, -⟩
      rcases List.mem_cons.mp hm with rfl | hm
      · omega
      · have hbehind := List.rel_of_pairwise_cons h.sorted hm
        omega
    · rintro ⟨m, hm, hle⟩
      rcases List.mem_cons.mp hm with rfl | hm
      · exact hcov hle
      · exact ih ⟨(List.pairwise_cons.mp h.sorted).2, fun k hk =>
          h.ok k (List.mem_cons_of_mem _ hk)⟩ hfind ⟨m, hm, hle⟩

theorem Granular.mapnFindCur_eq (h : Granular s) (hm : m ∈ s) (hcov : m.Covers a) :
    mapnFindCur s a = some m := by
  cases hfind : mapnFindCur s a with
  | none => exact absurd ⟨m, hm, hcov⟩ (h.mapnFindCur_none hfind)
  | some k =>
    obtain ⟨hk, hle, hlt⟩ := mapnFindCur_some hfind
    obtain ⟨hle', hlt'⟩ := hcov
    by_contra hne
    rcases h.apart hk hm (fun heq => hne (congrArg some heq)) with hkm | hmk <;> omega

theorem mapped_iff : Mapped s x ↔ ∃ v, View s x v :=
  ⟨fun ⟨m, hm, hcov⟩ => ⟨m.shown x, m, hm, hcov, rfl⟩, fun ⟨_, m, hm, hcov, _⟩ => ⟨m, hm, hcov⟩⟩

theorem Granular.delete (h : Granular s) : Granular (mmapDelete s m) :=
  ⟨h.sorted.sublist List.erase_sublist, fun k hk => h.ok k (List.mem_of_mem_erase hk)⟩

theorem Granular.mem_delete (h : Granular s) (hm : m ∈ s) :
    k ∈ mmapDelete s m ↔ k ∈ s ∧ k ≠ m := by
  obtain ⟨p, q, rfl⟩ := List.append_of_mem hm
  obtain ⟨hp, hq⟩ := h.notMem
  rw [mmapDelete, List.erase_append_right _ hp, List.erase_cons_head, List.mem_append,
    List.mem_append, List.mem_cons]
  constructor
  · rintro (hk | hk)
    · exact ⟨Or.inl hk, fun heq => hp (heq ▸ hk)⟩
    · exact ⟨Or.inr (Or.inr hk), fun heq => hq (heq ▸ hk)⟩
  · rintro ⟨hk | hk | hk, hne⟩
    · exact Or.inl hk
    · exact absurd hk hne
    · exact Or.inr hk

theorem Granular.view_delete (h : Granular s) (hm : m ∈ s) :
    View (mmapDelete s m) x v ↔ View s x v ∧ ¬m.Covers x := by
  constructor
  · rintro ⟨k, hk, hcov, hv⟩
    obtain ⟨hks, hne⟩ := (h.mem_delete hm).mp hk
    refine ⟨⟨k, hks, hcov, hv⟩, fun hcov' => ?_⟩
    obtain ⟨hle, hlt⟩ := hcov
    obtain ⟨hle', hlt'⟩ := hcov'
    rcases h.apart hks hm hne with hkm | hmk <;> omega
  · rintro ⟨⟨k, hk, hcov, hv⟩, hnot⟩
    exact ⟨k, (h.mem_delete hm).mpr ⟨hk, fun heq => hnot (heq ▸ hcov)⟩, hcov, hv⟩

theorem Granular.crossed_delete (h : Granular s) (hm : m ∈ s) :
    Crossed (mmapDelete s m) x ↔ Crossed s x ∧ ¬m.Crosses x := by
  constructor
  · rintro ⟨k, hk, hlt, hgt⟩
    obtain ⟨hks, hne⟩ := (h.mem_delete hm).mp hk
    refine ⟨⟨k, hks, hlt, hgt⟩, fun ⟨hlt', hgt'⟩ => ?_⟩
    rcases h.apart hks hm hne with hkm | hmk <;> omega
  · rintro ⟨⟨k, hk, hcross⟩, hnot⟩
    exact ⟨k, (h.mem_delete hm).mpr ⟨hk, fun heq => hnot (heq ▸ hcross)⟩, hcross⟩

theorem mapnLink_between (hp : ∀ k ∈ p, k.pvAddr ≤ m.pvAddr) (hq : ∀ k ∈ q, m.pvAddr < k.pvAddr) :
    mapnLink m (p ++ q) = p ++ m :: q := by
  induction p with
  | nil =>
    cases q with
    | nil => rfl
    | cons k q => exact if_pos (hq k List.mem_cons_self)
  | cons k p ih =>
    have hk := hp k List.mem_cons_self
    rw [List.cons_append, mapnLink, if_neg (Nat.not_lt.mpr hk),
      ih fun k hk => hp k (List.mem_cons_of_mem _ hk), List.cons_append]

structure Cut (s : List Mapn) (m : Mapn) (c : ℕ) (s' : List Mapn) : Prop where
  granular : Granular s'
  left : m.left c ∈ s'
  right : m.right c ∈ s'
  view : ∀ x v, View s' x v ↔ View s x v
  crossed : ∀ x, Crossed s' x ↔ Crossed s x ∧ x ≠ m.pvAddr + c
  merged : mmapMerge s' (m.left c) (m.right c) = s
  plain : Plain s → Plain s'

theorem Mapn.shown_right (h : m.pvAddr + c ≤ x) : (m.right c).shown x = m.shown x := by
  have hoff : m.off + c + ((x - (m.pvAddr + c) : ℕ) : ℤ) = m.off + ((x - m.pvAddr : ℕ) : ℤ) := by
    omega
  exact congrArg (Shown.mk m.iFd · m.ulFlag) hoff

theorem mem_halves {l : Mapn} : k ∈ p ++ l :: m :: q ↔ k ∈ p ∨ k = l ∨ k = m ∨ k ∈ q := by
  rw [List.mem_append, List.mem_cons, List.mem_cons]

theorem Granular.halves (h : Granular (p ++ m :: q)) (hpos : 0 < c) (hc : c < m.stLen)
    (hdvd : pageSize ∣ c) : Granular (p ++ m.left c :: m.right c :: q) := by
  have hm := h.ok m (List.mem_append_right p List.mem_cons_self)
  obtain ⟨hbefore, hbehind⟩ := h.around
  obtain ⟨hp, hq, hpq⟩ := List.pairwise_append.mp h.sorted
  have hend : m.pvAddr + c + (m.stLen - c) = m.pvAddr + m.stLen := by omega
  refine ⟨List.pairwise_append.mpr ⟨hp, ?_, ?_⟩, fun k hk => ?_⟩
  · rw [List.pairwise_cons, List.pairwise_cons]
    refine ⟨fun k hk => ?_, fun k hk => hend.trans_le (hbehind k hk), (List.pairwise_cons.mp hq).2⟩
    rcases List.mem_cons.mp hk with rfl | hk
    · exact le_rfl
    · exact (Nat.add_le_add_left hc.le _).trans (hbehind k hk)
  · intro k hk k' hk'
    rw [List.mem_cons, List.mem_cons] at hk'
    rcases hk' with rfl | rfl | hk'
    · exact hbefore k hk
    · exact (hbefore k hk).trans (Nat.le_add_right _ c)
    · exact hpq k hk k' (List.mem_cons_of_mem m hk')
  · rcases mem_halves.mp hk with hk | rfl | rfl | hk
    · exact h.ok k (List.mem_append_left _ hk)
    · exact ⟨hm.addr, hdvd, hpos, (Nat.add_lt_add_left hc _).trans hm.below⟩
    · exact ⟨Nat.dvd_add hm.addr hdvd, Nat.dvd_sub hm.len hdvd, Nat.sub_pos_of_lt hc,
        hend.trans_lt hm.below⟩
    · exact h.ok k (List.mem_append_right _ (List.mem_cons_of_mem m hk))

theorem mmapSplit_eq (h : Granular (p ++ m :: q)) (hpos : 0 < c) (hc : c < m.stLen)
    (hok : splitOk (m.pvAddr + c) = true) :
    mmapSplit splitOk (p ++ m :: q) m c =
      some (m.left c, m.right c, p ++ m.left c :: m.right c :: q) := by
  obtain ⟨hbefore, hbehind⟩ := h.around
  rw [mmapSplit, if_pos hok, List.replace_append_right h.notMem.1, List.replace_cons_self,
    List.append_cons p, mapnLink_between, List.append_assoc, List.singleton_append]
  · intro k hk
    rcases List.mem_append.mp hk with hk | hk
    · have hle := hbefore k hk
      change k.pvAddr ≤ m.pvAddr + c
      omega
    · rw [List.mem_singleton.mp hk]
      exact Nat.le_add_right _ _
  · exact fun k hk => (Nat.add_lt_add_left hc _).trans_le (hbehind k hk)

theorem mmapMerge_eq (h : Granular (p ++ m.left c :: m.right c :: q)) (hpos : 0 < c)
    (hc : c < m.stLen) :
    mmapMerge (p ++ m.left c :: m.right c :: q) (m.left c) (m.right c) = p ++ m :: q := by
  have hwhole : { m.left c with stLen := (m.left c).stLen + (m.right c).stLen } = m := by
    change { m with stLen := c + (m.stLen - c) } = m
    rw [Nat.add_sub_of_le hc.le]
  have hnot : m.right c ∉ p ++ [m] := by
    intro hin
    rcases List.mem_append.mp hin with hin | hin
    · rw [List.append_cons] at h
      exact h.notMem.1 (List.mem_append_left _ hin)
    · have haddr := congrArg Mapn.pvAddr (List.mem_singleton.mp hin)
      change m.pvAddr + c = m.pvAddr at haddr
      omega
  rw [mmapMerge, List.replace_append_right h.notMem.1, List.replace_cons_self, hwhole, mmapDelete,
    List.append_cons, List.erase_append_right _ hnot, List.erase_cons_head, List.append_assoc,
    List.singleton_append]

theorem Granular.cut (h : Granular s) (hm : m ∈ s) (hpos : 0 < c) (hc : c < m.stLen)
    (hdvd : pageSize ∣ c) (hok : splitOk (m.pvAddr + c) = true) :
    ∃ s', mmapSplit splitOk s m c = some (m.left c, m.right c, s') ∧ Cut s m c s' := by
  obtain ⟨p, q, rfl⟩ := List.append_of_mem hm
  have hgranular := h.halves hpos hc hdvd
  obtain ⟨hbefore, hbehind⟩ := h.around
  have hmem : ∀ k, k ∈ p ∨ k ∈ q → k ∈ p ++ m :: q := fun k hk =>
    List.mem_append.mpr (hk.imp_right (List.mem_cons_of_mem m))
  have hleft : m.left c ∈ p ++ m.left c :: m.right c :: q := mem_halves.mpr (Or.inr (Or.inl rfl))
  have hright : m.right c ∈ p ++ m.left c :: m.right c :: q :=
    mem_halves.mpr (Or.inr (Or.inr (Or.inl rfl)))
  have hend : m.pvAddr + c + (m.stLen - c) = m.pvAddr + m.stLen := by omega
  have hother : ∀ k ∈ p ++ m :: q, k = m ∨ k ∈ p ++ m.left c :: m.right c :: q := by
    intro k hk
    rw [List.mem_append, List.mem_cons] at hk
    rw [mem_halves]
    tauto
  refine ⟨_, mmapSplit_eq h hpos hc hok, hgranular, hleft, hright, fun x v => ⟨?_, ?_⟩,
    fun x => ⟨?_, ?_⟩, mmapMerge_eq hgranular hpos hc, fun hplain k hk => ?_⟩
  · rintro ⟨k, hk, hcov, rfl⟩
    rcases mem_halves.mp hk with hk | rfl | rfl | hk
    · exact ⟨k, hmem k (Or.inl hk), hcov, rfl⟩
    · exact ⟨m, hm, ⟨hcov.1, hcov.2.trans (Nat.add_lt_add_left hc _)⟩, rfl⟩
    · exact ⟨m, hm, ⟨(Nat.le_add_right _ _).trans hcov.1, hcov.2.trans_eq hend⟩,
        (Mapn.shown_right hcov.1).symm⟩
    · exact ⟨k, hmem k (Or.inr hk), hcov, rfl⟩
  · rintro ⟨k, hk, hcov, rfl⟩
    rcases hother k hk with rfl | hk
    · by_cases hx : x < k.pvAddr + c
      · exact ⟨_, hleft, ⟨hcov.1, hx⟩, rfl⟩
      · have hge := Nat.le_of_not_lt hx
        exact ⟨_, hright, ⟨hge, hcov.2.trans_eq hend.symm⟩, Mapn.shown_right hge⟩
    · exact ⟨k, hk, hcov, rfl⟩
  · rintro ⟨k, hk, hlt, hgt⟩
    rcases mem_halves.mp hk with hk | rfl | rfl | hk
    · have hle := hbefore k hk
      exact ⟨⟨k, hmem k (Or.inl hk), hlt, hgt⟩, by omega⟩
    · exact ⟨⟨m, hm, hlt, hgt.trans (Nat.add_lt_add_left hc _)⟩, hgt.ne⟩
    · exact ⟨⟨m, hm, (Nat.le_add_right _ _).trans_lt hlt, hgt.trans_eq hend⟩, hlt.ne'⟩
    · have hle := hbehind k hk
      exact ⟨⟨k, hmem k (Or.inr hk), hlt, hgt⟩, by omega⟩
  · rintro ⟨⟨k, hk, hlt, hgt⟩, hne⟩
    rcases hother k hk with rfl | hk
    · rcases Nat.lt_or_gt_of_ne hne with hx | hx
      · exact ⟨_, hleft, hlt, hx⟩
      · exact ⟨_, hright, hx, hgt.trans_eq hend.symm⟩
    · exact ⟨k, hk, hlt, hgt⟩
  · rcases mem_halves.mp hk with hk | rfl | rfl | hk
    · exact hplain k (hmem k (Or.inl hk))
    · exact hplain m hm
    · exact hplain m hm
    · exact hplain k (hmem k (Or.inr hk))

theorem inRange_split (hcn : c ≤ n) (hn : n < 2 ^ 64) (ha : a < 2 ^ 64) :
    InRange a n x ↔ InRange a c x ∨ InRange ((a + c) % 2 ^ 64) (n - c) x := by
  unfold InRange
  omega

theorem inRange_iff (hbelow : a + c < 2 ^ 64) : InRange a c x ↔ a ≤ x ∧ x < a + c := by
  unfold InRange
  omega

structure Swept (splitOk : ℕ → Bool) (s : List Mapn) (a n : ℕ) (r : Bool × List Mapn) : Prop where
  status : r.1 = true ↔ Mapped s ((a + n - 1) % 2 ^ 64)
  removed : ¬SplitFails splitOk s ((a + n) % 2 ^ 64) → Removed s r.2 a n
  torn : SplitFails splitOk s ((a + n) % 2 ^ 64) → ¬Removed s r.2 a n

theorem Swept.advance (hpos : 0 < c) (hcn : c < n) (hn : n < 2 ^ 64) (ha : a < 2 ^ 64)
    (hview : ∀ x v, View s' x v ↔ View s x v ∧ ¬InRange a c x)
    (hcross : Crossed s' ((a + n) % 2 ^ 64) ↔ Crossed s ((a + n) % 2 ^ 64))
    (h : Swept splitOk s' ((a + c) % 2 ^ 64) (n - c) r) : Swept splitOk s a n r := by
  have hend : ((a + c) % 2 ^ 64 + (n - c)) % 2 ^ 64 = (a + n) % 2 ^ 64 := by omega
  have hlast : ((a + c) % 2 ^ 64 + (n - c) - 1) % 2 ^ 64 = (a + n - 1) % 2 ^ 64 := by omega
  have hmapped : Mapped s' ((a + n - 1) % 2 ^ 64) ↔ Mapped s ((a + n - 1) % 2 ^ 64) := by
    have hout : ¬InRange a c ((a + n - 1) % 2 ^ 64) := by
      unfold InRange
      omega
    simp only [mapped_iff, hview, hout, not_false_eq_true, and_true]
  have hremoved : Removed s' r.2 ((a + c) % 2 ^ 64) (n - c) ↔ Removed s r.2 a n := by
    unfold Removed
    simp only [hview, inRange_split hcn.le hn ha, not_or, and_assoc]
  have hfails : SplitFails splitOk s' ((a + n) % 2 ^ 64) ↔
      SplitFails splitOk s ((a + n) % 2 ^ 64) := and_congr_left fun _ => hcross
  refine ⟨?_, fun hnot => ?_, fun hfail => ?_⟩
  · rw [h.status, hlast, hmapped]
  · rw [← hremoved]
    exact h.removed (by rwa [hend, hfails])
  · rw [← hremoved]
    exact h.torn (by rwa [hend, hfails])

theorem Granular.sweep_last (h : Granular s) (hm : m ∈ s) (hn : pageSize ∣ n) (hpos : 0 < n)
    (hle : n ≤ m.stLen) (goon : List Mapn → ℕ → ℕ → Option (Bool × List Mapn)) :
    ∃ r, munmapFrom splitOk goon none m s m.pvAddr n = some r ∧
      Swept splitOk s m.pvAddr n r := by
  have hbelow := (h.ok m hm).below
  have hend : (m.pvAddr + n) % 2 ^ 64 = m.pvAddr + n := Nat.mod_eq_of_lt (by omega)
  have hlast : Mapped s ((m.pvAddr + n - 1) % 2 ^ 64) := by
    rw [Nat.mod_eq_of_lt (by omega)]
    exact ⟨m, hm, by omega, by omega⟩
  have hrange : ∀ x, InRange m.pvAddr n x ↔ m.pvAddr ≤ x ∧ x < m.pvAddr + n := fun x =>
    inRange_iff (by omega)
  rcases hle.lt_or_eq with hlt | heq
  · have hcrossed : Crossed s (m.pvAddr + n) := ⟨m, hm, by omega, by omega⟩
    unfold munmapFrom
    rw [if_pos hlt]
    cases hok : splitOk (m.pvAddr + n) with
    | true =>
      obtain ⟨s', hsplit, hcut⟩ := h.cut hm hpos hlt hn hok
      refine ⟨(true, mmapDelete s' (m.left n)), by rw [hsplit], iff_of_true rfl hlast,
        fun _ x v => ?_, fun hfail => ?_⟩
      · rw [hcut.granular.view_delete hcut.left, hcut.view, hrange]
        rfl
      · rw [hend] at hfail
        exact absurd hfail.2 (by rw [hok]; exact Bool.noConfusion)
    | false =>
      have hsplit : mmapSplit splitOk s m n = none := by
        rw [mmapSplit, hok, if_neg Bool.false_ne_true]
      refine ⟨(true, mmapDelete s m), by rw [hsplit], iff_of_true rfl hlast, fun hnot => ?_,
        fun _ hremoved => ?_⟩
      · rw [hend] at hnot
        exact absurd ⟨hcrossed, hok⟩ hnot
      · have hcov : m.Covers (m.pvAddr + n) := ⟨by omega, by omega⟩
        have hkept := (hremoved _ _).mpr ⟨⟨m, hm, hcov, rfl⟩, by rw [hrange]; omega⟩
        exact ((h.view_delete hm).mp hkept).2 hcov
  · unfold munmapFrom
    rw [if_neg heq.not_lt, if_neg heq.not_gt]
    refine ⟨_, rfl, iff_of_true rfl hlast, fun _ x v => ?_, fun hfail => ?_⟩
    · rw [h.view_delete hm, hrange, heq]
      rfl
    · rw [hend] at hfail
      obtain ⟨⟨k, hk, hlt, hgt⟩, -⟩ := hfail
      have hne : k ≠ m := by
        rintro rfl
        omega
      rcases h.apart hk hm hne with hkm | hmk <;> omega

theorem munmapLoop_found {fuel : ℕ} {l : Option Mapn} (hfind : mapnFindCur s a = some m)
    (hplain : m.prealloc = false) (hcut : cutLeft splitOk s m a = some (l, k, s')) :
    munmapLoop splitOk (fuel + 1) s a n =
      munmapFrom splitOk (munmapLoop splitOk fuel) l k s' a n := by
  simp only [munmapLoop, hfind, hplain, Bool.false_eq_true, false_and, if_false, hcut]

theorem Granular.hole (h : Granular s) (ha : pageSize ∣ a) (hnot : ¬Mapped s a) (hm : m ∈ s) :
    m.pvAddr + m.stLen ≤ a ∨ a + pageSize ≤ m.pvAddr := by
  have haddr := (h.ok m hm).addr
  have hcov : ¬m.Covers a := fun hcov => hnot ⟨m, hm, hcov⟩
  unfold Mapn.Covers at hcov
  unfold pageSize at *
  omega

theorem Granular.sweep (h : Granular s) (hplain : Plain s) (ha : pageSize ∣ a)
    (ha' : a < 2 ^ 64) (hn : pageSize ∣ n) (hpos : 0 < n) (hn' : n < 2 ^ 64)
    (hcross : ¬Crossed s a) {fuel : ℕ} (hfuel : n ≤ pageSize * fuel) :
    ∃ r, munmapLoop splitOk fuel s a n = some r ∧ Swept splitOk s a n r := by
  unfold pageSize at ha hn hfuel
  induction fuel generalizing s a n with
  | zero => omega
  | succ fuel ih =>
    cases hfind : mapnFindCur s a with
    | none =>
      have hhole : ∀ m ∈ s, m.pvAddr + m.stLen ≤ a ∨ a + 4096 ≤ m.pvAddr := fun m hm =>
        h.hole ha (h.mapnFindCur_none hfind) hm
      by_cases hlt : 4096 < n
      · have hbehind : ¬Crossed s ((a + 4096) % 2 ^ 64) := by
          rintro ⟨m, hm, hlt, hgt⟩
          have hhole := hhole m hm
          omega
        obtain ⟨r, hr, hswept⟩ := @ih s _ (n - 4096) h hplain (by omega) (Nat.mod_lt _ (by omega))
          (by omega) (by omega) (by omega) hbehind (by omega)
        refine ⟨r, ?_, hswept.advance (by omega) hlt hn' ha' (fun x v => ?_) Iff.rfl⟩
        · simp only [munmapLoop, hfind, pageSize, if_pos hlt, hr]
        · refine (and_iff_left_of_imp ?_).symm
          rintro ⟨m, hm, ⟨hge, hgt⟩, -⟩
          have hhole := hhole m hm
          unfold InRange
          omega
      · refine ⟨(false, s), ?_, iff_of_false Bool.false_ne_true ?_, fun _ x v => ?_, ?_⟩
        · simp only [munmapLoop, hfind, pageSize, if_neg hlt]
        · rintro ⟨m, hm, hge, hgt⟩
          have hhole := hhole m hm
          omega
        · refine (and_iff_left_of_imp ?_).symm
          rintro ⟨m, hm, ⟨hge, hgt⟩, -⟩
          have hhole := hhole m hm
          unfold InRange
          omega
        · rintro ⟨⟨m, hm, hgt, hlt⟩, -⟩
          have hhole := hhole m hm
          omega
    | some m =>
      obtain ⟨hm, hge, hgt⟩ := mapnFindCur_some hfind
      have hok := h.ok m hm
      have hbegin : m.pvAddr = a := by
        by_contra hne
        exact hcross ⟨m, hm, by omega, hgt⟩
      have hcut : cutLeft splitOk s m a = some (none, m, s) := if_neg (not_not.mpr hbegin)
      rw [munmapLoop_found hfind (hplain m hm) hcut]
      rcases Nat.lt_or_ge m.stLen n with hlt | hle
      · have hbelow := hok.below
        have hlen := hok.len
        have hpos' := hok.pos
        have hrange : ∀ x, InRange a m.stLen x ↔ m.Covers x := fun x => by
          rw [inRange_iff (by omega), Mapn.Covers, hbegin]
        have hbehind : ¬Crossed (mmapDelete s m) ((a + m.stLen) % 2 ^ 64) := by
          rintro ⟨k, hk, hlt, hgt⟩
          obtain ⟨hks, hne⟩ := (h.mem_delete hm).mp hk
          rcases h.apart hks hm hne with hkm | hmk <;> omega
        unfold pageSize at hlen
        obtain ⟨r, hr, hswept⟩ := @ih _ _ (n - m.stLen) (h.delete (m := m))
          (fun k hk => hplain k (List.mem_of_mem_erase hk)) (by omega) (Nat.mod_lt _ (by omega))
          (by omega) (by omega) (by omega) hbehind (by omega)
        refine ⟨r, ?_, hswept.advance hpos' hlt hn' ha' (fun x v => ?_) ?_⟩
        · unfold munmapFrom
          rw [if_neg (Nat.not_lt.mpr hlt.le), if_pos hlt, hr]
        · rw [h.view_delete hm, hrange]
        · rw [h.crossed_delete hm, and_iff_left]
          rintro ⟨hlt, hgt⟩
          omega
      · subst hbegin
        exact h.sweep_last hm hn hpos hle _

/-- The promise is kept exactly where the range shows no mapping, or the split at its begin fails,
or it ends well. -/
def Promised (splitOk : ℕ → Bool) (s : List Mapn) (a n : ℕ) (r : Bool × List Mapn) : Prop :=
  Exact splitOk s a n r ↔
    (∀ x, InRange a n x → ¬Mapped s x) ∨ SplitFails splitOk s a ∨ EndsWell splitOk s a n

theorem Swept.promised (hswept : Swept splitOk s a n r) (h : Granular s) (ha : a < 2 ^ 64)
    (hpos : 0 < n) (hn : n < 2 ^ 64) (hleft : ¬SplitFails splitOk s a)
    (hspan : SplitFails splitOk s ((a + n) % 2 ^ 64) →
      ¬∃ m ∈ s, m.pvAddr < a ∧ a + n < m.pvAddr + m.stLen) : Promised splitOk s a n r := by
  by_cases hfail : SplitFails splitOk s ((a + n) % 2 ^ 64)
  · obtain ⟨m, hm, hlt, hgt⟩ := hfail.1
    have hbelow := (h.ok m hm).below
    have hlast : Mapped s ((a + n - 1) % 2 ^ 64) := ⟨m, hm, by omega, by omega⟩
    have hin : InRange a n ((a + n - 1) % 2 ^ 64) := by
      unfold InRange
      omega
    refine iff_of_false (fun hexact => ?_) ?_
    · exact hswept.torn hfail (hexact.done (hswept.status.mpr hlast))
    · rintro (hnone | hleft' | hends)
      · exact hnone _ hin hlast
      · exact hleft hleft'
      · exact hspan hfail (hends.2 hfail)
  · have hremoved := hswept.removed hfail
    by_cases hlast : Mapped s ((a + n - 1) % 2 ^ 64)
    · have hdone := hswept.status.mpr hlast
      have hnot : r.1 ≠ false := by rw [hdone]; exact Bool.noConfusion
      exact iff_of_true ⟨fun _ => hremoved, fun hf => absurd hf hnot, fun hf => absurd hf hnot⟩
        (Or.inr (Or.inr ⟨hlast, fun hf => absurd hf hfail⟩))
    · have hrefused : r.1 = false := Bool.eq_false_iff.mpr fun hr => hlast (hswept.status.mp hr)
      have hmapped : ∀ x, Mapped r.2 x ↔ Mapped s x ∧ ¬InRange a n x := fun x => by
        rw [mapped_iff, mapped_iff, ← exists_and_right]
        exact exists_congr fun v => hremoved x v
      constructor
      · intro hexact
        left
        intro x hin hx
        exact ((hmapped x).mp ((hexact.kept hrefused x).mpr hx)).2 hin
      · rintro (hnone | hleft' | hends)
        · refine ⟨fun hd => absurd (hrefused.symm.trans hd) Bool.false_ne_true, fun _ x => ?_,
            fun _ ⟨x, hin, hx⟩ => absurd hx (hnone x hin)⟩
          rw [hmapped, and_iff_left_of_imp]
          exact fun hx hin => hnone x hin hx
        · exact absurd hleft' hleft
        · exact absurd hends.1 hlast

theorem promised_refused (h : SplitFails splitOk s a ∨
    EndsWell splitOk s a n ∧ SplitFails splitOk s ((a + n) % 2 ^ 64)) :
    Promised splitOk s a n (false, s) :=
  iff_of_true ⟨fun hd => absurd hd Bool.false_ne_true, fun _ _ => Iff.rfl,
    fun _ _ => h.imp_right And.right⟩ (Or.inr (h.imp_right And.left))

theorem munmapFrom_left {l : Mapn} (goon : List Mapn → ℕ → ℕ → Option (Bool × List Mapn))
    (hok : n < m.stLen → splitOk (m.pvAddr + n) = true) :
    munmapFrom splitOk goon (some l) m s a n = munmapFrom splitOk goon none m s a n := by
  unfold munmapFrom
  split_ifs with hlt
  · rw [mmapSplit, if_pos (hok hlt)]
  · rfl
  · rfl

theorem Cut.swept (hcut : Cut s m c s') (hne : (a + n) % 2 ^ 64 ≠ m.pvAddr + c)
    (h : Swept splitOk s' a n r) : Swept splitOk s a n r := by
  have hfails : SplitFails splitOk s' ((a + n) % 2 ^ 64) ↔
      SplitFails splitOk s ((a + n) % 2 ^ 64) :=
    and_congr_left fun _ => (hcut.crossed _).trans (and_iff_left hne)
  have hremoved : Removed s' r.2 a n ↔ Removed s r.2 a n := by
    unfold Removed
    simp only [hcut.view]
  refine ⟨?_, fun hnot => ?_, fun hfail => ?_⟩
  · rw [h.status, mapped_iff, mapped_iff]
    exact exists_congr (hcut.view _)
  · exact hremoved.mp (h.removed (hfails.not.mpr hnot))
  · exact fun hrem => h.torn (hfails.mpr hfail) (hremoved.mpr hrem)

theorem vmmMunmap_eq (ha : pageSize ∣ a) (hn : pageSize ∣ n) (hpos : 0 < n) (hn' : n < 2 ^ 64) :
    vmmMunmap splitOk s a n = munmapLoop splitOk (n / pageSize) s a n := by
  have hround : roundUp n = n := by
    unfold roundUp
    unfold pageSize at *
    omega
  have hgo : ¬(¬pageSize ∣ a ∨ n = 0) := by
    rintro (hnot | hzero)
    · exact hnot ha
    · omega
  rw [vmmMunmap, if_neg hgo, hround]

theorem Cut.promised {fuel : ℕ} (hcut : Cut s m (a - m.pvAddr) s') (h : Granular s)
    (hplain : Plain s) (hm : m ∈ s) (hlt : m.pvAddr < a) (hgt : a < m.pvAddr + m.stLen)
    (hsplit : splitOk a = true) (ha : pageSize ∣ a) (ha' : a < 2 ^ 64) (hn : pageSize ∣ n)
    (hpos : 0 < n) (hn' : n < 2 ^ 64) (hfuel : n ≤ pageSize * (fuel + 1)) :
    ∃ r, munmapFrom splitOk (munmapLoop splitOk fuel) (some (m.left (a - m.pvAddr)))
      (m.right (a - m.pvAddr)) s' a n = some r ∧ Promised splitOk s a n r := by
  have hok := h.ok m hm
  have hbelow := hok.below
  have hright : (m.right (a - m.pvAddr)).pvAddr = a := Nat.add_sub_of_le hlt.le
  have hlen : a + (m.right (a - m.pvAddr)).stLen = m.pvAddr + m.stLen := by
    change a + (m.stLen - (a - m.pvAddr)) = _
    omega
  by_cases hspan : n < (m.right (a - m.pvAddr)).stLen ∧ splitOk (a + n) = false
  · have hend : (a + n) % 2 ^ 64 = a + n := Nat.mod_eq_of_lt (by omega)
    have hlast : Mapped s ((a + n - 1) % 2 ^ 64) := ⟨m, hm, by omega, by omega⟩
    have hfails : SplitFails splitOk s ((a + n) % 2 ^ 64) := by
      rw [hend]
      exact ⟨⟨m, hm, by omega, by omega⟩, hspan.2⟩
    have hnone : mmapSplit splitOk s' (m.right (a - m.pvAddr)) n = none := by
      rw [mmapSplit, hright, hspan.2]
      rfl
    refine ⟨(false, s), ?_, promised_refused (Or.inr ⟨⟨hlast, fun _ => ⟨m, hm, hlt, ?_⟩⟩, hfails⟩)⟩
    · unfold munmapFrom
      rw [if_pos hspan.1, hnone]
      exact congrArg (fun s => some (false, s)) hcut.merged
    · omega
  · have hfind : mapnFindCur s' a = some (m.right (a - m.pvAddr)) :=
      hcut.granular.mapnFindCur_eq hcut.right ⟨hright.le, by omega⟩
    have hnone : cutLeft splitOk s' (m.right (a - m.pvAddr)) a =
        some (none, m.right (a - m.pvAddr), s') := if_neg (not_not.mpr hright)
    have hnot : ¬Crossed s' a := fun hcrossed => ((hcut.crossed a).mp hcrossed).2 hright.symm
    obtain ⟨r, hr, hswept⟩ := @Granular.sweep splitOk _ _ _ hcut.granular (hcut.plain hplain) ha
      ha' hn hpos hn' hnot (fuel + 1) hfuel
    rw [munmapLoop_found hfind (hplain m hm) hnone] at hr
    refine ⟨r, ?_, (hcut.swept (by omega) hswept).promised h ha' hpos hn' ?_ ?_⟩
    · rw [munmapFrom_left _ fun hlt => ?_, hr]
      rw [hright]
      exact Bool.of_not_eq_false fun hno => hspan ⟨hlt, hno⟩
    · exact fun hfails => Bool.false_ne_true (hfails.2.symm.trans hsplit)
    · rintro hfails ⟨k, hk, hlt', hgt'⟩
      have hkm : k = m := by
        by_contra hne
        rcases h.apart hk hm hne with hkm | hmk <;> omega
      subst hkm
      refine hspan ⟨by omega, ?_⟩
      rw [← hfails.2, Nat.mod_eq_of_lt (by omega)]

/-- The call keeps its promise exactly where the range shows no mapping, the split at its begin
fails, or it ends well. -/
theorem munmap_exact_iff (h : Granular s) (hplain : Plain s) (ha : pageSize ∣ a)
    (ha' : a < 2 ^ 64) (hn : pageSize ∣ n) (hn' : n < 2 ^ 64) :
    ∃ r, vmmMunmap splitOk s a n = some r ∧ (Exact splitOk s a n r ↔
      (∀ x, InRange a n x → ¬Mapped s x) ∨ SplitFails splitOk s a ∨ EndsWell splitOk s a n) := by
  rcases Nat.eq_zero_or_pos n with rfl | hpos
  · have hempty : ∀ x, ¬InRange a 0 x := fun x hin => Nat.not_lt_zero _ hin.2
    refine ⟨(false, s), if_pos (Or.inr rfl), iff_of_true ⟨fun hd => absurd hd Bool.false_ne_true,
      fun _ _ => Iff.rfl, fun _ ⟨x, hin, _⟩ => absurd hin (hempty x)⟩ ?_⟩
    exact Or.inl fun x hin => absurd hin (hempty x)
  obtain ⟨fuel, hfuel⟩ : ∃ fuel, n / pageSize = fuel + 1 := by
    refine ⟨n / pageSize - 1, ?_⟩
    unfold pageSize at *
    omega
  have henough : n ≤ pageSize * (fuel + 1) := by
    rw [← hfuel]
    exact (Nat.mul_div_cancel' hn).ge
  rw [vmmMunmap_eq ha hn hpos hn', hfuel]
  by_cases hcross : Crossed s a
  · obtain ⟨m, hm, hlt, hgt⟩ := hcross
    have hmplain := hplain m hm
    have hfind := h.mapnFindCur_eq hm ⟨hlt.le, hgt⟩
    have hbegin : m.pvAddr + (a - m.pvAddr) = a := Nat.add_sub_of_le hlt.le
    cases hsplit : splitOk a with
    | false =>
      have hfails : SplitFails splitOk s a := ⟨⟨m, hm, hlt, hgt⟩, hsplit⟩
      have hcut : cutLeft splitOk s m a = none := by
        rw [cutLeft, if_pos hlt.ne, mmapSplit, hbegin, hsplit]
        rfl
      refine ⟨(false, s), ?_, promised_refused (Or.inl hfails)⟩
      simp only [munmapLoop, hfind, hmplain, Bool.false_eq_true, false_and, if_false, hcut]
    | true =>
      have hok : splitOk (m.pvAddr + (a - m.pvAddr)) = true := by rw [hbegin, hsplit]
      obtain ⟨s', hhalves, hcut⟩ := h.cut hm (Nat.sub_pos_of_lt hlt) (by omega)
        (Nat.dvd_sub ha (h.ok m hm).addr) hok
      have hcutLeft : cutLeft splitOk s m a =
          some (some (m.left (a - m.pvAddr)), m.right (a - m.pvAddr), s') := by
        rw [cutLeft, if_pos hlt.ne, hhalves]
        rfl
      rw [munmapLoop_found hfind hmplain hcutLeft]
      exact hcut.promised h hplain hm hlt hgt hsplit ha ha' hn hpos hn' henough
  · obtain ⟨r, hr, hswept⟩ := @Granular.sweep splitOk _ _ _ h hplain ha ha' hn hpos hn' hcross _
      henough
    refine ⟨r, hr, hswept.promised h ha' hpos hn' (fun hfails => hcross hfails.1) ?_⟩
    rintro - ⟨m, hm, hlt, hgt⟩
    exact hcross ⟨m, hm, hlt, by omega⟩

def twoPages : Mapn where
  pvAddr := 4096
  stLen := 8192
  ulFlag := 5
  iFd := 3
  reg := true
  off := 0
  offFSize := 8192
  shared := true
  prealloc := false

theorem granular_one : Granular [twoPages] :=
  ⟨List.pairwise_singleton _ _, fun m hm => by
    rw [List.mem_singleton.mp hm]
    exact ⟨by decide, by decide, by decide, by decide⟩⟩

theorem plain_one : Plain [twoPages] := fun m hm => by
  rw [List.mem_singleton.mp hm]
  rfl

/-- The second of two pages is taken away. -/
theorem munmap_exact_second : ∃ r,
    vmmMunmap (fun _ => true) [twoPages] 8192 4096 = some r ∧
      (Exact (fun _ => true) [twoPages] 8192 4096 r ↔
        (∀ x, InRange 8192 4096 x → ¬Mapped [twoPages] x) ∨
          SplitFails (fun _ => true) [twoPages] 8192 ∨
          EndsWell (fun _ => true) [twoPages] 8192 4096) :=
  munmap_exact_iff granular_one plain_one (by decide) (by decide) (by decide) (by decide)

/-- The range ends in a hole: the mapping is deleted, and the call returns `PX_ERROR`. -/
theorem munmap_hole_deletes : Granular [twoPages] ∧ Plain [twoPages] ∧
    ¬∃ r, vmmMunmap (fun _ => true) [twoPages] 4096 12288 = some r ∧
      Exact (fun _ => true) [twoPages] 4096 12288 r := by
  refine ⟨granular_one, plain_one, ?_⟩
  rintro ⟨r, hr, hexact⟩
  have heq : (false, []) = r := Option.some.inj hr
  subst heq
  obtain ⟨m, hm, -⟩ := (hexact.kept rfl 4096).mpr ⟨_, List.mem_cons_self, by decide, by decide⟩
  exact absurd hm List.not_mem_nil

end SylixOS.VmmMmap
