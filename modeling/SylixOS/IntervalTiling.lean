import Mathlib.Algebra.BigOperators.Group.List.Basic
import Mathlib.Data.List.Chain
import Mathlib.Algebra.GroupWithZero.Nat
import Mathlib.Logic.Function.Basic
import Mathlib.Algebra.Order.BigOperators.Group.Finset
import Mathlib.Order.Interval.Finset.Nat

/-! Contiguous tilings of an interval of addresses. A tile starts at its address,
carries a fixed overhead and then as many bytes as `size` gives it; the tiles of a
list follow each other without a gap. -/

namespace SylixOS.IntervalTiling
open Function

variable {gap : Nat} {size : Nat → Nat}

def Tiles (gap : Nat) (size : Nat → Nat) : Nat → List Nat → Nat → Prop
  | start, [], stop => start = stop
  | start, a :: t, stop => a = start ∧ Tiles gap size (a + gap + size a) t stop

theorem sum_update_of_mem (size : Nat → Nat) {l : List Nat} (nodup : l.Nodup) {a v : Nat} (mem : a ∈ l) :
    (l.map (update size a v)).sum + size a = (l.map size).sum + v := by
  induction l with
  | nil => simp at mem
  | cons b t ih =>
    obtain ⟨hb, ht⟩ := List.nodup_cons.mp nodup
    simp only [List.map_cons, List.sum_cons]
    rcases List.mem_cons.mp mem with rfl | hat
    · have keep : t.map (update size a v) = t.map size := by
        refine List.map_congr_left ?_
        intro x hx
        have hxa : x ≠ a := fun e => hb (e ▸ hx)
        exact update_of_ne hxa _ _
      rw [keep, update_self]
      omega
    · have hba : b ≠ a := fun e => hb (e ▸ hat)
      have rest := ih ht hat
      rw [update_of_ne hba]
      omega

/-! ## Tiles that know their address

The tiles are records of any kind, with an address and a length. -/

section Covers

variable {α : Type*} {addr len addr' len' : α → Nat}

def Covers (addr len : α → Nat) : Nat → List α → Nat → Prop
  | start, [], stop => start = stop
  | start, a :: t, stop => addr a = start ∧ Covers addr len (start + len a) t stop

theorem covers_append (start stop : Nat) (s t : List α) :
    Covers addr len start (s ++ t) stop ↔
      ∃ mid, Covers addr len start s mid ∧ Covers addr len mid t stop := by
  induction s generalizing start with
  | nil => simp [Covers]
  | cons a s ih => simp [Covers, ih, and_assoc]

theorem Covers.congr {start stop : Nat} {l : List α} (covers : Covers addr len start l stop)
    (same : ∀ a ∈ l, addr' a = addr a ∧ len' a = len a) : Covers addr' len' start l stop := by
  induction l generalizing start with
  | nil => exact covers
  | cons a t ih =>
    obtain ⟨here, rest⟩ := covers
    obtain ⟨haddr, hlen⟩ := same a (by simp)
    refine ⟨haddr.trans here, ?_⟩
    rw [hlen]
    exact ih rest fun b hb => same b (by simp [hb])

theorem Covers.dvd {start stop unit : Nat} {l : List α} (covers : Covers addr len start l stop)
    (hstart : unit ∣ start) (hlen : ∀ a ∈ l, unit ∣ len a) : ∀ a ∈ l, unit ∣ addr a := by
  induction l generalizing start with
  | nil => simp
  | cons a t ih =>
    obtain ⟨rfl, rest⟩ := covers
    intro b hb
    rcases List.mem_cons.mp hb with rfl | hb
    · exact hstart
    · have hnext := Nat.dvd_add hstart (hlen a (by simp))
      exact ih rest hnext (fun c hc => hlen c (by simp [hc])) b hb

theorem Covers.cut {start stop : Nat} {s t : List α} {a b : α} {m n : Nat}
    (covers : Covers addr len start (s ++ a :: t) stop) (whole : len a = m + n)
    (ha : addr' a = addr a ∧ len' a = m) (hb : addr' b = addr a + m ∧ len' b = n)
    (same : ∀ x ∈ s ++ t, addr' x = addr x ∧ len' x = len x) :
    Covers addr' len' start (s ++ a :: b :: t) stop := by
  obtain ⟨mid, left, here, right⟩ := (covers_append start stop s (a :: t)).mp covers
  have hs : ∀ x ∈ s, addr' x = addr x ∧ len' x = len x :=
    fun x hx => same x (List.mem_append_left t hx)
  have ht : ∀ x ∈ t, addr' x = addr x ∧ len' x = len x :=
    fun x hx => same x (List.mem_append_right s hx)
  refine (covers_append start stop s _).mpr ⟨mid, left.congr hs, ha.1.trans here, ?_, ?_⟩
  · rw [hb.1, here, ha.2]
  · rw [ha.2, hb.2, Nat.add_assoc, ← whole]
    exact right.congr ht

theorem Covers.join {start stop : Nat} {s t : List α} {a b : α}
    (covers : Covers addr len start (s ++ a :: b :: t) stop)
    (ha : addr' a = addr a ∧ len' a = len a + len b)
    (same : ∀ x ∈ s ++ t, addr' x = addr x ∧ len' x = len x) :
    Covers addr' len' start (s ++ a :: t) stop := by
  obtain ⟨mid, left, here, -, right⟩ := (covers_append start stop s (a :: b :: t)).mp covers
  have hs : ∀ x ∈ s, addr' x = addr x ∧ len' x = len x :=
    fun x hx => same x (List.mem_append_left t hx)
  have ht : ∀ x ∈ t, addr' x = addr x ∧ len' x = len x :=
    fun x hx => same x (List.mem_append_right s hx)
  refine (covers_append start stop s _).mpr ⟨mid, left.congr hs, ha.1.trans here, ?_⟩
  rw [ha.2, ← Nat.add_assoc]
  exact right.congr ht

end Covers

/-! ## Tiles scattered over the addresses

The tiles of a list have no address in common. Each starts where the one before it
in the list ends, unless it is marked as a start. -/

section Plots

structure Ground where
  bytes : Finset Nat
  starts : Set Nat

def Ground.extend (g : Ground) (n stop : Nat) : Ground :=
  ⟨g.bytes ∪ Finset.Ico n stop, insert n g.starts⟩

structure Plots (gap : Nat) (size : Nat → Nat) (g : Ground) (l : List Nat) : Prop where
  apart : l.Pairwise (fun a b => a + gap + size a ≤ b ∨ b + gap + size b ≤ a)
  joint : l.IsChain (fun a b => b ∈ g.starts ∨ a + gap + size a = b)
  mem_bytes : ∀ y, y ∈ g.bytes ↔ ∃ a ∈ l, a ≤ y ∧ y < a + gap + size a

variable {g : Ground} {l s t : List Nat} {a b n : Nat}

theorem Plots.congr {size' : Nat → Nat} (plots : Plots gap size g l)
    (same : ∀ a ∈ l, size' a = size a) : Plots gap size' g l := by
  refine ⟨plots.apart.imp_of_mem ?_, plots.joint.imp_of_mem_imp ?_, ?_⟩
  · intro a b ha hb apart
    rw [same a ha, same b hb]
    exact apart
  · intro a b ha _ joint
    rw [same a ha]
    exact joint
  · intro y
    rw [plots.mem_bytes]
    refine exists_congr fun a => and_congr_right fun ha => ?_
    rw [same a ha]

theorem Plots.apart_of_ne (plots : Plots gap size g l) (ha : a ∈ l) (hb : b ∈ l) (ne : a ≠ b) :
    a + gap + size a ≤ b ∨ b + gap + size b ≤ a := by
  have symmetric : Std.Symm (fun a b => a + gap + size a ≤ b ∨ b + gap + size b ≤ a) :=
    ⟨fun _ _ => Or.symm⟩
  exact plots.apart.forall ha hb ne

theorem Plots.eq_of_overlap (plots : Plots gap size g l) {x : Nat} (ha : a ∈ l) (hb : b ∈ l)
    (xa : a < x ∧ x ≤ a + gap + size a) (xb : b < x ∧ x ≤ b + gap + size b) : a = b := by
  by_contra ne
  have apart := plots.apart_of_ne ha hb ne
  omega

theorem Plots.nodup (plots : Plots gap size g l) (pos : 0 < gap) : l.Nodup := by
  refine plots.apart.imp ?_
  intro a b apart
  omega

theorem Plots.next (plots : Plots gap size g (s ++ a :: b :: t)) :
    b ∈ g.starts ∨ a + gap + size a = b := by
  have joint := plots.joint
  simp only [List.isChain_append, List.isChain_cons] at joint
  exact joint.2.1.1 b rfl

theorem Plots.card_eq (plots : Plots gap size g l) (pos : 0 < gap) :
    g.bytes.card = (l.map (fun a => gap + size a)).sum := by
  have cover : g.bytes = l.toFinset.biUnion (fun a => Finset.Ico a (a + gap + size a)) := by
    ext y
    rw [plots.mem_bytes]
    simp
  have disjoint : Set.PairwiseDisjoint (l.toFinset : Set Nat)
      (fun a => Finset.Ico a (a + gap + size a)) := by
    intro a ha b hb ne
    have apart := plots.apart_of_ne (List.mem_toFinset.mp ha) (List.mem_toFinset.mp hb) ne
    rw [Function.onFun, Finset.disjoint_left]
    intro y hya hyb
    rw [Finset.mem_Ico] at hya hyb
    omega
  rw [cover, Finset.card_biUnion disjoint, List.sum_toFinset _ (plots.nodup pos)]
  congr 1
  refine List.map_congr_left ?_
  intro a _
  rw [Nat.card_Ico]
  omega

theorem Plots.tiles (plots : Plots gap size g (a :: t)) (none : ∀ b ∈ t, b ∉ g.starts) :
    Tiles gap size a (a :: t) (a + ((a :: t).map (fun a => gap + size a)).sum) := by
  have joint := plots.joint
  clear plots
  induction t generalizing a with
  | nil => simp [Tiles, Nat.add_assoc]
  | cons b t ih =>
    rw [List.isChain_cons] at joint
    have touch : a + gap + size a = b :=
      (joint.1 b rfl).resolve_left (none b (by simp))
    have rest := ih (fun x hx => none x (by simp [hx])) joint.2
    rw [List.map_cons, List.sum_cons]
    refine ⟨rfl, ?_⟩
    rw [touch]
    have reach : a + (gap + size a + ((b :: t).map (fun a => gap + size a)).sum) =
        b + ((b :: t).map (fun a => gap + size a)).sum := by omega
    rw [reach]
    exact rest

theorem Plots.cut_fresh (plots : Plots gap size g l) (mem : a ∈ l) (lo : a < n)
    (hi : n < a + gap + size a) : n ∉ l := by
  intro hn
  have apart := plots.apart_of_ne mem hn (by omega)
  omega

theorem Plots.cut {st rest : Nat} (pos : 0 < gap) (plots : Plots gap size g (s ++ a :: t))
    (whole : size a = st + gap + rest) {size' : Nat → Nat} (ha : size' a = st)
    (hn : size' (a + gap + st) = rest)
    (same : ∀ b, b ≠ a → b ≠ a + gap + st → size' b = size b) :
    Plots gap size' g (s ++ a :: (a + gap + st) :: t) := by
  have fresh : a + gap + st ∉ s ++ a :: t :=
    plots.cut_fresh (a := a) (by simp) (by omega) (by omega)
  generalize hm : a + gap + st = n at hn same fresh ⊢
  have others : ∀ b ∈ s ++ t, b ≠ a ∧ size' b = size b := by
    intro b hb
    have nodup := plots.nodup pos
    rw [List.nodup_middle, List.nodup_cons] at nodup
    have hba : b ≠ a := fun e => nodup.1 (e ▸ hb)
    refine ⟨hba, same b hba fun e => fresh ?_⟩
    rw [← e]
    simp only [List.mem_append, List.mem_cons] at hb ⊢
    tauto
  have around : ∀ b ∈ s ++ t, a + gap + size a ≤ b ∨ b + gap + size b ≤ a := by
    intro b hb
    refine plots.apart_of_ne (by simp) ?_ (others b hb).1.symm
    simp only [List.mem_append, List.mem_cons] at hb ⊢
    tauto
  constructor
  · have pairs := plots.apart
    simp only [List.pairwise_append, List.pairwise_cons, List.mem_cons] at pairs ⊢
    obtain ⟨left, ⟨_, right⟩, across⟩ := pairs
    refine ⟨?_, ⟨?_, ?_, ?_⟩, ?_⟩
    · refine left.imp_of_mem ?_
      intro x y hx hy apart
      rw [(others x (by simp [hx])).2, (others y (by simp [hy])).2]
      exact apart
    · rintro b (rfl | hb)
      · exact Or.inl (by omega)
      · rw [ha, (others b (by simp [hb])).2]
        have apart := around b (by simp [hb])
        omega
    · intro b hb
      rw [hn, (others b (by simp [hb])).2]
      have apart := around b (by simp [hb])
      omega
    · refine right.imp_of_mem ?_
      intro x y hx hy apart
      rw [(others x (by simp [hx])).2, (others y (by simp [hy])).2]
      exact apart
    · rintro x hx b (rfl | rfl | hb)
      · rw [(others x (by simp [hx])).2, ha]
        have apart := around x (by simp [hx])
        omega
      · rw [(others x (by simp [hx])).2, hn]
        have apart := around x (by simp [hx])
        omega
      · rw [(others x (by simp [hx])).2, (others b (by simp [hb])).2]
        exact across x hx b (Or.inr hb)
  · have joint := plots.joint
    simp only [List.isChain_append, List.isChain_cons] at joint ⊢
    obtain ⟨left, ⟨first, right⟩, last⟩ := joint
    refine ⟨?_, ⟨?_, ?_, ?_⟩, ?_⟩
    · refine left.imp_of_mem_imp ?_
      intro x y hx _ next
      rw [(others x (by simp [hx])).2]
      exact next
    · intro y hy
      have hyn : y = n := by simpa using hy.symm
      exact Or.inr (by omega)
    · intro y hy
      refine (first y hy).imp_right ?_
      omega
    · refine right.imp_of_mem_imp ?_
      intro x y hx _ next
      rw [(others x (by simp [hx])).2]
      exact next
    · intro x hx y hy
      rw [(others x (by simp [List.mem_of_getLast? hx])).2]
      exact last x hx y hy
  · intro y
    rw [plots.mem_bytes]
    constructor
    · rintro ⟨b, hb, lo, hi⟩
      by_cases hba : b = a
      · subst hba
        rcases Nat.lt_or_ge y n with before | behind
        · exact ⟨b, by simp, lo, by omega⟩
        · exact ⟨n, by simp, behind, by omega⟩
      · have side : b ∈ s ++ t := by
          simp only [List.mem_append, List.mem_cons] at hb ⊢
          tauto
        refine ⟨b, ?_, lo, by rw [(others b side).2]; exact hi⟩
        simp only [List.mem_append, List.mem_cons] at side ⊢
        tauto
    · rintro ⟨b, hb, lo, hi⟩
      simp only [List.mem_append, List.mem_cons] at hb
      rcases hb with hb | rfl | rfl | hb
      · exact ⟨b, by simp [hb], lo, by rw [← (others b (by simp [hb])).2]; exact hi⟩
      · exact ⟨b, by simp, lo, by omega⟩
      · exact ⟨a, by simp, by omega, by omega⟩
      · exact ⟨b, by simp [hb], lo, by rw [← (others b (by simp [hb])).2]; exact hi⟩

theorem Plots.join (pos : 0 < gap) (plots : Plots gap size g (s ++ a :: b :: t))
    (touch : a + gap + size a = b) {size' : Nat → Nat} (ha : size' a = size a + gap + size b)
    (same : ∀ x, x ≠ a → size' x = size x) : Plots gap size' g (s ++ a :: t) := by
  have hba : b ≠ a := by omega
  have others : ∀ x ∈ s ++ t, x ≠ a ∧ x ≠ b ∧ size' x = size x := by
    intro x hx
    have nodup := plots.nodup pos
    rw [List.nodup_middle, List.nodup_cons, List.nodup_middle, List.nodup_cons] at nodup
    have hxa : x ≠ a := by
      rintro rfl
      refine nodup.1 ?_
      simp only [List.mem_append, List.mem_cons] at hx ⊢
      tauto
    exact ⟨hxa, fun e => nodup.2.1 (e ▸ hx), same x hxa⟩
  have around : ∀ x ∈ s ++ t,
      (a + gap + size a ≤ x ∨ x + gap + size x ≤ a) ∧ (b + gap + size b ≤ x ∨ x + gap + size x ≤ b) := by
    intro x hx
    have mem : x ∈ s ++ a :: b :: t := by
      simp only [List.mem_append, List.mem_cons] at hx ⊢
      tauto
    obtain ⟨hxa, hxb, _⟩ := others x hx
    exact ⟨plots.apart_of_ne (by simp) mem hxa.symm, plots.apart_of_ne (by simp) mem hxb.symm⟩
  constructor
  · have pairs := plots.apart
    simp only [List.pairwise_append, List.pairwise_cons, List.mem_cons] at pairs ⊢
    obtain ⟨left, ⟨_, _, right⟩, across⟩ := pairs
    refine ⟨?_, ⟨?_, ?_⟩, ?_⟩
    · refine left.imp_of_mem ?_
      intro x y hx hy apart
      rw [(others x (by simp [hx])).2.2, (others y (by simp [hy])).2.2]
      exact apart
    · intro x hx
      rw [ha, (others x (by simp [hx])).2.2]
      have apart := around x (by simp [hx])
      omega
    · refine right.imp_of_mem ?_
      intro x y hx hy apart
      rw [(others x (by simp [hx])).2.2, (others y (by simp [hy])).2.2]
      exact apart
    · rintro x hx y (rfl | hy)
      · rw [ha, (others x (by simp [hx])).2.2]
        have apart := around x (by simp [hx])
        omega
      · rw [(others x (by simp [hx])).2.2, (others y (by simp [hy])).2.2]
        exact across x hx y (Or.inr (Or.inr hy))
  · have joint := plots.joint
    simp only [List.isChain_append, List.isChain_cons] at joint ⊢
    obtain ⟨left, ⟨_, first, right⟩, last⟩ := joint
    refine ⟨?_, ⟨?_, ?_⟩, ?_⟩
    · refine left.imp_of_mem_imp ?_
      intro x y hx _ next
      rw [(others x (by simp [hx])).2.2]
      exact next
    · intro y hy
      refine (first y hy).imp_right ?_
      omega
    · refine right.imp_of_mem_imp ?_
      intro x y hx _ next
      rw [(others x (by simp [hx])).2.2]
      exact next
    · intro x hx y hy
      rw [(others x (by simp [List.mem_of_getLast? hx])).2.2]
      exact last x hx y hy
  · intro y
    rw [plots.mem_bytes]
    constructor
    · rintro ⟨x, hx, lo, hi⟩
      simp only [List.mem_append, List.mem_cons] at hx
      rcases hx with hx | rfl | rfl | hx
      · exact ⟨x, by simp [hx], lo, by rw [(others x (by simp [hx])).2.2]; exact hi⟩
      · exact ⟨x, by simp, lo, by omega⟩
      · exact ⟨a, by simp, by omega, by omega⟩
      · exact ⟨x, by simp [hx], lo, by rw [(others x (by simp [hx])).2.2]; exact hi⟩
    · rintro ⟨x, hx, lo, hi⟩
      by_cases hxa : x = a
      · subst hxa
        rcases Nat.lt_or_ge y b with before | behind
        · exact ⟨x, by simp, lo, by omega⟩
        · exact ⟨b, by simp, behind, by omega⟩
      · have side : x ∈ s ++ t := by
          simp only [List.mem_append, List.mem_cons] at hx ⊢
          tauto
        refine ⟨x, ?_, lo, by rw [← (others x side).2.2]; exact hi⟩
        simp only [List.mem_append, List.mem_cons] at side ⊢
        tauto

theorem plots_singleton (gap : Nat) (size : Nat → Nat) (starts : Set Nat) (a : Nat) :
    Plots gap size ⟨Finset.Ico a (a + gap + size a), starts⟩ [a] := by
  refine ⟨List.pairwise_singleton _ a, List.isChain_singleton a, ?_⟩
  intro y
  rw [Finset.mem_Ico]
  simp

theorem Plots.extend (plots : Plots gap size g l)
    (apart : ∀ a ∈ l, a + gap + size a ≤ n ∨ n + gap + size n ≤ a) :
    Plots gap size (g.extend n (n + gap + size n)) (l ++ [n]) := by
  constructor
  · refine List.pairwise_append.mpr ⟨plots.apart, List.pairwise_singleton _ n, ?_⟩
    intro a ha b hb
    rw [List.mem_singleton.mp hb]
    exact apart a ha
  · refine List.isChain_append.mpr ⟨?_, List.isChain_singleton n, ?_⟩
    · exact plots.joint.imp fun _ _ => Or.imp_left (Set.mem_insert_of_mem n)
    · intro a _ b hb
      have hbn : b = n := by simpa using hb.symm
      exact Or.inl (hbn ▸ Set.mem_insert n g.starts)
  · intro y
    rw [Ground.extend, Finset.mem_union, plots.mem_bytes, Finset.mem_Ico]
    constructor
    · rintro (⟨a, ha, inside⟩ | inside)
      · exact ⟨a, by simp [ha], inside⟩
      · exact ⟨n, by simp, inside⟩
    · rintro ⟨a, ha, inside⟩
      rcases List.mem_append.mp ha with ha | ha
      · exact Or.inl ⟨a, ha, inside⟩
      · exact Or.inr (List.mem_singleton.mp ha ▸ inside)

end Plots

end SylixOS.IntervalTiling
