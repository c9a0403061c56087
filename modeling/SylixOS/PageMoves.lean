import Mathlib.Data.Set.Insert
import SylixOS.PageLayout

/-! The statements of a call, one after the other: in the middle of a call the
counter of the free pages and the marks of the free blocks may be behind, but the
lists are in order, and all other zones are as they were. -/

namespace SylixOS.PageLib
open LinkedChain ListLink IntervalTiling

variable {Z P : Type*} {cfg : Config} {s s₀ s' : Store Z P} {z : Z} {blocks l t : List P}
  {free idle : Set P} {p new : P} {i n : ℕ}

structure Store.SameBlock (s s₀ : Store Z P) (p : P) : Prop where
  manage : s.lineManage.next p = s₀.lineManage.next p ∧
    s.lineManage.prev p = s₀.lineManage.prev p
  hash : s.lineFreeHash.next p = s₀.lineFreeHash.next p ∧
    s.lineFreeHash.prev p = s₀.lineFreeHash.prev p
  count : s.ulCount p = s₀.ulCount p
  addr : s.ulPageAddr p = s₀.ulPageAddr p
  used : s.bUsed p = s₀.bUsed p
  owner : s.pvmzoneOwner p = s₀.pvmzoneOwner p
  allocated : s.allocated p = s₀.allocated p

structure Store.SameZone (s s₀ : Store Z P) (z : Z) : Prop where
  created : s.created z = s₀.created z
  freePage : s.ulFreePage z = s₀.ulFreePage z
  addr : s.ulAddr z = s₀.ulAddr z
  size : s.stSize z = s₀.stSize z
  header : s.lineFreeHeader z = s₀.lineFreeHeader z
  areaCount : s.faCount z = s₀.faCount z

def Store.Foreign (s : Store Z P) (z : Z) (p : P) : Prop :=
  s.allocated p = true ∧ s.pvmzoneOwner p ≠ z

theorem Store.AreaOk.congr (h : s₀.AreaOk cfg z free i)
    (links : ∀ p ∈ free, pageFreeHashIndex cfg (s₀.ulCount p) = i →
      s.lineFreeHash.next p = s₀.lineFreeHash.next p ∧
      s.lineFreeHash.prev p = s₀.lineFreeHash.prev p)
    (header : s.lineFreeHeader z i = s₀.lineFreeHeader z i)
    (number : s.faCount z i = s₀.faCount z i)
    (count : ∀ p ∈ free, s.ulCount p = s₀.ulCount p) : s.AreaOk cfg z free i := by
  obtain ⟨l, line, head, length, mem⟩ := h
  refine ⟨l, line.congr fun p hp => ?_, header.trans head, number.trans length, fun p => ?_⟩
  · exact links p ((mem p).mp hp).1 ((mem p).mp hp).2
  · rw [mem p]
    refine and_congr_right fun hp => ?_
    rw [count p hp]

theorem Zone.congr (h : Zone cfg s₀ z blocks) (same : ∀ p ∈ blocks, s.SameBlock s₀ p)
    (zone : s.SameZone s₀ z)
    (owned : ∀ p, p ∈ blocks ↔ s.allocated p = true ∧ s.pvmzoneOwner p = z) :
    Zone cfg s z blocks where
  line := h.line.congr fun p hp => (same p hp).manage
  owned := owned
  covers := by
    unfold Store.CoversZone
    rw [zone.addr, zone.size]
    refine h.covers.congr fun p hp => ⟨(same p hp).addr, ?_⟩
    rw [(same p hp).count]
  freePage := by
    rw [zone.freePage, h.freePage]
    exact (freePages_congr fun p hp => ⟨(same p hp).used, (same p hp).count⟩).symm
  areas i hi := by
    have hfree : s.freeBlocks blocks = s₀.freeBlocks blocks := by
      ext p
      refine and_congr_right fun hp => ?_
      rw [(same p hp).used]
    rw [hfree]
    apply (h.areas i hi).congr
    · exact fun p hp _ => (same p hp.1).hash
    · rw [zone.header]
    · rw [zone.areaCount]
    · exact fun p hp => (same p hp.1).count
  parted := by
    refine List.IsChain.imp_of_mem_imp (fun p q hp hq hpq => ?_) h.parted
    rw [(same p hp).used, (same q hq).used]
    exact hpq

structure Work (cfg : Config) (s₀ : Store Z P) (z : Z) (s : Store Z P) (blocks : List P)
    (free idle : Set P) : Prop where
  foreign : ∀ p, s₀.Foreign z p → s.SameBlock s₀ p
  zones : ∀ y ≠ z, s.SameZone s₀ y
  created : s.created z = true
  line : IsLine s.lineManage blocks
  covers : s.CoversZone cfg z blocks
  native : ∀ p ∈ blocks, ¬ s₀.Foreign z p ∧ s.pvmzoneOwner p = z
  taken : ∀ p, ¬ s₀.Foreign z p → (s.allocated p = true ↔ p ∈ blocks ∨ p ∈ idle)
  unused : ∀ p ∈ idle, ¬ s₀.Foreign z p ∧ p ∉ blocks
  hashed : ∀ p ∈ free, p ∈ blocks
  areas : ∀ i < cfg.maxOrder, s.AreaOk cfg z free i

theorem Zone.work (h : Zone cfg s z blocks) (hz : s.created z = true) :
    Work cfg s z s blocks (s.freeBlocks blocks) ∅ where
  foreign p hp := ⟨⟨rfl, rfl⟩, ⟨rfl, rfl⟩, rfl, rfl, rfl, rfl, rfl⟩
  zones y hy := ⟨rfl, rfl, rfl, rfl, rfl, rfl⟩
  created := hz
  line := h.line
  covers := h.covers
  native p hp := ⟨fun hforeign => hforeign.2 ((h.owned p).mp hp).2, ((h.owned p).mp hp).2⟩
  taken p hp := by
    constructor
    · intro ha
      left
      refine (h.owned p).mpr ⟨ha, ?_⟩
      by_contra howner
      exact hp ⟨ha, howner⟩
    · rintro (hin | hin)
      · exact ((h.owned p).mp hin).1
      · exact hin.elim
  unused p hp := hp.elim
  hashed p hp := hp.1
  areas := h.areas

theorem Work.taken_iff (h : Work cfg s₀ z s blocks free ∅) (hp : ¬ s₀.Foreign z p) :
    s.allocated p = true ↔ p ∈ blocks := by
  rw [h.taken p hp]
  simp

theorem Work.zone (h : Work cfg s₀ z s blocks free ∅)
    (hfree : ∀ p ∈ blocks, p ∈ free ↔ s.bUsed p = false)
    (freePage : s.ulFreePage z = s.freePages blocks) (parted : s.Parted blocks) :
    Zone cfg s z blocks where
  line := h.line
  owned p := by
    by_cases hp : s₀.Foreign z p
    · refine iff_of_false (fun hin => (h.native p hin).1 hp) fun hown => ?_
      exact hp.2 ((h.foreign p hp).owner ▸ hown.2)
    · rw [h.taken_iff hp]
      exact ⟨fun hin => ⟨hin, (h.native p hin).2⟩, fun hin => hin.1⟩
  covers := h.covers
  freePage := freePage
  areas := by
    have heq : s.freeBlocks blocks = free := by
      ext p
      constructor
      · exact fun hp => (hfree p hp.1).mpr hp.2
      · exact fun hp => ⟨h.hashed p hp, (hfree p (h.hashed p hp)).mp hp⟩
    rw [heq]
    exact h.areas
  parted := parted

theorem Work.finish (h : Work cfg s₀ z s blocks free ∅) (hzone : Zone cfg s z blocks)
    (ok : s₀.Ok cfg) : s.Ok cfg := by
  intro y
  by_cases hy : y = z
  · subst hy
    rw [if_pos h.created]
    exact ⟨blocks, hzone⟩
  · have hsame := h.zones y hy
    -- a block of the zone `y`, before or after the call, is not touched by it
    have hown : ∀ p, s.allocated p = true → s.pvmzoneOwner p = y → s₀.Foreign z p := by
      intro p ha howner
      by_contra hp
      have hin := (h.taken_iff hp).mp ha
      exact hy (howner ▸ (h.native p hin).2)
    have hok := ok y
    rw [hsame.created]
    by_cases hcreated : s₀.created y = true
    · rw [if_pos hcreated] at hok ⊢
      obtain ⟨blocks', hb⟩ := hok
      have hforeign : ∀ p ∈ blocks', s₀.Foreign z p := by
        intro p hp
        obtain ⟨ha, howner⟩ := (hb.owned p).mp hp
        exact ⟨ha, fun e => hy (howner ▸ e)⟩
      refine ⟨blocks', hb.congr (fun p hp => h.foreign p (hforeign p hp)) hsame fun p => ?_⟩
      constructor
      · intro hp
        have hsame := h.foreign p (hforeign p hp)
        rw [hsame.allocated, hsame.owner]
        exact (hb.owned p).mp hp
      · rintro ⟨ha, howner⟩
        have hsame := h.foreign p (hown p ha howner)
        rw [hsame.allocated] at ha
        rw [hsame.owner] at howner
        exact (hb.owned p).mpr ⟨ha, howner⟩
    · rw [if_neg hcreated] at hok ⊢
      intro p ha howner
      have hsame := h.foreign p (hown p ha howner)
      rw [hsame.allocated] at ha
      rw [hsame.owner] at howner
      exact hok p ha howner

section Statements

variable [DecidableEq Z] [DecidableEq P]

omit [DecidableEq Z] in
theorem Work.alloc (h : Work cfg s₀ z s blocks free idle) (hp : s.allocated p = false) :
    Work cfg s₀ z (s.pageCbAlloc p) blocks free (insert p idle) := by
  have hnative : ¬ s₀.Foreign z p := by
    intro hforeign
    have hsame := (h.foreign p hforeign).allocated
    rw [hp, hforeign.1] at hsame
    exact nomatch hsame
  have hfresh : p ∉ blocks := by
    intro hin
    rw [(h.taken p hnative).mpr (Or.inl hin)] at hp
    exact nomatch hp
  exact { h with
    foreign := fun q hq => { h.foreign q hq with
      allocated := by
        have hqp : q ≠ p := fun e => hnative (e ▸ hq)
        simpa [Store.pageCbAlloc, hqp] using (h.foreign q hq).allocated }
    zones := fun y hy => { h.zones y hy with }
    taken := fun q hq => by
      by_cases hqp : q = p
      · simp [Store.pageCbAlloc, hqp]
      · simpa [Store.pageCbAlloc, hqp] using h.taken q hq
    unused := fun q hq => by
      rcases hq with rfl | hq
      · exact ⟨hnative, hfresh⟩
      · exact h.unused q hq }

omit [DecidableEq P] in
theorem Work.setFreePage (h : Work cfg s₀ z s blocks free idle) (n : ℕ) :
    Work cfg s₀ z (s.setFreePage z n) blocks free idle :=
  { h with
    foreign := fun q hq => { h.foreign q hq with }
    zones := fun y hy => { h.zones y hy with
      freePage := by simpa [Store.setFreePage, hy] using (h.zones y hy).freePage } }

omit [DecidableEq Z] in
theorem Work.setUsed (h : Work cfg s₀ z s blocks free idle) (hp : ¬ s₀.Foreign z p) (b : Bool) :
    Work cfg s₀ z (s.setUsed p b) blocks free idle :=
  { h with
    foreign := fun q hq => { h.foreign q hq with
      used := by
        have hqp : q ≠ p := fun e => hp (e ▸ hq)
        simpa [Store.setUsed, hqp] using (h.foreign q hq).used }
    zones := fun y hy => { h.zones y hy with } }

theorem Work.areaDel (h : Work cfg s₀ z s blocks free idle) (hp : p ∈ free)
    (hi : pageFreeHashIndex cfg (s.ulCount p) = i) :
    Work cfg s₀ z (s.areaDel z i p) blocks (free \ {p}) idle := by
  have hlt : i < cfg.maxOrder := hi ▸ pageFreeHashIndex_lt _
  obtain ⟨k, line, head, number, mem⟩ := h.areas i hlt
  obtain ⟨a, b, rfl⟩ := List.append_of_mem ((mem p).mpr ⟨hp, hi⟩)
  obtain ⟨hline, hframe⟩ := listLineDel_spec line (s.lineFreeHeader z i)
  have hhead := listLineDel_head line
  rw [← head] at hhead
  have hmem : ∀ q, q ∈ a ++ b ↔ q ∈ free \ {p} ∧ pageFreeHashIndex cfg (s.ulCount q) = i := by
    intro q
    have hq := mem q
    simp only [List.mem_append, List.mem_cons] at hq ⊢
    constructor
    · intro hin
      have hqp : q ≠ p := line.ne_of_around (List.mem_append.mpr hin)
      have hfree := hq.mp (by tauto)
      exact ⟨⟨hfree.1, hqp⟩, hfree.2⟩
    · rintro ⟨⟨hfree, hqp⟩, hindex⟩
      have hin := hq.mpr ⟨hfree, hindex⟩
      have hqp' : q ≠ p := hqp
      tauto
  exact { h with
    foreign := fun q hq => { h.foreign q hq with
      hash := by
        have hout : q ∉ a ++ b := by
          intro hin
          exact (h.native q (h.hashed q ((hmem q).mp hin).1.1)).1 hq
        obtain ⟨hnext, hprev⟩ := hframe q hout
        exact ⟨hnext.trans (h.foreign q hq).hash.1, hprev.trans (h.foreign q hq).hash.2⟩ }
    zones := fun y hy => { h.zones y hy with
      header := by simpa [Store.areaDel, hy] using (h.zones y hy).header
      areaCount := by simpa [Store.areaDel, hy] using (h.zones y hy).areaCount }
    hashed := fun q hq => h.hashed q hq.1
    areas := fun j hj => by
      by_cases hji : j = i
      · subst hji
        refine ⟨a ++ b, hline, ?_, ?_, hmem⟩
        · simpa [Store.areaDel] using hhead
        · simp only [Store.areaDel, Function.update_self, number, List.length_append,
            List.length_cons]
          omega
      · obtain ⟨k, line', head', number', mem'⟩ := h.areas j hj
        refine ⟨k, line'.congr fun q hq => hframe q fun hin => ?_, ?_, ?_, fun q => ?_⟩
        · exact hji (((mem' q).mp hq).2.symm.trans ((hmem q).mp hin).2)
        · simpa [Store.areaDel, hji] using head'
        · simpa [Store.areaDel, hji] using number'
        · rw [mem' q]
          refine and_congr_left fun hindex => ⟨fun hq => ⟨hq, fun hqp => ?_⟩, fun hq => hq.1⟩
          exact hji (hindex.symm.trans ((congrArg _ (congrArg _ hqp)).trans hi)) }

theorem Work.addToFreeHash (h : Work cfg s₀ z s blocks free idle) (hp : p ∈ blocks)
    (hfree : p ∉ free) :
    Work cfg s₀ z (s.pageAddToFreeHash cfg z p) blocks (insert p free) idle := by
  unfold Store.pageAddToFreeHash
  generalize hi : pageFreeHashIndex cfg (s.ulCount p) = i
  have hlt : i < cfg.maxOrder := hi ▸ pageFreeHashIndex_lt _
  obtain ⟨k, line, head, number, mem⟩ := h.areas i hlt
  have hfresh : p ∉ k := fun hin => hfree ((mem p).mp hin).1
  obtain ⟨hline, hframe⟩ := listLineAddAhead_spec line hfresh
  rw [← head] at hline hframe
  have hin : ∀ q ∈ p :: k, q ∈ blocks := by
    intro q hq
    rcases List.mem_cons.mp hq with rfl | hq
    · exact hp
    · exact h.hashed q ((mem q).mp hq).1
  exact { h with
    foreign := fun q hq => { h.foreign q hq with
      hash := by
        obtain ⟨hnext, hprev⟩ := hframe q fun hk => (h.native q (hin q hk)).1 hq
        exact ⟨hnext.trans (h.foreign q hq).hash.1, hprev.trans (h.foreign q hq).hash.2⟩ }
    zones := fun y hy => { h.zones y hy with
      header := by simpa [Store.areaAdd, hy] using (h.zones y hy).header
      areaCount := by simpa [Store.areaAdd, hy] using (h.zones y hy).areaCount }
    hashed := fun q hq => by
      rcases hq with rfl | hq
      · exact hp
      · exact h.hashed q hq
    areas := fun j hj => by
      by_cases hji : j = i
      · subst hji
        refine ⟨p :: k, hline, ?_, ?_, fun q => ?_⟩
        · simp [Store.areaAdd, listLineAddAhead]
        · simp [Store.areaAdd, number]
        · rw [List.mem_cons, mem q, Set.mem_insert_iff]
          constructor
          · rintro (rfl | hq)
            · exact ⟨Or.inl rfl, hi⟩
            · exact ⟨Or.inr hq.1, hq.2⟩
          · rintro ⟨rfl | hq, hindex⟩
            · exact Or.inl rfl
            · exact Or.inr ⟨hq, hindex⟩
      · obtain ⟨k', line', head', number', mem'⟩ := h.areas j hj
        have hindex : ∀ q ∈ p :: k, pageFreeHashIndex cfg (s.ulCount q) = i := by
          intro q hq
          rcases List.mem_cons.mp hq with rfl | hq
          · exact hi
          · exact ((mem q).mp hq).2
        refine ⟨k', line'.congr fun q hq => hframe q fun hk => ?_, ?_, ?_, fun q => ?_⟩
        · exact hji (((mem' q).mp hq).2.symm.trans (hindex q hk))
        · simpa [Store.areaAdd, hji] using head'
        · simpa [Store.areaAdd, hji] using number'
        · rw [mem' q, Set.mem_insert_iff]
          refine and_congr_left fun hq => ⟨Or.inr, fun hor => ?_⟩
          rcases hor with rfl | hor
          · exact absurd (hq.symm.trans hi) hji
          · exact hor }

omit [DecidableEq Z] in
theorem Work.separate (h : Work cfg s₀ z s (l ++ p :: t) free idle) (hp : p ∉ free)
    (hnew : new ∈ idle) (hn : n ≤ s.ulCount p) (ty : PageType) :
    Work cfg s₀ z (s.pageStructSeparate cfg p new n ty) (l ++ p :: new :: t) free
      (idle \ {new}) := by
  obtain ⟨hforeign, hfresh⟩ := h.unused new hnew
  have hpin : p ∈ l ++ p :: t := by simp
  have hpnew : p ≠ new := fun e => hfresh (e ▸ hpin)
  obtain ⟨hpforeign, howner⟩ := h.native p hpin
  obtain ⟨hline, hframe⟩ := listLineAddTail_spec h.line hfresh
  have hmem : ∀ q, q ∈ l ++ p :: new :: t ↔ q ∈ l ++ p :: t ∨ q = new := by
    intro q
    simp only [List.mem_append, List.mem_cons]
    tauto
  have haround : ∀ q ∈ l ++ t, q ≠ p ∧ q ≠ new := by
    intro q hq
    have hin : q ∈ l ++ p :: t := (List.sublist_cons_self p t).append_left l |>.subset hq
    exact ⟨h.line.ne_of_around hq, fun e => hfresh (e ▸ hin)⟩
  exact { h with
    foreign := fun q hq => by
      have hsame := h.foreign q hq
      have hqp : q ≠ p := fun e => hpforeign (e ▸ hq)
      have hqnew : q ≠ new := fun e => hforeign (e ▸ hq)
      have hout : q ∉ l ++ p :: new :: t := by
        rw [hmem q]
        exact fun hin => hin.elim (fun hin => (h.native q hin).1 hq) hqnew
      obtain ⟨hnext, hprev⟩ := hframe q hout
      exact { hsame with
        manage := ⟨hnext.trans hsame.manage.1, hprev.trans hsame.manage.2⟩
        count := by simpa [Store.pageStructSeparate, hqp, hqnew] using hsame.count
        addr := by simpa [Store.pageStructSeparate, hqnew] using hsame.addr
        owner := by simpa [Store.pageStructSeparate, hqnew] using hsame.owner }
    zones := fun y hy => { h.zones y hy with }
    line := hline
    covers := by
      have hcut : s.ulCount p <<< cfg.pageShift =
          n <<< cfg.pageShift + (s.ulCount p - n) <<< cfg.pageShift := by
        rw [Nat.shiftLeft_eq, Nat.shiftLeft_eq, Nat.shiftLeft_eq, ← Nat.add_mul]
        congr 1
        omega
      apply h.covers.cut hcut
      · simp [Store.pageStructSeparate, hpnew]
      · simp [Store.pageStructSeparate, hpnew.symm]
      · intro q hq
        obtain ⟨hqp, hqnew⟩ := haround q hq
        simp [Store.pageStructSeparate, hqp, hqnew]
    native := fun q hq => by
      rcases (hmem q).mp hq with hin | rfl
      · have hqnew : q ≠ new := fun e => hfresh (e ▸ hin)
        simpa [Store.pageStructSeparate, hqnew] using h.native q hin
      · simpa [Store.pageStructSeparate] using ⟨hforeign, howner⟩
    taken := fun q hq => by
      have htaken := h.taken q hq
      rw [hmem q]
      refine htaken.trans ?_
      by_cases hqnew : q = new
      · simp [hqnew, hnew]
      · simp [hqnew]
    unused := fun q hq => by
      rw [hmem q]
      obtain ⟨hqforeign, hqout⟩ := h.unused q hq.1
      exact ⟨hqforeign, fun hin => hin.elim hqout hq.2⟩
    hashed := fun q hq => (hmem q).mpr (Or.inl (h.hashed q hq))
    areas := fun j hj => by
      apply (h.areas j hj).congr
      · exact fun q _ _ => ⟨rfl, rfl⟩
      · rfl
      · rfl
      · intro q hq
        have hqp : q ≠ p := fun e => hp (e ▸ hq)
        have hqnew : q ≠ new := fun e => hfresh (e ▸ h.hashed q hq)
        simp [Store.pageStructSeparate, hqp, hqnew] }

omit [DecidableEq Z] in
theorem Work.swallow {a b : P} (h : Work cfg s₀ z s (l ++ a :: b :: t) free idle) (ha : a ∉ free)
    (hb : b ∉ free) (hn : n = s.ulCount a + s.ulCount b) :
    Work cfg s₀ z ((s.setCount a n).drop b) (l ++ a :: t) free idle := by
  have hain : a ∈ l ++ a :: b :: t := by simp
  have hbin : b ∈ l ++ a :: b :: t := by simp
  have hassoc : l ++ a :: b :: t = (l ++ [a]) ++ b :: t := by simp
  have hline := h.line
  rw [hassoc] at hline
  have hout : ∀ q ∈ l ++ a :: t, q ≠ b := by
    intro q hq
    apply hline.ne_of_around
    simpa using hq
  have hne : b ≠ a := fun e => hout a (by simp) e.symm
  obtain ⟨hdel, hframe⟩ := listLineDel_spec hline none
  have hjoin : l ++ [a] ++ t = l ++ a :: t := by simp
  rw [hjoin] at hdel hframe
  have hmem : ∀ q, q ∈ l ++ a :: b :: t ↔ q ∈ l ++ a :: t ∨ q = b := by
    intro q
    simp only [List.mem_append, List.mem_cons]
    tauto
  exact { h with
    foreign := fun q hq => by
      have hsame := h.foreign q hq
      have hqa : q ≠ a := fun e => (h.native a hain).1 (e ▸ hq)
      have hqb : q ≠ b := fun e => (h.native b hbin).1 (e ▸ hq)
      have hqout : q ∉ l ++ a :: t := fun hin => (h.native q ((hmem q).mpr (Or.inl hin))).1 hq
      obtain ⟨hnext, hprev⟩ := hframe q hqout
      exact { hsame with
        manage := ⟨hnext.trans hsame.manage.1, hprev.trans hsame.manage.2⟩
        count := by simpa [Store.drop, Store.pageCbFree, Store.setCount, hqa] using hsame.count
        allocated := by
          simpa [Store.drop, Store.pageCbFree, Store.setCount, hqb] using hsame.allocated }
    zones := fun y hy => { h.zones y hy with }
    line := hdel
    covers := by
      apply h.covers.join
      · simp [Store.drop, Store.pageCbFree, Store.setCount, hn, Nat.shiftLeft_eq, Nat.add_mul]
      · intro q hq
        have hqa : q ≠ a := by
          have hcut : IsLine _ (l ++ a :: t) := hdel
          exact hcut.ne_of_around hq
        simp [Store.drop, Store.pageCbFree, Store.setCount, hqa]
    native := fun q hq => h.native q ((hmem q).mpr (Or.inl hq))
    taken := fun q hq => by
      have htaken := h.taken q hq
      rw [hmem q] at htaken
      by_cases hqb : q = b
      · subst hqb
        have hnot : q ∉ l ++ a :: t := fun hin => hout q hin rfl
        have hidle : q ∉ idle := fun hin => (h.unused q hin).2 hbin
        simp [Store.drop, Store.pageCbFree, hnot, hidle]
      · simpa [Store.drop, Store.pageCbFree, Store.setCount, hqb] using htaken
    unused := fun q hq =>
      ⟨(h.unused q hq).1, fun hin => (h.unused q hq).2 ((hmem q).mpr (Or.inl hin))⟩
    hashed := fun q hq => by
      rcases (hmem q).mp (h.hashed q hq) with hin | rfl
      · exact hin
      · exact absurd hq hb
    areas := fun j hj => by
      apply (h.areas j hj).congr
      · exact fun q _ _ => ⟨rfl, rfl⟩
      · rfl
      · rfl
      · intro q hq
        have hqa : q ≠ a := fun e => ha (e ▸ hq)
        simp [Store.drop, Store.pageCbFree, Store.setCount, hqa] }

end Statements

end SylixOS.PageLib
