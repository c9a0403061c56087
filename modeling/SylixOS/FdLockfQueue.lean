import SylixOS.FdLockfList
import Mathlib.Data.List.Perm.Basic

/-! The requests that wait. Each is in the list of one installed lock that
blocks it, or it has been taken off its list and its semaphore has been posted. -/

namespace SylixOS.FdLockf
open LinkedChain Function

theorem lineAddTail_perm (l : List Addr) (a : Addr) : (lineAddTail l a).Perm (a :: l) := by
  cases l with
  | nil => exact List.Perm.refl _
  | cons h t => exact List.Perm.swap a h t

theorem wakeAll_eq (a : Addr) (ws : List Addr) : ∀ (n : Node) (rest : List Addr),
    n.blockHd a = ws ++ rest → ∃ next' sem' blockQ',
      wakeAll a n ws = { n with
        next := next'
        sem := sem'
        blockQ := blockQ'
        blockHd := update n.blockHd a rest } ∧
      (∀ x ∈ ws, next' x = none ∧ sem' x = true) ∧
      ∀ x, x ∉ ws → next' x = n.next x ∧ sem' x = n.sem x := by
  induction ws with
  | nil =>
    intro n rest hlist
    refine ⟨n.next, n.sem, n.blockQ, ?_, (fun _ hx => nomatch hx), fun _ _ => ⟨rfl, rfl⟩⟩
    have hsame : update n.blockHd a rest = n.blockHd := by
      have hrest : rest = n.blockHd a := hlist.symm
      rw [hrest, update_eq_self]
    rw [hsame]
    rfl
  | cons w ws ih =>
    intro n rest hlist
    have hhead : (fdLockfUnblock n w a).blockHd a = ws ++ rest := by
      simp only [fdLockfUnblock, update_self, hlist, List.cons_append,
        List.erase_cons_head]
    obtain ⟨next', sem', blockQ', heq, hin, hout⟩ := ih
      { fdLockfUnblock n w a with sem := update n.sem w true } rest hhead
    refine ⟨next', sem', blockQ', ?_, ?_, ?_⟩
    · rw [wakeAll]
      refine heq.trans ?_
      simp only [fdLockfUnblock, update_idem]
    · intro x hx
      by_cases hws : x ∈ ws
      · exact hin x hws
      · obtain rfl : x = w := (List.mem_cons.mp hx).resolve_right hws
        obtain ⟨hnext, hsem⟩ := hout x hws
        rw [hnext, hsem]
        simp [fdLockfUnblock]
    · intro x hx
      rw [List.mem_cons, not_or] at hx
      obtain ⟨hxw, hws⟩ := hx
      obtain ⟨hnext, hsem⟩ := hout x hws
      rw [hnext, hsem]
      simp [fdLockfUnblock, update_of_ne hxw]

theorem fdLockfWakeup_eq (n : Node) (a : Addr) : ∃ next' sem' blockQ',
    fdLockfWakeup n a = { n with
      next := next'
      sem := sem'
      blockQ := blockQ'
      blockHd := update n.blockHd a [] } ∧
    (∀ x ∈ n.blockHd a, next' x = none ∧ sem' x = true) ∧
    ∀ x, x ∉ n.blockHd a → next' x = n.next x ∧ sem' x = n.sem x :=
  wakeAll_eq a (n.blockHd a) n [] (List.append_nil _).symm

theorem handOver_eq {a l : Addr} (hal : a ≠ l) (ws : List Addr) : ∀ (n : Node) (rest : List Addr),
    n.blockHd a = ws ++ rest → ∃ next' blockQ' waiters,
      handOver a l n ws = { n with
        next := next'
        blockQ := blockQ'
        blockHd := update (update n.blockHd a rest) l waiters } ∧
      waiters.Perm (ws ++ n.blockHd l) ∧ (∀ x ∈ ws, next' x = some l) ∧
      ∀ x, x ∉ ws → next' x = n.next x := by
  induction ws with
  | nil =>
    intro n rest hlist
    refine ⟨n.next, n.blockQ, n.blockHd l, ?_, List.Perm.refl _, (fun _ hx => nomatch hx),
      fun _ _ => rfl⟩
    have hrest : rest = n.blockHd a := hlist.symm
    rw [hrest, update_eq_self, update_eq_self]
    rfl
  | cons w ws ih =>
    intro n rest hlist
    have hhead : (fdLockfBlock (fdLockfUnblock n w a) w l).blockHd a = ws ++ rest := by
      simp only [fdLockfBlock, fdLockfUnblock, update_of_ne hal, update_self,
        hlist, List.cons_append, List.erase_cons_head]
    obtain ⟨next', blockQ', waiters, heq, hperm, hin, hout⟩ := ih _ rest hhead
    have hl : (fdLockfBlock (fdLockfUnblock n w a) w l).blockHd l =
        lineAddTail (n.blockHd l) w := by
      simp only [fdLockfBlock, fdLockfUnblock, update_self,
        update_of_ne (Ne.symm hal)]
    refine ⟨next', blockQ', waiters, ?_, ?_, ?_, ?_⟩
    · rw [handOver, heq]
      simp only [fdLockfBlock, fdLockfUnblock, update_idem]
      congr 1
      funext x
      by_cases hxl : x = l
      · rw [hxl, update_self, update_self]
      · rw [update_of_ne hxl, update_of_ne hxl]
        by_cases hxa : x = a
        · rw [hxa, update_self, update_self]
        · rw [update_of_ne hxa, update_of_ne hxa, update_of_ne hxl,
            update_of_ne hxa]
    · rw [hl] at hperm
      refine hperm.trans ?_
      refine ((lineAddTail_perm _ w).append_left ws).trans ?_
      exact List.perm_middle
    · intro x hx
      by_cases hws : x ∈ ws
      · exact hin x hws
      · obtain rfl : x = w := (List.mem_cons.mp hx).resolve_right hws
        rw [hout x hws]
        simp [fdLockfBlock]
    · intro x hx
      rw [List.mem_cons, not_or] at hx
      obtain ⟨hxw, hws⟩ := hx
      rw [hout x hws]
      simp [fdLockfBlock, fdLockfUnblock, update_of_ne hxw]

structure Lined (W E : Addr → Prop) (n : Node) (ids : List Addr) : Prop where
  listed : ∀ b ∈ ids, ∀ r ∈ n.blockHd b, W r ∧ n.next r = some b
  waits : ∀ r, W r → (n.next r = none ∧ (n.sem r = true ∨ E r)) ∨
    (n.sem r = false ∧ ∃ b ∈ ids, r ∈ n.blockHd b)
  nodup : ∀ b ∈ ids, (n.blockHd b).Nodup
  out : ∀ r, W r → r ∉ ids ∧ n.blockHd r = []
  taken : ∀ r, W r → E r → n.next r = none ∧ n.sem r = false

def BlocksBut (P : Addr → Prop) (n : Node) (ids : List Addr) : Prop :=
  ∀ b ∈ ids, ¬P b → ∀ r ∈ n.blockHd b, Blocks (n.span b) (n.span r)

structure Queued (W E : Addr → Prop) (n : Node) (ids : List Addr) : Prop extends
    Lined W E n ids where
  blocks : BlocksBut (fun _ => False) n ids

section Lined

variable {W E P : Addr → Prop} {n n' : Node} {ids ids' : List Addr}

theorem Lined.only (h : Lined W E n ids) {a b r : Addr} (ha : a ∈ ids) (hb : b ∈ ids)
    (hra : r ∈ n.blockHd a) (hrb : r ∈ n.blockHd b) : a = b := by
  have hnext := (h.listed a ha r hra).2
  rw [(h.listed b hb r hrb).2] at hnext
  exact (Option.some.inj hnext).symm

theorem Lined.taken_out (h : Lined W E n ids) {b r : Addr} (hw : W r) (hE : E r) (hb : b ∈ ids) :
    r ∉ n.blockHd b := by
  intro hr
  have hnone := (h.taken r hw hE).1
  rw [(h.listed b hb r hr).2] at hnone
  cases hnone

theorem Lined.relink (h : Lined W E n ids)
    (hblockHd : ∀ x, x ∈ ids ∨ W x → n'.blockHd x = n.blockHd x)
    (hsem : ∀ x, W x → n'.sem x = n.sem x) (hnext : ∀ x, W x → n'.next x = n.next x)
    (hnew : ∀ b ∈ ids', b ∈ ids ∨ (n'.blockHd b = [] ∧ ¬W b))
    (hold : ∀ b ∈ ids, b ∈ ids' ∨ n.blockHd b = []) : Lined W E n' ids' := by
  refine ⟨?_, ?_, ?_, ?_, ?_⟩
  · intro b hb r hr
    rcases hnew b hb with hb | ⟨hnil, -⟩
    · rw [hblockHd b (Or.inl hb)] at hr
      obtain ⟨hw, hrb⟩ := h.listed b hb r hr
      exact ⟨hw, (hnext r hw).trans hrb⟩
    · rw [hnil] at hr
      cases hr
  · intro r hw
    rw [hnext r hw, hsem r hw]
    rcases h.waits r hw with hnone | ⟨hsem, b, hb, hr⟩
    · exact Or.inl hnone
    · right
      refine ⟨hsem, b, ?_, ?_⟩
      · rcases hold b hb with hb | hnil
        · exact hb
        · rw [hnil] at hr
          cases hr
      · rw [hblockHd b (Or.inl hb)]
        exact hr
  · intro b hb
    rcases hnew b hb with hb | ⟨hnil, -⟩
    · rw [hblockHd b (Or.inl hb)]
      exact h.nodup b hb
    · rw [hnil]
      exact List.nodup_nil
  · intro r hw
    refine ⟨fun hr => ?_, ?_⟩
    · rcases hnew r hr with hr | ⟨-, hnot⟩
      · exact (h.out r hw).1 hr
      · exact hnot hw
    · rw [hblockHd r (Or.inr hw)]
      exact (h.out r hw).2
  · intro r hw hE
    rw [hnext r hw, hsem r hw]
    exact h.taken r hw hE

theorem BlocksBut.relink (h : BlocksBut P n ids) (hlined : Lined W E n ids)
    (hspan : ∀ x, ¬P x → x ∈ ids ∨ W x → n'.span x = n.span x) (hW : ∀ x, W x → ¬P x)
    (hblockHd : ∀ b ∈ ids, n'.blockHd b = n.blockHd b)
    (hnew : ∀ b ∈ ids', b ∈ ids ∨ n'.blockHd b = []) : BlocksBut P n' ids' := by
  intro b hb hnot r hr
  have hmem : b ∈ ids := by
    rcases hnew b hb with hb | hnil
    · exact hb
    · rw [hnil] at hr
      cases hr
  rw [hblockHd b hmem] at hr
  have hw := (hlined.listed b hmem r hr).1
  rw [hspan r (hW r hw) (Or.inr hw), hspan b hnot (Or.inl hmem)]
  exact h b hmem hnot r hr

theorem Lined.wakeup (h : Lined W E n ids) {a : Addr} (ha : a ∈ ids) :
    Lined W E (fdLockfWakeup n a) ids := by
  obtain ⟨next', sem', blockQ', heq, hin, hout⟩ := fdLockfWakeup_eq n a
  rw [heq]
  refine ⟨?_, ?_, ?_, ?_, ?_⟩
  · intro b hb r hr
    by_cases hba : b = a
    · subst hba
      simp only [update_self] at hr
      cases hr
    · simp only [update_of_ne hba] at hr
      obtain ⟨hw, hnext⟩ := h.listed b hb r hr
      have hra : r ∉ n.blockHd a := fun hra => hba (h.only hb ha hr hra)
      exact ⟨hw, ((hout r hra).1).trans hnext⟩
  · intro r hw
    by_cases hra : r ∈ n.blockHd a
    · exact Or.inl ⟨(hin r hra).1, Or.inl (hin r hra).2⟩
    · obtain ⟨hnext, hsem⟩ := hout r hra
      simp only [hnext, hsem]
      rcases h.waits r hw with hnone | ⟨hsem, b, hb, hr⟩
      · exact Or.inl hnone
      · right
        have hba : b ≠ a := fun e => hra (e ▸ hr)
        refine ⟨hsem, b, hb, ?_⟩
        rw [update_of_ne hba]
        exact hr
  · intro b hb
    simp only
    by_cases hba : b = a
    · rw [hba, update_self]
      exact List.nodup_nil
    · rw [update_of_ne hba]
      exact h.nodup b hb
  · intro r hw
    have hra : r ≠ a := fun e => (h.out r hw).1 (e ▸ ha)
    refine ⟨(h.out r hw).1, ?_⟩
    simp only [update_of_ne hra]
    exact (h.out r hw).2
  · intro r hw hE
    obtain ⟨hnext, hsem⟩ := hout r (h.taken_out hw hE ha)
    simp only [hnext, hsem]
    exact h.taken r hw hE

structure SameBut (W : Addr → Prop) (n n' : Node) : Prop where
  span : n'.span = n.span
  head : n'.head = n.head
  abort : n'.abort = n.abort
  created : n'.created = n.created
  next : ∀ x, ¬W x → n'.next x = n.next x

theorem Lined.wakeup_same (h : Lined W E n ids) {a : Addr} (ha : a ∈ ids) :
    SameBut W n (fdLockfWakeup n a) ∧ (fdLockfWakeup n a).blockHd = update n.blockHd a [] := by
  obtain ⟨next', sem', blockQ', heq, -, hout⟩ := fdLockfWakeup_eq n a
  rw [heq]
  exact ⟨⟨rfl, rfl, rfl, rfl, fun x hx => (hout x fun hmem => hx (h.listed a ha x hmem).1).1⟩, rfl⟩

theorem Lined.queued_wakeup (h : Lined W E n ids) {a : Addr} (ha : a ∈ ids)
    (hblocks : BlocksBut (fun b => b = a) n ids) : Queued W E (fdLockfWakeup n a) ids := by
  obtain ⟨hsame, hblockHd⟩ := h.wakeup_same ha
  refine ⟨h.wakeup ha, fun b hb _ r hr => ?_⟩
  rw [hblockHd] at hr
  by_cases hba : b = a
  · rw [hba, update_self] at hr
    cases hr
  · rw [update_of_ne hba] at hr
    rw [hsame.span]
    exact hblocks b hb hba r hr

theorem Lined.handOver (h : Lined W E n ids) {a l : Addr} (ha : a ∈ ids) (hl : l ∈ ids)
    (hal : a ≠ l) : Lined W E (handOver a l n (n.blockHd a)) ids := by
  obtain ⟨next', blockQ', waiters, heq, hperm, hin, hout⟩ :=
    handOver_eq hal (n.blockHd a) n [] (List.append_nil _).symm
  rw [heq]
  refine ⟨?_, ?_, ?_, ?_, ?_⟩
  · intro b hb r hr
    by_cases hbl : b = l
    · subst hbl
      simp only [update_self] at hr
      rcases List.mem_append.mp (hperm.mem_iff.mp hr) with hr | hr
      · exact ⟨(h.listed a ha r hr).1, hin r hr⟩
      · obtain ⟨hw, hnext⟩ := h.listed b hb r hr
        have hra : r ∉ n.blockHd a := fun hra => hal (h.only ha hb hra hr)
        exact ⟨hw, (hout r hra).trans hnext⟩
    · simp only [update_of_ne hbl] at hr
      by_cases hba : b = a
      · subst hba
        rw [update_self] at hr
        cases hr
      · rw [update_of_ne hba] at hr
        obtain ⟨hw, hnext⟩ := h.listed b hb r hr
        have hra : r ∉ n.blockHd a := fun hra => hba (h.only hb ha hr hra)
        exact ⟨hw, (hout r hra).trans hnext⟩
  · intro r hw
    by_cases hra : r ∈ n.blockHd a
    · right
      have hsem : n.sem r = false := by
        rcases h.waits r hw with ⟨hnone, -⟩ | ⟨hsem, -⟩
        · rw [(h.listed a ha r hra).2] at hnone
          cases hnone
        · exact hsem
      refine ⟨hsem, l, hl, ?_⟩
      simp only [update_self]
      exact hperm.mem_iff.mpr (List.mem_append_left _ hra)
    · simp only [hout r hra]
      rcases h.waits r hw with hnone | ⟨hsem, b, hb, hr⟩
      · exact Or.inl hnone
      · right
        refine ⟨hsem, b, hb, ?_⟩
        have hba : b ≠ a := fun e => hra (e ▸ hr)
        by_cases hbl : b = l
        · subst hbl
          rw [update_self]
          exact hperm.mem_iff.mpr (List.mem_append_right _ hr)
        · rw [update_of_ne hbl, update_of_ne hba]
          exact hr
  · intro b hb
    simp only
    by_cases hbl : b = l
    · subst hbl
      rw [update_self]
      refine hperm.nodup_iff.mpr (List.nodup_append.mpr ⟨h.nodup a ha, h.nodup b hb, ?_⟩)
      intro x hx y hy hxy
      subst hxy
      exact hal (h.only ha hb hx hy)
    · rw [update_of_ne hbl]
      by_cases hba : b = a
      · rw [hba, update_self]
        exact List.nodup_nil
      · rw [update_of_ne hba]
        exact h.nodup b hb
  · intro r hw
    have hra : r ≠ a := fun e => (h.out r hw).1 (e ▸ ha)
    have hrl : r ≠ l := fun e => (h.out r hw).1 (e ▸ hl)
    refine ⟨(h.out r hw).1, ?_⟩
    simp only [update_of_ne hrl, update_of_ne hra]
    exact (h.out r hw).2
  · intro r hw hE
    simp only [hout r (h.taken_out hw hE ha)]
    exact h.taken r hw hE

theorem Lined.handOver_same (h : Lined W E n ids) {a l : Addr} (ha : a ∈ ids) (hal : a ≠ l) :
    SameBut W n (FdLockf.handOver a l n (n.blockHd a)) ∧
      (∀ x, x ≠ l → (FdLockf.handOver a l n (n.blockHd a)).blockHd x =
        update n.blockHd a [] x) ∧
      ∀ r, r ∈ (FdLockf.handOver a l n (n.blockHd a)).blockHd l ↔
        r ∈ n.blockHd a ∨ r ∈ n.blockHd l := by
  obtain ⟨next', blockQ', waiters, heq, hperm, -, hout⟩ :=
    handOver_eq hal (n.blockHd a) n [] (List.append_nil _).symm
  rw [heq]
  refine ⟨⟨rfl, rfl, rfl, rfl, fun x hx => hout x fun hmem => hx (h.listed a ha x hmem).1⟩,
    fun x hx => update_of_ne hx _ _, fun r => ?_⟩
  simp only [update_self]
  rw [hperm.mem_iff, List.mem_append]

end Lined

end SylixOS.FdLockf
