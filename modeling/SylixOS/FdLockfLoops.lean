import SylixOS.FdLockfQueue

/-! The loops of `__fdLockfSetLock` and `__fdLockfClearLock`. Both cut the range
of a request out of the list of installed locks, and leave no waiting request in
the list of a lock that does not block it. -/

namespace SylixOS.FdLockf
open LinkedChain Function

structure Linked (W E : Addr → Prop) (n : Node) (ids : List Addr) : Prop where
  mono : IsMono n.next n.head ids
  nodup : ids.Nodup
  queued : Queued W E n ids

section Parts

variable {k f : Span}

theorem rightPart_other (hpid : f.pid ≠ k.pid) : rightPart k f = some f := by
  unfold rightPart
  rw [if_pos hpid]

theorem rightPart_beyond (hpid : f.pid = k.pid) (hend : k.oftEnd ≠ -1)
    (hlt : k.oftEnd < f.oftStart) : rightPart k f = some f := by
  unfold rightPart
  rw [if_neg (not_not.mpr hpid), if_pos ⟨hend, hlt⟩]

theorem rightPart_none (hf : f.Ok) (hpid : f.pid = k.pid)
    (hcase : k.oftEnd = -1 ∨ f.oftEnd ≠ -1 ∧ f.oftEnd ≤ k.oftEnd) : rightPart k f = none := by
  have hstop := hf.stop
  unfold rightPart
  rw [if_neg (not_not.mpr hpid), if_neg, if_neg]
  · rintro ⟨h1, h2⟩
    omega
  · rintro ⟨h1, h2⟩
    omega

theorem rightPart_trim (hpid : f.pid = k.pid) (hend : k.oftEnd ≠ -1)
    (hstart : f.oftStart ≤ k.oftEnd) (hlong : f.oftEnd = -1 ∨ k.oftEnd < f.oftEnd) :
    rightPart k f = some (f.withStart (k.oftEnd + 1)) := by
  unfold rightPart
  rw [if_neg (not_not.mpr hpid), if_neg (fun h => by omega), if_pos ⟨hend, hlong⟩]

theorem filterMap_self {α : Type*} {g : α → Option α} {l : List α} (h : ∀ x ∈ l, g x = some x) :
    l.filterMap g = l := by
  induction l with
  | nil => rfl
  | cons a l ih =>
    rw [List.filterMap_cons_some (h a List.mem_cons_self),
      ih fun x hx => h x (List.mem_cons_of_mem a hx)]

theorem Blocks.widen {r : Span} (h : Blocks f r) (hpid : f.pid = k.pid)
    (hcovers : ∀ b, f.Covers b → k.Covers b) (hlock : k.usType ≠ .unlck)
    (hdown : ¬downgrades k f) : Blocks k r := by
  refine ⟨hpid ▸ h.other, ?_, ?_⟩
  · obtain ⟨b, hb, hr⟩ := h.overlaps
    exact ⟨b, hcovers b hb, hr⟩
  · rcases h.conflict with hr | hf
    · exact Or.inl hr
    · right
      cases hk : k.usType with
      | wrlck => rfl
      | unlck => exact absurd hk hlock
      | rdlck => exact absurd ⟨hk, hf⟩ hdown

theorem covers_of_contained (h : Case.Holds f k .contained) (b : ℤ) (hb : f.Covers b) :
    k.Covers b := by
  obtain ⟨hstart, hstop⟩ := h
  obtain ⟨hb1, hb2⟩ := hb
  refine ⟨?_, ?_⟩ <;> omega

theorem beyond_of_sorted {l : List Span} (hf : f.Ok) (sorted : (f :: l).Pairwise Before)
    (hpid : f.pid = k.pid) (hlt : k.oftEnd < f.oftStart) :
    ∀ x ∈ l, x.pid = k.pid → k.oftEnd < x.oftStart := by
  intro x hx hxpid
  have hbefore := (List.pairwise_cons.mp sorted).1 x hx (hpid.trans hxpid.symm)
  have hstop := hf.stop
  omega

end Parts

section Remove

variable {W E : Addr → Prop} {n : Node} {front back : List Addr} {a : Addr}

theorem Linked.remove (h : Linked W E n (front ++ a :: back)) (hnone : n.blockHd a = []) :
    Linked W E (n.store front.getLast? (n.next a)) (front ++ back) := by
  have hrest := (isMono_append.mp h.mono).2.2
  have hnext := hrest.head_eq
  obtain ⟨hfront, hback, hapart⟩ := List.nodup_append.mp h.nodup
  have hsub : (front ++ back).Sublist (front ++ a :: back) :=
    (List.sublist_cons_self a back).append_left front
  have hlast : ∀ x, W x → front.getLast? ≠ some x := fun x hx e =>
    (h.queued.out x hx).1 (List.mem_append_left _ (List.mem_of_getLast? e))
  rw [hnext] at hrest ⊢
  refine ⟨?_, h.nodup.sublist hsub, ?_, ?_⟩
  · apply mono_store _ h.mono hfront hrest
    intro x hx hmem
    exact hapart x hx x (List.mem_cons_of_mem a hmem) rfl
  · refine h.queued.toLined.relink (fun x _ => by rw [store_blockHd]) (fun x _ => by rw [store_sem])
      (fun x hx => store_next (hlast x hx)) (fun b hb => Or.inl (hsub.subset hb)) fun b hb => ?_
    rw [List.mem_append, List.mem_cons] at hb
    rcases hb with hb | rfl | hb
    · exact Or.inl (List.mem_append_left _ hb)
    · exact Or.inr hnone
    · exact Or.inl (List.mem_append_right _ hb)
  · refine h.queued.blocks.relink h.queued.toLined (fun x _ _ => by rw [store_span])
      (fun _ _ hfalse => hfalse) (fun b _ => by rw [store_blockHd]) fun b hb => Or.inl (hsub.subset hb)

theorem IsMono.sameBut {n' : Node} {ids : List Addr} (mono : IsMono n.next n.head ids)
    (hsame : SameBut W n n') (hout : ∀ x, W x → x ∉ ids) : IsMono n'.next n'.head ids := by
  rw [hsame.head]
  exact mono.congr fun x hx => hsame.next x fun hw => hout x hw hx

theorem Linked.wakeup {ids : List Addr} (h : Linked W E n ids) (ha : a ∈ ids) :
    Linked W E (fdLockfWakeup n a) ids := by
  have hsame := (h.queued.toLined.wakeup_same ha).1
  refine ⟨IsMono.sameBut h.mono hsame fun x hx => (h.queued.out x hx).1, h.nodup, ?_⟩
  exact h.queued.toLined.queued_wakeup ha fun b hb _ => h.queued.blocks b hb id

theorem Queued.handOver {ids : List Addr} {l : Addr} (h : Queued W E n ids) (ha : a ∈ ids)
    (hl : l ∈ ids) (hal : a ≠ l) (hblocks : ∀ r ∈ n.blockHd a, Blocks (n.span l) (n.span r)) :
    Queued W E (FdLockf.handOver a l n (n.blockHd a)) ids := by
  obtain ⟨hsame, hother, hmem⟩ := h.toLined.handOver_same ha hal
  refine ⟨h.toLined.handOver ha hl hal, fun b hb _ r hr => ?_⟩
  rw [hsame.span]
  by_cases hbl : b = l
  · subst hbl
    rcases (hmem r).mp hr with hr | hr
    · exact hblocks r hr
    · exact h.blocks b hb id r hr
  · rw [hother b hbl] at hr
    by_cases hba : b = a
    · rw [hba, update_self] at hr
      cases hr
    · rw [update_of_ne hba] at hr
      exact h.blocks b hb id r hr

theorem Linked.rewire {n₂ : Node} {ids ids₂ : List Addr} (h : Linked W E n ids) (ha : a ∈ ids)
    (ha₂ : a ∈ ids₂) (mono : IsMono n₂.next n₂.head ids₂) (nodup : ids₂.Nodup)
    (hblockHd : ∀ x, x ∈ ids ∨ W x → n₂.blockHd x = n.blockHd x) (hsem : n₂.sem = n.sem)
    (hnext : ∀ x, W x → n₂.next x = n.next x)
    (hspan : ∀ x, x ≠ a → x ∈ ids ∨ W x → n₂.span x = n.span x)
    (hnew : ∀ b ∈ ids₂, b ∈ ids ∨ (n₂.blockHd b = [] ∧ ¬W b))
    (hold : ∀ b ∈ ids, b ∈ ids₂ ∨ n.blockHd b = []) :
    Linked W E (fdLockfWakeup n₂ a) ids₂ ∧ SameBut W n₂ (fdLockfWakeup n₂ a) := by
  have hlined : Lined W E n₂ ids₂ := h.queued.toLined.relink hblockHd
    (fun x _ => by rw [hsem]) hnext hnew hold
  have hblocks : BlocksBut (fun b => b = a) n ids := fun b hb _ => h.queued.blocks b hb id
  have hblocks₂ : BlocksBut (fun b => b = a) n₂ ids₂ := by
    refine hblocks.relink h.queued.toLined hspan ?_ (fun b hb => hblockHd b (Or.inl hb)) ?_
    · exact fun x hx e => (h.queued.out x hx).1 (e ▸ ha)
    · exact fun b hb => (hnew b hb).imp id And.left
  have hsame := (hlined.wakeup_same ha₂).1
  refine ⟨⟨?_, nodup, hlined.queued_wakeup ha₂ hblocks₂⟩, hsame⟩
  exact IsMono.sameBut mono hsame fun x hx => (hlined.out x hx).1

theorem Linked.setSpan {ids : List Addr} {sp : Span} (h : Linked W E n ids) (ha : a ∈ ids)
    (hblocks : ∀ r ∈ n.blockHd a, Blocks sp (n.span r)) : Linked W E (n.setSpan a sp) ids := by
  refine ⟨h.mono, h.nodup,
    ⟨h.queued.listed, h.queued.waits, h.queued.nodup, h.queued.out, h.queued.taken⟩, fun b hb _ r hr => ?_⟩
  have hra : r ≠ a := fun e => (h.queued.out r (h.queued.listed b hb r hr).1).1 (e ▸ ha)
  simp only [Node.setSpan, update_of_ne hra]
  by_cases hba : b = a
  · subst hba
    rw [update_self]
    exact hblocks r hr
  · rw [update_of_ne hba]
    exact h.queued.blocks b hb id r hr

theorem Linked.setSpan_nil {ids : List Addr} (h : Linked W E n ids) (ha : a ∈ ids)
    (hnone : n.blockHd a = []) (sp : Span) : Linked W E (n.setSpan a sp) ids := by
  refine h.setSpan ha fun r hr => ?_
  rw [hnone] at hr
  cases hr

theorem Linked.trim {ids : List Addr} (h : Linked W E n ids) (ha : a ∈ ids) (sp : Span) :
    Linked W E (fdLockfWakeup (n.setSpan a sp) a) ids ∧
      SameBut W (n.setSpan a sp) (fdLockfWakeup (n.setSpan a sp) a) :=
  h.rewire ha ha h.mono h.nodup (fun _ _ => rfl) rfl (fun _ _ => rfl)
    (fun _ hxa _ => update_of_ne hxa _ _) (fun _ hb => Or.inl hb) fun _ hb => Or.inl hb

theorem Queued.pass {ids : List Addr} {l : Addr} (h : Queued W E n ids) (ha : a ∈ ids) (hl : l ∈ ids)
    (hal : a ≠ l) (hpid : (n.span a).pid = (n.span l).pid) (hlock : (n.span l).usType ≠ .unlck)
    (hcase : Case.Holds (n.span a) (n.span l) .contained) {n' : Node}
    (hn' : n' = if downgrades (n.span l) (n.span a) then fdLockfWakeup n a
      else FdLockf.handOver a l n (n.blockHd a)) :
    Queued W E n' ids ∧ n'.blockHd a = [] ∧ SameBut W n n' := by
  subst hn'
  split_ifs with hdown
  · obtain ⟨hsame, hblockHd⟩ := h.toLined.wakeup_same ha
    refine ⟨h.toLined.queued_wakeup ha fun b hb _ => h.blocks b hb id, ?_, hsame⟩
    rw [hblockHd, update_self]
  · obtain ⟨hsame, hother, -⟩ := h.toLined.handOver_same ha hal
    refine ⟨h.handOver ha hl hal fun r hr => ?_, ?_, hsame⟩
    · exact (h.blocks a ha id r hr).widen hpid (covers_of_contained hcase) hlock hdown
    · rw [hother a hal, update_self]

theorem Linked.pass {ids : List Addr} {l : Addr} (h : Linked W E n ids) (ha : a ∈ ids) (hl : l ∈ ids)
    (hal : a ≠ l) (hpid : (n.span a).pid = (n.span l).pid) (hlock : (n.span l).usType ≠ .unlck)
    (hcase : Case.Holds (n.span a) (n.span l) .contained) {n' : Node}
    (hn' : n' = if downgrades (n.span l) (n.span a) then fdLockfWakeup n a
      else FdLockf.handOver a l n (n.blockHd a)) :
    Linked W E n' ids ∧ n'.blockHd a = [] ∧ SameBut W n n' := by
  obtain ⟨hqueued, hnone, hsame⟩ := h.queued.pass ha hl hal hpid hlock hcase hn'
  exact ⟨⟨IsMono.sameBut h.mono hsame fun x hx => (h.queued.out x hx).1, h.nodup, hqueued⟩, hnone,
    hsame⟩

end Remove

structure Trimmed (W E : Addr → Prop) (k : Span) (n n' : Node) (front back back' : List Addr) :
    Prop where
  linked : Linked W E n' (front ++ back')
  sublist : back'.Sublist back
  spans : back'.map n'.span = (back.map n.span).filterMap (rightPart k)
  span : ∀ x, x ∉ back → n'.span x = n.span x
  abort : n'.abort = n.abort
  created : n'.created = n.created

structure Late (k : Span) (n : Node) (back : List Addr) : Prop where
  ok : ∀ x ∈ back, (n.span x).Ok
  sorted : (back.map n.span).Pairwise Before
  late : ∀ x ∈ back, (n.span x).pid = k.pid → k.oftStart < (n.span x).oftStart

section Tail

variable {W E : Addr → Prop} {k : Span} {n : Node} {front back mid rest : List Addr}

theorem Late.others (h : Late k n back) {c : Case} (hfound : Found n k back c mid rest) :
    ∀ x ∈ mid, (n.span x).pid ≠ k.pid := by
  intro x hx hpid
  have hmem : x ∈ back := by
    rw [hfound.split]
    exact List.mem_append_left rest hx
  have hpassed := hfound.passed x hx hpid
  have hlate := h.late x hmem hpid
  have hstop := (h.ok x hmem).stop
  omega

theorem Late.suffix (h : Late k n (mid ++ rest)) : Late k n rest where
  ok := fun x hx => h.ok x (List.mem_append_right mid hx)
  sorted := by
    have hsorted := h.sorted
    rw [List.map_append] at hsorted
    exact (List.pairwise_append.mp hsorted).2.1
  late := fun x hx => h.late x (List.mem_append_right mid hx)

theorem Late.behind {n₁ : Node} {a : Addr} {t : List Addr} (h : Late k n (mid ++ a :: t))
    (hspan : n₁.span = n.span) : Late k n₁ t where
  ok := fun x hx => by
    rw [hspan]
    exact h.suffix.ok x (List.mem_cons_of_mem a hx)
  sorted := by
    have hsorted := h.suffix.sorted
    rw [List.map_cons] at hsorted
    rw [hspan]
    exact (List.pairwise_cons.mp hsorted).2
  late := fun x hx => by
    rw [hspan]
    exact h.suffix.late x (List.mem_cons_of_mem a hx)

theorem filterMap_mid (hmid : ∀ x ∈ mid, (n.span x).pid ≠ k.pid) :
    (mid.map n.span).filterMap (rightPart k) = mid.map n.span := by
  apply filterMap_self
  intro x hx
  obtain ⟨y, hy, rfl⟩ := List.mem_map.mp hx
  exact rightPart_other (hmid y hy)

theorem Late.done (h : Late k n back) (hlinked : Linked W E n (front ++ back))
    (hfound : Found n k back .apart mid rest) : Trimmed W E k n n front back back := by
  refine ⟨hlinked, List.Sublist.refl _, ?_, fun _ _ => rfl, rfl, rfl⟩
  have hmid := h.others hfound
  have hsplit := hfound.split
  subst hsplit
  rw [List.map_append, List.filterMap_append, filterMap_mid hmid]
  congr 1
  cases rest with
  | nil => rfl
  | cons a t =>
    obtain ⟨hpid, hend, hlt⟩ := (hfound.stop.resolve_right fun hno => hno.1 rfl).2 a t rfl
    have hlate := h.suffix
    have hsorted := hlate.sorted
    rw [List.map_cons] at hsorted
    have hbeyond := beyond_of_sorted (hlate.ok a List.mem_cons_self) hsorted hpid hlt
    refine (filterMap_self fun x hx => ?_).symm
    rcases List.mem_cons.mp hx with rfl | hx
    · exact rightPart_beyond hpid hend hlt
    · by_cases hxpid : x.pid = k.pid
      · exact rightPart_beyond hxpid hend (hbeyond x hx hxpid)
      · exact rightPart_other hxpid

theorem Late.drop {n₁ n' : Node} {a : Addr} {t back' : List Addr} (h : Late k n (mid ++ a :: t))
    (hnodup : (front ++ (mid ++ a :: t)).Nodup)
    (hmid : ∀ x ∈ mid, (n.span x).pid ≠ k.pid) (hpid : (n.span a).pid = k.pid)
    (hcase : Case.Holds (n.span a) k .contained) (hspan : n₁.span = n.span)
    (habort : n₁.abort = n.abort) (hcreated : n₁.created = n.created)
    (hrest : Trimmed W E k n₁ n' (front ++ mid) t back') :
    Trimmed W E k n n' front (mid ++ a :: t) (mid ++ back') := by
  have hmidt : ∀ x ∈ mid, x ∉ t := by
    intro x hx hmem
    have hrest := (List.nodup_append.mp hnodup).2.1
    exact (List.nodup_append.mp hrest).2.2 x hx x (List.mem_cons_of_mem a hmem) rfl
  refine ⟨by simpa using hrest.linked, ?_, ?_, ?_, hrest.abort.trans habort,
    hrest.created.trans hcreated⟩
  · exact (hrest.sublist.trans (List.sublist_cons_self a t)).append_left mid
  · have hnone := rightPart_none (h.ok a (by simp)) hpid hcase.2
    have hsame : mid.map n'.span = mid.map n.span := by
      apply List.map_congr_left
      intro x hx
      rw [hrest.span x (hmidt x hx), hspan]
    rw [List.map_append, List.map_append, List.map_cons, List.filterMap_append,
      filterMap_mid hmid, List.filterMap_cons_none hnone, hrest.spans, hsame, hspan]
  · intro x hx
    rw [hrest.span x fun hmem => hx (by simp [hmem]), hspan]

theorem Late.last {n' : Node} {a : Addr} {t : List Addr} (h : Late k n (mid ++ a :: t))
    (hnodup : (front ++ (mid ++ a :: t)).Nodup)
    (hmid : ∀ x ∈ mid, (n.span x).pid ≠ k.pid) (hpid : (n.span a).pid = k.pid)
    (hcase : Case.Holds (n.span a) k .endsAfter)
    (hspan : n'.span = update n.span a ((n.span a).withStart (k.oftEnd + 1)))
    (habort : n'.abort = n.abort) (hcreated : n'.created = n.created)
    (hlinked : Linked W E n' (front ++ (mid ++ a :: t))) :
    Trimmed W E k n n' front (mid ++ a :: t) (mid ++ a :: t) := by
  obtain ⟨-, hend, hstart, hlong⟩ := hcase
  have hback := (List.nodup_append.mp hnodup).2.1
  have hmida : ∀ x ∈ mid, x ≠ a := fun x hx =>
    (List.nodup_append.mp hback).2.2 x hx a List.mem_cons_self
  have hta : ∀ x ∈ t, x ≠ a := fun x hx e =>
    (List.nodup_cons.mp (List.nodup_append.mp hback).2.1).1 (e ▸ hx)
  have hlate := h.suffix
  have hsorted := hlate.sorted
  rw [List.map_cons] at hsorted
  refine ⟨hlinked, List.Sublist.refl _, ?_, ?_, habort, hcreated⟩
  · have hrest : (t.map n.span).filterMap (rightPart k) = t.map n.span := by
      refine filterMap_self fun x hx => ?_
      by_cases hxpid : x.pid = k.pid
      · have hbefore := (List.pairwise_cons.mp hsorted).1 x hx (hpid.trans hxpid.symm)
        exact rightPart_beyond hxpid hend (by omega)
      · exact rightPart_other hxpid
    have hmid' : mid.map n'.span = mid.map n.span := by
      apply List.map_congr_left
      intro x hx
      rw [hspan, update_of_ne (hmida x hx)]
    have ht : t.map n'.span = t.map n.span := by
      apply List.map_congr_left
      intro x hx
      rw [hspan, update_of_ne (hta x hx)]
    rw [List.map_append, List.map_append, List.map_cons, List.map_cons, List.filterMap_append,
      filterMap_mid hmid, List.filterMap_cons_some (rightPart_trim hpid hend hstart hlong), hrest,
      hmid', ht, hspan, update_self]
  · intro x hx
    have hxa : x ≠ a := fun e => hx (by simp [e])
    rw [hspan, update_of_ne hxa]

theorem Late.cases {c : Case} {a : Addr} (h : Late k n back) (ha : a ∈ back)
    (hpid : (n.span a).pid = k.pid) (hc : c ≠ .apart) (hholds : c.Holds (n.span a) k) :
    c = .contained ∨ c = .endsAfter := by
  have hlate := h.late a ha hpid
  cases c with
  | apart => exact absurd rfl hc
  | contained => exact Or.inl rfl
  | endsAfter => exact Or.inr rfl
  | _ =>
    simp only [Case.Holds] at hholds
    omega

theorem setLoop_tail {l spare : Addr} (hk : k.Ok) (hlock : k.usType ≠ .unlck) :
    ∀ (fuel : ℕ) (n : Node) (front back : List Addr), Linked W E n (front ++ back) → l ∈ front →
      n.span l = k → Late k n back → back.length ≤ n.fuel → back.length < fuel →
      ∃ n' back', setLoop l spare fuel n front.getLast? back.head? false = some n' ∧
        Trimmed W E k n n' front back back' := by
  intro fuel
  induction fuel with
  | zero =>
    intro n front back _ _ _ _ _ hlt
    exact absurd hlt (Nat.not_lt_zero _)
  | succ fuel ih =>
    intro n front back hlinked hl hspan hlate hle hlt
    have hback := (isMono_append.mp hlinked.mono).2
    obtain ⟨c, mid, rest, hfind, hfound⟩ := findOverlap_self hk back n.fuel front hback hlate.ok hle
    have hmid := hlate.others hfound
    rw [setLoop, hspan, hfind]
    rcases hfound.stop with ⟨rfl, -⟩ | ⟨hc, a, t, rfl, hpid, hholds⟩
    · exact ⟨n, back, rfl, hlate.done hlinked hfound⟩
    · have hsplit := hfound.split
      subst hsplit
      have ha : a ∈ front ++ (mid ++ a :: t) := by simp
      have hlist : front ++ (mid ++ a :: t) = (front ++ mid) ++ a :: t :=
        (List.append_assoc front mid (a :: t)).symm
      have hal : a ≠ l := fun e => by
        have hdisj := (List.nodup_append.mp hlinked.nodup).2.2
        exact hdisj l hl a (by simp) e.symm
      rcases hlate.cases (by simp) hpid hc hholds with rfl | rfl
      · -- covered: its waiters are passed on, and it is unlinked
        simp only [List.head?_cons]
        obtain ⟨hpassed, hnone, hsame⟩ := hlinked.pass ha (List.mem_append_left _ hl) hal
          (by rw [hspan]; exact hpid) (by rw [hspan]; exact hlock) (by rw [hspan]; exact hholds) rfl
        rw [hspan] at hpassed hnone hsame
        generalize hn₁ : (if downgrades k (n.span a) then fdLockfWakeup n a
          else handOver a l n (n.blockHd a)) = n₁ at hpassed hnone hsame ⊢
        rw [hlist] at hpassed
        have hremoved := hpassed.remove hnone
        have hnext : n.next a = t.head? := by
          have htail := (isMono_append.mp (hlist ▸ hlinked.mono)).2
          exact htail.2.head_eq
        have hfuel : (n₁.store (front ++ mid).getLast? (n₁.next a)).fuel = n.fuel := by
          simp only [Node.fuel, store_created, hsame.created]
        have hlength : t.length < (mid ++ a :: t).length := by
          rw [List.length_append, List.length_cons]
          omega
        obtain ⟨n', back', hloop, htrimmed⟩ := ih _ (front ++ mid) t hremoved
          (List.mem_append_left mid hl) (by rw [store_span, hsame.span]; exact hspan)
          (hlate.behind (by rw [store_span, hsame.span]))
          (by rw [hfuel]; omega) (by omega)
        refine ⟨n', mid ++ back', ?_, ?_⟩
        · rw [hnext, if_neg (by decide)]
          exact hloop
        · exact hlate.drop hlinked.nodup hmid hpid hholds (by rw [store_span, hsame.span])
            (by rw [store_abort, hsame.abort]) (by rw [store_created, hsame.created]) htrimmed
      · -- it ends after the new lock: it is trimmed, and the loop ends
        simp only [List.head?_cons]
        obtain ⟨htrim, hsame⟩ := hlinked.trim ha ((n.span a).withStart (k.oftEnd + 1))
        refine ⟨_, mid ++ a :: t, rfl, ?_⟩
        simp only [if_neg (by decide : ¬(false = true)), hspan]
        exact hlate.last hlinked.nodup hmid hpid hholds hsame.span hsame.abort hsame.created
          htrim

theorem clearLoop_tail {unlock spare : Addr} (hk : k.Ok) :
    ∀ (fuel : ℕ) (n : Node) (front back : List Addr), Linked W E n (front ++ back) →
      n.span unlock = k → Late k n back → back.length ≤ n.fuel → back.length < fuel →
      ∃ n' back', clearLoop unlock spare fuel n front.getLast? back.head? = some n' ∧
        Trimmed W E k n n' front back back' := by
  intro fuel
  induction fuel with
  | zero =>
    intro n front back _ _ _ _ hlt
    exact absurd hlt (Nat.not_lt_zero _)
  | succ fuel ih =>
    intro n front back hlinked hspan hlate hle hlt
    have hback := (isMono_append.mp hlinked.mono).2
    obtain ⟨c, mid, rest, hfind, hfound⟩ := findOverlap_self hk back n.fuel front hback hlate.ok hle
    have hmid := hlate.others hfound
    rw [clearLoop, hspan, hfind]
    rcases hfound.stop with ⟨rfl, -⟩ | ⟨hc, a, t, rfl, hpid, hholds⟩
    · exact ⟨n, back, rfl, hlate.done hlinked hfound⟩
    · have hsplit := hfound.split
      subst hsplit
      have ha : a ∈ front ++ (mid ++ a :: t) := by simp
      have hlist : front ++ (mid ++ a :: t) = (front ++ mid) ++ a :: t :=
        (List.append_assoc front mid (a :: t)).symm
      obtain ⟨hsame, hblockHd⟩ := hlinked.queued.toLined.wakeup_same ha
      have hwoken := hlinked.wakeup ha
      have hnone : (fdLockfWakeup n a).blockHd a = [] := by rw [hblockHd, update_self]
      rcases hlate.cases (by simp) hpid hc hholds with rfl | rfl
      · simp only [List.head?_cons]
        generalize fdLockfWakeup n a = n₁ at hsame hblockHd hwoken hnone ⊢
        rw [hlist] at hwoken
        have hremoved := hwoken.remove hnone
        have hnext : n₁.next a = t.head? := (isMono_append.mp hwoken.mono).2.2.head_eq
        have hfuel : (n₁.store (front ++ mid).getLast? (n₁.next a)).fuel = n.fuel := by
          simp only [Node.fuel, store_created, hsame.created]
        have hlength : t.length < (mid ++ a :: t).length := by
          rw [List.length_append, List.length_cons]
          omega
        obtain ⟨n', back', hloop, htrimmed⟩ := ih _ (front ++ mid) t hremoved
          (by rw [store_span, hsame.span]; exact hspan)
          (hlate.behind (by rw [store_span, hsame.span])) (by rw [hfuel]; omega) (by omega)
        refine ⟨n', mid ++ back', ?_, ?_⟩
        · rw [← hnext] at hloop
          exact hloop
        · exact hlate.drop hlinked.nodup hmid hpid hholds (by rw [store_span, hsame.span])
            (by rw [store_abort, hsame.abort]) (by rw [store_created, hsame.created]) htrimmed
      · simp only [List.head?_cons]
        generalize fdLockfWakeup n a = n₁ at hsame hblockHd hwoken hnone ⊢
        rw [hsame.span, hspan]
        refine ⟨_, mid ++ a :: t, rfl, ?_⟩
        refine hlate.last hlinked.nodup hmid hpid hholds ?_ hsame.abort hsame.created
          (hwoken.setSpan_nil ha hnone _)
        simp only [Node.setSpan, hsame.span]

end Tail

end SylixOS.FdLockf
