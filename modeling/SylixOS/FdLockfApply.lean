import SylixOS.FdLockfLoops

/-! What a request that nothing blocks does to the list: its range is cut out,
and a lock takes its place. -/

namespace SylixOS.FdLockf
open LinkedChain Function

section Cases

variable {k f : Span} {front rest : List Span}

theorem filterMap_behind (sorted : (f :: rest).Pairwise Before) (hpid : f.pid = k.pid)
    (hend : f.oftEnd ≠ -1 → k.oftEnd ≠ -1 ∧ k.oftEnd ≤ f.oftEnd) :
    rest.filterMap (rightPart k) = rest := by
  refine filterMap_self fun x hx => ?_
  by_cases hxpid : x.pid = k.pid
  · have hbefore := (List.pairwise_cons.mp sorted).1 x hx (hpid.trans hxpid.symm)
    have hk := hend hbefore.1
    exact rightPart_beyond hxpid hk.1 (by omega)
  · exact rightPart_other hxpid

theorem leftPart_none (h : k.oftStart ≤ f.oftStart) : leftPart k (f :: rest) = [] := by
  simp only [leftPart]
  rw [if_neg fun hlt => by omega]

theorem leftPart_some (hpid : f.pid = k.pid) (h : f.oftStart < k.oftStart) :
    leftPart k (f :: rest) = [f.withEnd (k.oftStart - 1)] := by
  simp only [leftPart]
  rw [if_pos ⟨hpid, h⟩]

theorem cut_nil : cut k front [] = front ++ (newPart k ++ []) := rfl

theorem cut_beyond (hk : k.Ok) (hf : f.Ok) (sorted : (f :: rest).Pairwise Before)
    (hpid : f.pid = k.pid) (hend : k.oftEnd ≠ -1) (hlt : k.oftEnd < f.oftStart) :
    cut k front (f :: rest) = front ++ (newPart k ++ f :: rest) := by
  have hstop := hk.stop
  have hfstop := hf.stop
  rw [cut, leftPart_none (by omega), List.filterMap_cons_some (rightPart_beyond hpid hend hlt),
    filterMap_behind sorted hpid fun _ => ⟨hend, by omega⟩]
  rfl

theorem cut_equal (hf : f.Ok) (sorted : (f :: rest).Pairwise Before) (hpid : f.pid = k.pid)
    (h : Case.Holds f k .equal) : cut k front (f :: rest) = front ++ (newPart k ++ rest) := by
  obtain ⟨hstart, hstop⟩ := h
  have hnone : rightPart k f = none := rightPart_none hf hpid (by omega)
  rw [cut, leftPart_none (by omega), List.filterMap_cons_none hnone,
    filterMap_behind sorted hpid fun hne => ⟨by omega, by omega⟩]
  rfl

def behindPart (k f : Span) : List Span :=
  if f.oftEnd = k.oftEnd then [] else [f.withStart (k.oftEnd + 1)]

variable (front) in
theorem cut_contains (hk : k.Ok) (hf : f.Ok) (sorted : (f :: rest).Pairwise Before)
    (hpid : f.pid = k.pid) (h : Case.Holds f k .contains) :
    cut k front (f :: rest) =
      front ++ (leftPart k (f :: rest) ++ (newPart k ++ (behindPart k f ++ rest))) := by
  obtain ⟨hstart, hend, hlong, -⟩ := h
  have hstop := hk.stop
  have hrest := filterMap_behind sorted hpid fun hne => ⟨hend, by omega⟩
  unfold cut behindPart
  split_ifs with heq
  · have hnone : rightPart k f = none := rightPart_none hf hpid (by omega)
    rw [List.filterMap_cons_none hnone, hrest]
    rfl
  · rw [List.filterMap_cons_some (rightPart_trim hpid hend (by omega) (by omega)), hrest]
    rfl

theorem cut_contained (hf : f.Ok) (hpid : f.pid = k.pid) (h : Case.Holds f k .contained) :
    cut k front (f :: rest) = front ++ (newPart k ++ rest.filterMap (rightPart k)) := by
  rw [cut, leftPart_none h.1, List.filterMap_cons_none (rightPart_none hf hpid h.2)]
  rfl

theorem cut_startsBefore (hf : f.Ok) (hpid : f.pid = k.pid) (h : Case.Holds f k .startsBefore) :
    cut k front (f :: rest) = front ++ (f.withEnd (k.oftStart - 1) ::
      (newPart k ++ rest.filterMap (rightPart k))) := by
  have hnone : rightPart k f = none := rightPart_none hf hpid (by
    obtain ⟨-, -, hstop⟩ := h
    omega)
  rw [cut, leftPart_some hpid h.1, List.filterMap_cons_none hnone]
  rfl

theorem cut_endsAfter (sorted : (f :: rest).Pairwise Before) (hpid : f.pid = k.pid)
    (h : Case.Holds f k .endsAfter) :
    cut k front (f :: rest) =
      front ++ (newPart k ++ f.withStart (k.oftEnd + 1) :: rest) := by
  obtain ⟨hstart, hend, hin, hlong⟩ := h
  rw [cut, leftPart_none (by omega), List.filterMap_cons_some (rightPart_trim hpid hend hin hlong),
    filterMap_behind sorted hpid fun _ => ⟨hend, by omega⟩]
  rfl

end Cases

structure Ready (W E : Addr → Prop) (k : Span) (l spare : Addr) (n : Node) (ids : List Addr) :
    Prop where
  linked : Linked W E n ids
  ok : ∀ x ∈ ids, (n.span x).Ok
  sorted : (ids.map n.span).Pairwise Before
  span : n.span l = k
  lock_out : l ∉ ids
  spare_out : spare ∉ ids
  apart : l ≠ spare
  lock_new : ¬W l
  spare_new : ¬W spare
  lock_free : n.blockHd l = []
  length : ids.length < n.fuel

structure Applied (W E : Addr → Prop) (k : Span) (l spare : Addr) (n n' : Node)
    (ids ids' : List Addr) : Prop where
  linked : Linked W E n' ids'
  mem : ∀ x ∈ ids', x ∈ ids ∨ x = l ∨ x = spare
  span : ∀ x, x ∉ ids → x ≠ spare → n'.span x = n.span x
  abort : ∀ x, x ≠ spare → n'.abort x = n.abort x
  created : n'.created = n.created
  spans : ∃ front back, ids.map n.span = front ++ back ∧ Place k front back ∧
    (ids'.map n'.span = cut k front back ∨
      ids'.map n'.span = front ++ back ∧ k.usType ≠ .unlck ∧
        ∃ f ∈ front ++ back, f.pid = k.pid ∧ f.usType = k.usType ∧ ∀ b, k.Covers b → f.Covers b)

section Apply

variable {W E : Addr → Prop} {k : Span} {l spare : Addr} {n n' : Node} {ids : List Addr}
variable {mid rest : List Addr} {c : Case}

theorem Found.place (hk : k.Ok) (h : Found n k (mid ++ rest) c mid rest)
    (ok : ∀ x ∈ mid ++ rest, (n.span x).Ok) : Place k (mid.map n.span) (rest.map n.span) := by
  constructor
  · intro x hx
    obtain ⟨y, hy, rfl⟩ := List.mem_map.mp hx
    exact h.passed y hy
  · intro f t ht
    cases rest with
    | nil => cases ht
    | cons a rest =>
      rw [List.map_cons] at ht
      obtain ⟨rfl, -⟩ := List.cons.inj ht
      have hstop := (ok a (by simp)).stop
      have hkstop := hk.stop
      rcases h.stop with ⟨-, hbeyond⟩ | ⟨hc, b, t', hb, hpid, hholds⟩
      · obtain ⟨hpid, hend, hlt⟩ := hbeyond a rest rfl
        exact ⟨hpid, by omega⟩
      · obtain ⟨rfl, -⟩ := List.cons.inj hb
        refine ⟨hpid, ?_⟩
        cases c with
        | apart => exact absurd rfl hc
        | _ =>
          simp only [Case.Holds] at hholds
          omega

theorem nodup_insert {α : Type*} {front back : List α} {x : α} (h : (front ++ back).Nodup)
    (hx : x ∉ front ++ back) : (front ++ x :: back).Nodup :=
  List.perm_middle.nodup_iff.mpr (List.nodup_cons.mpr ⟨hx, h⟩)

theorem newPart_lock (hlock : k.usType ≠ .unlck) : newPart k = [k] := by
  unfold newPart
  rw [if_neg hlock]

def link (n : Node) (l : Addr) (mid rest : List Addr) : Node :=
  (n.store mid.getLast? (some l)).setNext l rest.head?

theorem link_span : (link n l mid rest).span = n.span := store_span _ _ _

theorem link_blockHd : (link n l mid rest).blockHd = n.blockHd := store_blockHd _ _ _

theorem Ready.link_next (h : Ready W E k l spare n (mid ++ rest)) {back : List Addr} {x : Addr}
    (hx : W x) : (link n l mid back).next x = n.next x := by
  have hxl : x ≠ l := fun e => h.lock_new (e ▸ hx)
  have hlast : mid.getLast? ≠ some x := fun e =>
    (h.linked.queued.out x hx).1 (List.mem_append_left _ (List.mem_of_getLast? e))
  exact (update_of_ne hxl _ _).trans (store_next hlast)

theorem Ready.link_mono (h : Ready W E k l spare n (mid ++ rest)) {back : List Addr}
    (hback : IsMono n.next back.head? back) (hsub : back.Sublist rest) :
    IsMono (link n l mid back).next (link n l mid back).head (mid ++ l :: back) := by
  obtain ⟨hmid, -, hapart⟩ := List.nodup_append.mp h.linked.nodup
  have hout := h.lock_out
  rw [List.mem_append, not_or] at hout
  exact mono_link h.linked.mono hmid hback hout.1 hout.2 (fun hmem => hout.2 (hsub.subset hmem))
    fun x hx hmem => hapart x hx x (hsub.subset hmem) rfl

theorem map_update {a : Addr} {t : List Addr} (nodup : (mid ++ a :: t).Nodup) {span' : Addr → Span}
    {sp : Span} (h : span' = update n.span a sp) :
    mid.map span' = mid.map n.span ∧ span' a = sp ∧ t.map span' = t.map n.span := by
  obtain ⟨-, hat, hapart⟩ := List.nodup_append.mp nodup
  subst h
  refine ⟨List.map_congr_left fun x hx => ?_, update_self _ _ _,
    List.map_congr_left fun x hx => ?_⟩
  · exact update_of_ne (hapart x hx a List.mem_cons_self) _ _
  · have hxa : x ≠ a := fun e => (List.nodup_cons.mp hat).1 (e ▸ hx)
    exact update_of_ne hxa _ _

theorem Ready.insert (h : Ready W E k l spare n (mid ++ rest)) (hk : k.Ok)
    (hlock : k.usType ≠ .unlck) (hfound : Found n k (mid ++ rest) .apart mid rest) :
    Applied W E k l spare n (link n l mid rest) (mid ++ rest) (mid ++ l :: rest) := by
  have hrest := (isMono_append.mp h.linked.mono).2
  refine ⟨⟨h.link_mono hrest (List.Sublist.refl _), nodup_insert h.linked.nodup h.lock_out, ?_, ?_⟩,
    ?_, fun x _ _ => by rw [link_span], fun x _ => ?_, ?_, ?_⟩
  · refine h.linked.queued.toLined.relink (fun x _ => by rw [link_blockHd])
      (fun x _ => congrFun (store_sem _ _ _) x) (fun x hx => h.link_next hx) ?_ ?_
    · intro b hb
      rw [List.mem_append, List.mem_cons] at hb
      rcases hb with hb | rfl | hb
      · exact Or.inl (List.mem_append_left _ hb)
      · exact Or.inr ⟨by rw [link_blockHd]; exact h.lock_free, h.lock_new⟩
      · exact Or.inl (List.mem_append_right _ hb)
    · intro b hb
      left
      rw [List.mem_append] at hb ⊢
      exact hb.imp id (List.mem_cons_of_mem l)
  · refine h.linked.queued.blocks.relink h.linked.queued.toLined (fun x _ _ => by rw [link_span])
      (fun _ _ hfalse => hfalse) (fun b _ => by rw [link_blockHd]) ?_
    intro b hb
    rw [List.mem_append, List.mem_cons] at hb
    rcases hb with hb | rfl | hb
    · exact Or.inl (List.mem_append_left _ hb)
    · exact Or.inr (by rw [link_blockHd]; exact h.lock_free)
    · exact Or.inl (List.mem_append_right _ hb)
  · intro x hx
    rw [List.mem_append, List.mem_cons] at hx
    rw [List.mem_append]
    tauto
  · exact congrFun (store_abort _ _ _) x
  · exact store_created _ _ _
  · refine ⟨mid.map n.span, rest.map n.span, List.map_append, hfound.place hk h.ok, Or.inl ?_⟩
    rw [link_span, List.map_append, List.map_cons, h.span]
    have hsorted := h.sorted
    rw [List.map_append] at hsorted
    have hrests := (List.pairwise_append.mp hsorted).2.1
    cases rest with
    | nil => rw [List.map_nil, cut_nil, newPart_lock hlock]; rfl
    | cons a t =>
      obtain ⟨hpid, hend, hlt⟩ := (hfound.stop.resolve_right fun hno => hno.1 rfl).2 a t rfl
      rw [List.map_cons] at hrests ⊢
      rw [cut_beyond hk (h.ok a (by simp)) hrests hpid hend hlt, newPart_lock hlock]
      rfl

section Overlap

variable {a : Addr} {t : List Addr}

theorem Ready.before (h : Ready W E k l spare n (mid ++ a :: t)) (sp : Span)
    (hn' : n' = (link n l mid (a :: t)).setSpan a sp) :
    Linked W E (fdLockfWakeup n' a) (mid ++ l :: a :: t) ∧ SameBut W n' (fdLockfWakeup n' a) := by
  subst hn'
  have hback := (isMono_append.mp h.linked.mono).2
  have hblockHd : (link n l mid (a :: t)).blockHd = n.blockHd := link_blockHd
  have hnew : ∀ b ∈ mid ++ l :: a :: t, b ∈ mid ++ a :: t ∨ b = l := by
    intro b hb
    rw [List.mem_append, List.mem_cons] at hb
    rw [List.mem_append]
    tauto
  refine h.linked.rewire (by simp) (by simp) (h.link_mono hback (List.Sublist.refl _))
    (nodup_insert h.linked.nodup h.lock_out)
    (fun x _ => congrFun hblockHd x)
    (store_sem _ _ _) (fun x hx => h.link_next hx) ?_ ?_ ?_
  · intro x hxa _
    exact (update_of_ne hxa _ _).trans (congrFun link_span x)
  · intro b hb
    rcases hnew b hb with hb | rfl
    · exact Or.inl hb
    · exact Or.inr ⟨(congrFun hblockHd b).trans h.lock_free, h.lock_new⟩
  · intro b hb
    left
    rw [List.mem_append] at hb ⊢
    exact hb.imp id (List.mem_cons_of_mem l)

theorem Ready.behind (h : Ready W E k l spare n (mid ++ a :: t)) (new : List Addr)
    (path : IsPath n'.next (n'.next a) new t.head?) (hhead : n'.head = n.head)
    (hnext : ∀ x, x ≠ a → x ≠ l → x ≠ spare → n'.next x = n.next x)
    (hsem : n'.sem = n.sem) (hblockHd : ∀ x, x ≠ spare → n'.blockHd x = n.blockHd x)
    (hspan : ∀ x, x ≠ a → x ≠ spare → n'.span x = n.span x)
    (nodup : (mid ++ a :: (new ++ t)).Nodup)
    (hnew : ∀ x ∈ new, x = l ∨ x = spare ∧ n'.blockHd spare = []) :
    Linked W E (fdLockfWakeup n' a) (mid ++ a :: (new ++ t)) ∧
      SameBut W n' (fdLockfWakeup n' a) := by
  have hold : ∀ x, x ∈ mid ++ a :: t → x ≠ l ∧ x ≠ spare := fun x hx =>
    ⟨fun e => h.lock_out (e ▸ hx), fun e => h.spare_out (e ▸ hx)⟩
  have hwait : ∀ x, W x → x ≠ a ∧ x ≠ l ∧ x ≠ spare := fun x hx =>
    ⟨fun e => (h.linked.queued.out x hx).1 (by simp [e]), fun e => h.lock_new (e ▸ hx),
      fun e => h.spare_new (e ▸ hx)⟩
  obtain ⟨-, hat, hapart⟩ := List.nodup_append.mp h.linked.nodup
  refine h.linked.rewire (by simp) (by simp) ?_ nodup ?_ hsem ?_ ?_ ?_ ?_
  · rw [hhead]
    refine h.linked.mono.splice new path ?_ ?_
    · intro x hx
      obtain ⟨hxl, hxs⟩ := hold x (List.mem_append_left _ hx)
      exact hnext x (hapart x hx a List.mem_cons_self) hxl hxs
    · intro x hx
      obtain ⟨hxl, hxs⟩ := hold x (by simp [hx])
      exact hnext x (fun e => (List.nodup_cons.mp hat).1 (e ▸ hx)) hxl hxs
  · rintro x (hx | hx)
    · exact hblockHd x (hold x hx).2
    · exact hblockHd x (hwait x hx).2.2
  · exact fun x hx => hnext x (hwait x hx).1 (hwait x hx).2.1 (hwait x hx).2.2
  · rintro x hxa (hx | hx)
    · exact hspan x hxa (hold x hx).2
    · exact hspan x hxa (hwait x hx).2.2
  · intro b hb
    simp only [List.mem_append, List.mem_cons] at hb
    rcases hb with hb | rfl | hb | hb
    · exact Or.inl (by simp [hb])
    · exact Or.inl (by simp)
    · right
      rcases hnew b hb with rfl | ⟨rfl, hnil⟩
      · exact ⟨(hblockHd b h.apart).trans h.lock_free, h.lock_new⟩
      · exact ⟨hnil, h.spare_new⟩
    · exact Or.inl (by simp [hb])
  · intro b hb
    left
    simp only [List.mem_append, List.mem_cons] at hb ⊢
    tauto

theorem Ready.equal (h : Ready W E k l spare n (mid ++ a :: t)) (hk : k.Ok)
    (hlock : k.usType ≠ .unlck) (hfound : Found n k (mid ++ a :: t) .equal mid (a :: t))
    (hpid : (n.span a).pid = k.pid) (hholds : Case.Holds (n.span a) k .equal) {n₁ : Node}
    (hn₁ : n₁ = if downgrades k (n.span a) then fdLockfWakeup n a else n) :
    Applied W E k l spare n (n₁.setSpan a ((n₁.span a).withType (n₁.span l).usType))
      (mid ++ a :: t) (mid ++ a :: t) := by
  have ha : a ∈ mid ++ a :: t := by simp
  have hequal : (n.span a).withType k.usType = k := by
    obtain ⟨hstart, hend⟩ := hholds
    rw [Span.withType, hpid, hstart, hend]
  have hspan : n₁.span = n.span ∧ n₁.abort = n.abort ∧ n₁.created = n.created := by
    subst hn₁
    split_ifs
    · have hsame := (h.linked.queued.toLined.wakeup_same ha).1
      exact ⟨hsame.span, hsame.abort, hsame.created⟩
    · exact ⟨rfl, rfl, rfl⟩
  have hlinked : Linked W E (n₁.setSpan a k) (mid ++ a :: t) := by
    subst hn₁
    split_ifs with hdown
    · have hblockHd := (h.linked.queued.toLined.wakeup_same ha).2
      exact (h.linked.wakeup ha).setSpan_nil ha (by rw [hblockHd, update_self]) k
    · refine h.linked.setSpan ha fun r hr => ?_
      refine (h.linked.queued.blocks a ha id r hr).widen hpid (fun b hb => ?_) hlock hdown
      rw [← hequal]
      exact hb
  rw [hspan.1, h.span, hequal]
  obtain ⟨hmid, hself, ht⟩ := map_update h.linked.nodup
    (show (n₁.setSpan a k).span = update n.span a k by simp only [Node.setSpan, hspan.1])
  have hsorted := h.sorted
  rw [List.map_append, List.map_cons] at hsorted
  refine ⟨hlinked, fun x hx => Or.inl hx, fun x hx _ => ?_, fun x _ => congrFun hspan.2.1 x,
    hspan.2.2, mid.map n.span, (a :: t).map n.span, List.map_append, hfound.place hk h.ok, Or.inl ?_⟩
  · have hxa : x ≠ a := fun e => hx (by simp [e])
    exact (update_of_ne hxa _ _).trans (congrFun hspan.1 x)
  · rw [List.map_append, List.map_cons, hmid, hself, ht, List.map_cons,
      cut_equal (h.ok a ha) (List.pairwise_append.mp hsorted).2.1 hpid hholds, newPart_lock hlock]
    rfl

theorem Ready.map_spans (h : Ready W E k l spare n (mid ++ a :: t)) {span' : Addr → Span}
    (hspan : ∀ x, x ≠ a → x ≠ spare → span' x = n.span x) :
    mid.map span' = mid.map n.span ∧ t.map span' = t.map n.span ∧ span' l = k := by
  obtain ⟨-, hat, hapart⟩ := List.nodup_append.mp h.linked.nodup
  refine ⟨List.map_congr_left fun x hx => ?_, List.map_congr_left fun x hx => ?_, ?_⟩
  · exact hspan x (hapart x hx a List.mem_cons_self) fun e => h.spare_out (by simp [← e, hx])
  · exact hspan x (fun e => (List.nodup_cons.mp hat).1 (e ▸ hx)) fun e =>
      h.spare_out (by simp [← e, hx])
  · rw [hspan l (fun e => h.lock_out (by simp [e])) h.apart, h.span]

theorem Ready.takeFront (h : Ready W E k l spare n (mid ++ a :: t)) (hk : k.Ok)
    (hlock : k.usType ≠ .unlck) {c : Case} (hfound : Found n k (mid ++ a :: t) c mid (a :: t))
    (hcut : cut k (mid.map n.span) ((a :: t).map n.span) = mid.map n.span ++
      (newPart k ++ (n.span a).withStart (k.oftEnd + 1) :: t.map n.span))
    (hn' : n' = (link n l mid (a :: t)).setSpan a ((n.span a).withStart (k.oftEnd + 1))) :
    Applied W E k l spare n (fdLockfWakeup n' a) (mid ++ a :: t) (mid ++ l :: a :: t) := by
  obtain ⟨hlinked, hsame⟩ := h.before _ hn'
  have hspan : ∀ x, x ≠ a → (fdLockfWakeup n' a).span x = n.span x := by
    intro x hxa
    rw [hsame.span, hn']
    exact (update_of_ne hxa _ _).trans (congrFun link_span x)
  have hself : (fdLockfWakeup n' a).span a = (n.span a).withStart (k.oftEnd + 1) := by
    rw [hsame.span, hn']
    exact update_self _ _ _
  obtain ⟨hmid, ht, hl⟩ := h.map_spans fun x hxa _ => hspan x hxa
  refine ⟨hlinked, ?_, fun x hx _ => hspan x fun e => hx (by simp [e]), fun x _ => ?_, ?_,
    mid.map n.span, (a :: t).map n.span, List.map_append, hfound.place hk h.ok, Or.inl ?_⟩
  · intro x hx
    rw [List.mem_append, List.mem_cons] at hx
    rw [List.mem_append]
    tauto
  · rw [hsame.abort, hn']
    exact congrFun (store_abort _ _ _) x
  · rw [hsame.created, hn']
    exact store_created _ _ _
  · rw [hcut, List.map_append, List.map_cons, List.map_cons, hmid, ht, hl, hself,
      newPart_lock hlock]
    rfl

structure Cropped (n n' : Node) (a l spare : Addr) : Prop where
  span_self : n'.span a = (n.span a).withEnd ((n.span l).oftStart - 1)
  span : ∀ x, x ≠ a → x ≠ spare → n'.span x = n.span x
  head : n'.head = n.head
  sem : n'.sem = n.sem
  abort : ∀ x, x ≠ spare → n'.abort x = n.abort x
  created : n'.created = n.created
  blockHd : ∀ x, x ≠ spare → n'.blockHd x = n.blockHd x
  next : ∀ x, x ≠ a → x ≠ l → x ≠ spare → n'.next x = n.next x

structure Split (n n' : Node) (a l spare : Addr) : Prop extends Cropped n n' a l spare where
  next_self : n'.next a = some l
  next_lock : (n.span a).oftEnd = (n.span l).oftEnd ∧ n'.next l = n.next a ∨
    (n.span a).oftEnd ≠ (n.span l).oftEnd ∧ n'.next l = some spare ∧ n'.next spare = n.next a ∧
      n'.blockHd spare = [] ∧ n'.span spare = (n.span a).withStart ((n.span l).oftEnd + 1)

theorem split_spec (hal : a ≠ l) (has : a ≠ spare) (hls : l ≠ spare)
    (hstart : (n.span a).oftStart ≠ (n.span l).oftStart) :
    Split n (fdLockfSplit n a l spare) a l spare := by
  unfold fdLockfSplit
  rw [if_neg hstart]
  by_cases hend : (n.span a).oftEnd = (n.span l).oftEnd
  · rw [if_pos hend]
    refine ⟨⟨by simp [Node.setSpan, Node.setNext], ?_, rfl, rfl, fun _ _ => rfl, rfl,
      fun _ _ => rfl, ?_⟩, by simp [Node.setNext], Or.inl ⟨hend, ?_⟩⟩
    · intro x hxa _
      simp [Node.setSpan, Node.setNext, hxa]
    · intro x hxa hxl _
      simp [Node.setNext, Node.setSpan, hxa, hxl]
    · simp [Node.setNext, hal.symm]
  · rw [if_neg hend]
    refine ⟨⟨by simp [Node.setSpan, Node.setNext], ?_, rfl, rfl, ?_, rfl, ?_, ?_⟩,
      by simp [Node.setNext], Or.inr ⟨hend, ?_, ?_, ?_, ?_⟩⟩
    · intro x hxa hxs
      simp [Node.setSpan, Node.setNext, hxa, hxs]
    · intro x hxs
      simp [Node.setSpan, Node.setNext, hxs]
    · intro x hxs
      simp [Node.setSpan, Node.setNext, hxs]
    · intro x hxa hxl hxs
      simp [Node.setSpan, Node.setNext, hxa, hxl, hxs]
    · simp [Node.setNext, hal.symm]
    · simp [Node.setSpan, Node.setNext, hls.symm, has.symm]
    · simp [Node.setSpan, Node.setNext]
    · simp [Node.setSpan, Node.setNext, has.symm]

theorem Ready.nodup_behind (h : Ready W E k l spare n (mid ++ a :: t)) {new : List Addr}
    (hnew : ∀ x ∈ new, x = l ∨ x = spare) (hnodup : new.Nodup) :
    (mid ++ a :: (new ++ t)).Nodup := by
  have hold : ∀ x ∈ new, x ∉ mid ++ a :: t := by
    intro x hx hmem
    rcases hnew x hx with rfl | rfl
    · exact h.lock_out hmem
    · exact h.spare_out hmem
  have hperm : (mid ++ a :: (new ++ t)).Perm (new ++ (mid ++ a :: t)) := by
    have h1 : mid ++ a :: (new ++ t) = (mid ++ [a]) ++ (new ++ t) := by simp
    have h2 : new ++ (mid ++ a :: t) = new ++ ((mid ++ [a]) ++ t) := by simp
    rw [h1, h2, ← List.append_assoc, ← List.append_assoc]
    exact List.perm_append_comm.append_right t
  refine hperm.nodup_iff.mpr (List.nodup_append.mpr ⟨hnodup, h.linked.nodup, ?_⟩)
  exact fun x hx y hy e => hold x hx (e ▸ hy)

theorem Ready.divide (h : Ready W E k l spare n (mid ++ a :: t)) (hk : k.Ok)
    (hfound : Found n k (mid ++ a :: t) .contains mid (a :: t))
    (hpid : (n.span a).pid = k.pid) (hholds : Case.Holds (n.span a) k .contains)
    (hstart : (n.span a).oftStart ≠ k.oftStart) (hcropped : Cropped n n' a l spare)
    (new : List Addr) (path : IsPath n'.next (n'.next a) new t.head?)
    (hnew : ∀ x ∈ new, x = l ∨ x = spare ∧ n'.blockHd spare = []) (hnodup : new.Nodup)
    (hspans : new.map n'.span = newPart k ++ behindPart k (n.span a)) :
    Applied W E k l spare n (fdLockfWakeup n' a) (mid ++ a :: t) (mid ++ a :: (new ++ t)) := by
  have hlt : (n.span a).oftStart < k.oftStart := by
    have hle := hholds.1
    omega
  have hsorted := h.sorted
  rw [List.map_append, List.map_cons] at hsorted
  have hcut := cut_contains (mid.map n.span) hk (h.ok a (by simp))
    (List.pairwise_append.mp hsorted).2.1 hpid hholds
  rw [leftPart_some hpid hlt] at hcut
  have hnew' : ∀ x ∈ new, x = l ∨ x = spare := fun x hx => (hnew x hx).imp id And.left
  obtain ⟨hlinked, hsame⟩ := h.behind new path hcropped.head hcropped.next hcropped.sem
    hcropped.blockHd hcropped.span (h.nodup_behind hnew' hnodup) hnew
  obtain ⟨hmid, ht, -⟩ := h.map_spans hcropped.span
  refine ⟨hlinked, ?_, ?_, ?_, hsame.created.trans hcropped.created, mid.map n.span,
    (a :: t).map n.span, List.map_append, hfound.place hk h.ok, Or.inl ?_⟩
  · intro x hx
    simp only [List.mem_append, List.mem_cons] at hx ⊢
    rcases hx with hx | hx | hx | hx
    · exact Or.inl (Or.inl hx)
    · exact Or.inl (Or.inr (Or.inl hx))
    · exact Or.inr (hnew' x hx)
    · exact Or.inl (Or.inr (Or.inr hx))
  · intro x hx hxs
    rw [hsame.span]
    exact hcropped.span x (fun e => hx (by simp [e])) hxs
  · intro x hxs
    rw [hsame.abort]
    exact hcropped.abort x hxs
  · rw [List.map_cons, hcut, hsame.span, List.map_append, List.map_cons, List.map_append, hmid, ht,
      hspans, hcropped.span_self, h.span]
    simp

theorem Ready.split (h : Ready W E k l spare n (mid ++ a :: t)) (hk : k.Ok)
    (hlock : k.usType ≠ .unlck) (hfound : Found n k (mid ++ a :: t) .contains mid (a :: t))
    (hpid : (n.span a).pid = k.pid) (hholds : Case.Holds (n.span a) k .contains)
    (hstart : (n.span a).oftStart ≠ k.oftStart) :
    ∃ ids', Applied W E k l spare n (fdLockfWakeup (fdLockfSplit n a l spare) a) (mid ++ a :: t)
      ids' := by
  have hal : a ≠ l := fun e => h.lock_out (by simp [← e])
  have has : a ≠ spare := fun e => h.spare_out (by simp [← e])
  have hsplit := split_spec (n := n) hal has h.apart (by rw [h.span]; exact hstart)
  generalize fdLockfSplit n a l spare = n' at hsplit ⊢
  have hnext : n.next a = t.head? := (isMono_append.mp h.linked.mono).2.2.head_eq
  have hlspan : n'.span l = k := by rw [hsplit.span l hal.symm h.apart, h.span]
  have hnewPart := newPart_lock hlock
  rcases hsplit.next_lock with ⟨hend, hl⟩ | ⟨hend, hl, hs, hfree, hsspan⟩
  · rw [h.span] at hend
    refine ⟨_, h.divide hk hfound hpid hholds hstart hsplit.toCropped [l]
      ⟨hsplit.next_self, hl.trans hnext⟩ (fun x hx => Or.inl (List.mem_singleton.mp hx))
      (List.nodup_singleton l) ?_⟩
    rw [behindPart, if_pos hend, hnewPart, List.map_singleton, hlspan]
    rfl
  · rw [h.span] at hend hsspan
    refine ⟨_, h.divide hk hfound hpid hholds hstart hsplit.toCropped [l, spare]
      ⟨hsplit.next_self, hl, hs.trans hnext⟩ (by simp [hfree]) (by simp [h.apart]) ?_⟩
    rw [behindPart, if_neg hend, hnewPart, List.map_cons, List.map_singleton, hlspan, hsspan]
    rfl

theorem Ready.late (h : Ready W E k l spare n (mid ++ a :: t)) (hpid : (n.span a).pid = k.pid)
    (hstop : (n.span a).oftEnd = -1 ∨ k.oftStart ≤ (n.span a).oftEnd)
    (hspan : ∀ x ∈ t, n'.span x = n.span x) : Late k n' t := by
  have hsorted := h.sorted
  rw [List.map_append, List.map_cons] at hsorted
  have hat := List.pairwise_cons.mp (List.pairwise_append.mp hsorted).2.1
  refine ⟨fun x hx => ?_, ?_, fun x hx hxpid => ?_⟩
  · rw [hspan x hx]
    exact h.ok x (by simp [hx])
  · rw [List.map_congr_left hspan]
    exact hat.2
  · rw [hspan x hx] at hxpid ⊢
    have hbefore := hat.1 (n.span x) (List.mem_map_of_mem hx) (hpid.trans hxpid.symm)
    omega

theorem Ready.finish {n₂ : Node} {extra back' : List Addr} {c : Case}
    (h : Ready W E k l spare n (mid ++ a :: t)) (hk : k.Ok)
    (hfound : Found n k (mid ++ a :: t) c mid (a :: t))
    (htrim : Trimmed W E k n₂ n' (mid ++ extra) t back') (hextra : ∀ x ∈ extra, x = a ∨ x = l)
    (hspan : ∀ x, x ≠ a → n₂.span x = n.span x) (habort : n₂.abort = n.abort)
    (hcreated : n₂.created = n.created)
    (hcut : cut k (mid.map n.span) ((a :: t).map n.span) =
      mid.map n.span ++ (extra.map n₂.span ++ (t.map n.span).filterMap (rightPart k))) :
    Applied W E k l spare n n' (mid ++ a :: t) (mid ++ (extra ++ back')) := by
  obtain ⟨-, hat, hapart⟩ := List.nodup_append.mp h.linked.nodup
  have hmid : ∀ x ∈ mid, x ≠ a ∧ x ∉ t := fun x hx =>
    ⟨hapart x hx a List.mem_cons_self, fun hmem => hapart x hx x (List.mem_cons_of_mem a hmem) rfl⟩
  have ht : ∀ x ∈ t, x ≠ a := fun x hx e => (List.nodup_cons.mp hat).1 (e ▸ hx)
  have hext : ∀ x ∈ extra, x ∉ t := by
    intro x hx hmem
    rcases hextra x hx with rfl | rfl
    · exact ht x hmem rfl
    · exact h.lock_out (by simp [hmem])
  refine ⟨by simpa using htrim.linked, ?_, ?_, fun x _ => by rw [htrim.abort, habort],
    htrim.created.trans hcreated, mid.map n.span, (a :: t).map n.span, List.map_append,
    hfound.place hk h.ok, Or.inl ?_⟩
  · intro x hx
    simp only [List.mem_append, List.mem_cons] at hx ⊢
    rcases hx with hx | hx | hx
    · exact Or.inl (Or.inl hx)
    · exact (hextra x hx).imp (fun e => Or.inr (Or.inl e)) Or.inl
    · exact Or.inl (Or.inr (Or.inr (htrim.sublist.subset hx)))
  · intro x hx _
    rw [htrim.span x fun hmem => hx (by simp [hmem])]
    exact hspan x fun e => hx (by simp [e])
  · rw [hcut, List.map_append, List.map_append, htrim.spans]
    congr 1
    · refine List.map_congr_left fun x hx => ?_
      rw [htrim.span x (hmid x hx).2, hspan x (hmid x hx).1]
    · congr 1
      · exact List.map_congr_left fun x hx => htrim.span x (hext x hx)
      · rw [List.map_congr_left fun x hx => hspan x (ht x hx)]

theorem Ready.cover (h : Ready W E k l spare n (mid ++ a :: t)) (hlock : k.usType ≠ .unlck)
    (hpid : (n.span a).pid = k.pid) (hholds : Case.Holds (n.span a) k .contained) {n₁ : Node}
    (hn₁ : n₁ = if downgrades k (n.span a) then fdLockfWakeup n a
      else FdLockf.handOver a l n (n.blockHd a)) :
    Linked W E ((n₁.store mid.getLast? (some l)).setNext l (n₁.next a)) (mid ++ l :: t) ∧
      SameBut W n n₁ := by
  have hal : a ≠ l := fun e => h.lock_out (by simp [← e])
  have hall : Queued W E n (l :: (mid ++ a :: t)) := by
    refine ⟨h.linked.queued.toLined.relink (fun _ _ => rfl) (fun _ _ => rfl) (fun _ _ => rfl) ?_
      (fun b hb => Or.inl (List.mem_cons_of_mem l hb)), ?_⟩
    · intro b hb
      exact (List.mem_cons.mp hb).elim (fun e => Or.inr (e ▸ ⟨h.lock_free, h.lock_new⟩)) Or.inl
    · refine h.linked.queued.blocks.relink h.linked.queued.toLined (fun _ _ _ => rfl)
        (fun _ _ hfalse => hfalse) (fun _ _ => rfl) fun b hb => ?_
      exact (List.mem_cons.mp hb).elim (fun e => Or.inr (e ▸ h.lock_free)) Or.inl
  rw [← h.span] at hpid hlock hholds hn₁
  obtain ⟨hqueued, hnone, hsame⟩ := hall.pass (by simp) List.mem_cons_self hal hpid hlock hholds hn₁
  have hmono := IsMono.sameBut h.linked.mono hsame fun x hx => (h.linked.queued.out x hx).1
  have hrest := (isMono_append.mp hmono).2.2
  obtain ⟨hmid, hat, hapart⟩ := List.nodup_append.mp h.linked.nodup
  have hout := h.lock_out
  rw [List.mem_append, List.mem_cons, not_or, not_or] at hout
  have hnext : ∀ x, W x → ((n₁.store mid.getLast? (some l)).setNext l (n₁.next a)).next x =
      n₁.next x := by
    intro x hx
    have hxl : x ≠ l := fun e => h.lock_new (e ▸ hx)
    have hlast : mid.getLast? ≠ some x := fun e =>
      (h.linked.queued.out x hx).1 (List.mem_append_left _ (List.mem_of_getLast? e))
    exact (update_of_ne hxl _ _).trans (store_next hlast)
  have hnew : ∀ b ∈ mid ++ l :: t, b ∈ l :: (mid ++ a :: t) := by
    intro b hb
    simp only [List.mem_append, List.mem_cons] at hb ⊢
    tauto
  have hblockHd : ((n₁.store mid.getLast? (some l)).setNext l (n₁.next a)).blockHd = n₁.blockHd :=
    store_blockHd _ _ _
  refine ⟨⟨?_, ?_, ?_, ?_⟩, hsame⟩
  · rw [hrest.head_eq]
    exact mono_link hmono hmid (hrest.head_eq ▸ hrest) hout.1
      (by rw [List.mem_cons, not_or]; exact hout.2) hout.2.2
      fun x hx hmem => hapart x hx x (List.mem_cons_of_mem a hmem) rfl
  · have hsub : (mid ++ t).Sublist (mid ++ a :: t) := (List.sublist_cons_self a t).append_left mid
    refine nodup_insert (h.linked.nodup.sublist hsub) fun hmem => h.lock_out (hsub.subset hmem)
  · refine hqueued.toLined.relink (fun x _ => congrFun hblockHd x)
      (fun x _ => congrFun (store_sem _ _ _) x) hnext (fun b hb => Or.inl (hnew b hb)) ?_
    intro b hb
    simp only [List.mem_append, List.mem_cons] at hb ⊢
    by_cases hba : b = a
    · exact Or.inr (hba ▸ hnone)
    · left
      tauto
  · exact hqueued.blocks.relink hqueued.toLined (fun x _ _ => congrFun (store_span _ _ _) x)
      (fun _ _ hfalse => hfalse) (fun b _ => congrFun hblockHd b) fun b hb => Or.inl (hnew b hb)

end Overlap

theorem setLoop_applied (h : Ready W E k l spare n ids) (hk : k.Ok) (hlock : k.usType ≠ .unlck) :
    ∃ n' ids', setLoop l spare n.fuel n none n.head true = some n' ∧
      Applied W E k l spare n n' ids ids' := by
  obtain ⟨fuel, hfuel⟩ : ∃ fuel, n.fuel = fuel + 1 := ⟨2 * n.created, rfl⟩
  have hlength := h.length
  have hhead := h.linked.mono.head_eq
  obtain ⟨c, mid, rest, hfind, hfound⟩ := findOverlap_self hk ids n.fuel []
    (hhead ▸ h.linked.mono) h.ok (by omega)
  simp only [List.getLast?_nil, List.nil_append] at hfind
  have hsplit := hfound.split
  subst hsplit
  rw [hfuel, setLoop, h.span, hhead, hfind]
  rcases hfound.stop with ⟨rfl, -⟩ | ⟨hc, a, t, rfl, hpid, hholds⟩
  · exact ⟨_, _, rfl, h.insert hk hlock hfound⟩
  · have hsorted := h.sorted
    rw [List.map_append, List.map_cons] at hsorted
    have hat := (List.pairwise_append.mp hsorted).2.1
    have hok := h.ok a (by simp)
    have hnext : n.next a = t.head? := (isMono_append.mp h.linked.mono).2.2.head_eq
    have hta : ∀ x ∈ t, x ≠ a := fun x hx e =>
      (List.nodup_cons.mp (List.nodup_append.mp h.linked.nodup).2.1).1 (e ▸ hx)
    have htlength : t.length < fuel := by
      simp only [List.length_append, List.length_cons] at hlength
      omega
    cases c with
    | apart => exact absurd rfl hc
    | equal =>
      simp only [List.head?_cons]
      exact ⟨_, _, rfl, h.equal hk hlock hfound hpid hholds rfl⟩
    | contains =>
      simp only [List.head?_cons]
      by_cases htype : (n.span a).usType = k.usType
      · rw [if_pos htype]
        refine ⟨n, mid ++ a :: t, rfl, h.linked, fun x hx => Or.inl hx, fun _ _ _ => rfl,
          fun _ _ => rfl, rfl, mid.map n.span, (a :: t).map n.span, List.map_append,
          hfound.place hk h.ok, Or.inr ⟨List.map_append, hlock, n.span a, by simp, hpid, htype, ?_⟩⟩
        rintro b ⟨hb1, hb2⟩
        obtain ⟨h1, h2, h3, -⟩ := hholds
        exact ⟨by omega, by omega⟩
      · rw [if_neg htype]
        by_cases hstart : (n.span a).oftStart = k.oftStart
        · rw [if_pos hstart]
          refine ⟨_, _, rfl, h.takeFront hk hlock hfound ?_ rfl⟩
          have hend := hholds.2.2.2 hstart
          rw [List.map_cons, cut_contains _ hk hok hat hpid hholds, leftPart_none (by omega),
            behindPart, if_neg hend]
          rfl
        · rw [if_neg hstart]
          obtain ⟨ids', happlied⟩ := h.split hk hlock hfound hpid hholds hstart
          exact ⟨_, ids', rfl, happlied⟩
    | contained =>
      simp only [List.head?_cons]
      obtain ⟨hlinked, hsame⟩ := h.cover hlock hpid hholds rfl
      generalize (if downgrades k (n.span a) then fdLockfWakeup n a
        else handOver a l n (n.blockHd a)) = n₁ at hlinked hsame ⊢
      rw [if_pos trivial, hnext]
      generalize hn₂ : (n₁.store mid.getLast? (some l)).setNext l (n₁.next a) = n₂ at hlinked ⊢
      have hspan : n₂.span = n.span := by
        rw [← hn₂]
        exact (store_span _ _ _).trans hsame.span
      have hcreated : n₂.created = n.created := by
        rw [← hn₂]
        exact (store_created _ _ _).trans hsame.created
      have habort : n₂.abort = n.abort := by
        rw [← hn₂]
        exact (store_abort _ _ _).trans hsame.abort
      have hstop : (n.span a).oftEnd = -1 ∨ k.oftStart ≤ (n.span a).oftEnd := by
        have h1 := hholds.1
        have h2 := hok.stop
        omega
      obtain ⟨n', back', hloop, htrim⟩ := setLoop_tail (l := l) hk hlock fuel n₂
        (mid ++ [l]) t (by simpa using hlinked) (by simp) (by rw [hspan, h.span])
        (h.late hpid hstop fun x _ => by rw [hspan])
        (by simp only [Node.fuel, hcreated] at hfuel ⊢; omega) htlength
      rw [List.getLast?_concat] at hloop
      refine ⟨n', _, hloop, h.finish hk hfound htrim (by simp) (fun x _ => by rw [hspan]) habort
        hcreated ?_⟩
      rw [List.map_cons, cut_contained hok hpid hholds, newPart_lock hlock, List.map_singleton, hspan,
        h.span]
    | startsBefore =>
      simp only [List.head?_cons]
      have hal : a ≠ l := fun e => h.lock_out (by simp [← e])
      generalize hn₂ : ((n.setNext l (n.next a)).setNext a (some l)).setSpan a
        ((n.span a).withEnd (k.oftStart - 1)) = n₂
      have hspan₂ : n₂.span = update n.span a ((n.span a).withEnd (k.oftStart - 1)) := by
        rw [← hn₂]
        rfl
      have hnext₂ : n₂.next = update (update n.next l (n.next a)) a (some l) := by
        rw [← hn₂]
        rfl
      obtain ⟨hlinked, hsame⟩ := h.behind [l]
        ⟨by rw [hnext₂, update_self],
          by rw [hnext₂, update_of_ne hal.symm, update_self, hnext]; rfl⟩
        (by rw [← hn₂]; rfl)
        (fun x hxa hxl _ => by rw [hnext₂, update_of_ne hxa, update_of_ne hxl])
        (by rw [← hn₂]; rfl) (fun x _ => by rw [← hn₂]; rfl)
        (fun x hxa _ => by rw [hspan₂, update_of_ne hxa])
        (by
          have hinsert : ((mid ++ [a]) ++ l :: t).Nodup :=
            nodup_insert (by simpa using h.linked.nodup) (by simpa using h.lock_out)
          simpa using hinsert)
        (fun x hx => Or.inl (List.mem_singleton.mp hx))
      have hspan₃ : ∀ x, x ≠ a → (fdLockfWakeup n₂ a).span x = n.span x := by
        intro x hxa
        rw [hsame.span, hspan₂, update_of_ne hxa]
      have hcreated : (fdLockfWakeup n₂ a).created = n.created := by
        rw [hsame.created, ← hn₂]
        rfl
      obtain ⟨n', back', hloop, htrim⟩ := setLoop_tail (l := l) hk hlock fuel
        (fdLockfWakeup n₂ a) (mid ++ [a, l]) t (by simpa using hlinked) (by simp)
        (by rw [hspan₃ l hal.symm, h.span]) (h.late hpid hholds.2.1 fun x hx => hspan₃ x (hta x hx))
        (by simp only [Node.fuel, hcreated] at hfuel ⊢; omega) htlength
      have hlast : (mid ++ [a, l]).getLast? = some l := by simp
      rw [hlast, ← hnext] at hloop
      refine ⟨n', _, hloop, h.finish hk hfound htrim (by simp) hspan₃ ?_ hcreated ?_⟩
      · rw [hsame.abort, ← hn₂]
        rfl
      · rw [List.map_cons, cut_startsBefore hok hpid hholds, newPart_lock hlock, List.map_cons,
          List.map_singleton, hspan₃ l hal.symm, h.span, hsame.span, hspan₂, update_self]
        rfl
    | endsAfter =>
      simp only [List.head?_cons]
      rw [if_pos trivial]
      have hspan : (link n l mid (a :: t)).span = n.span := link_span
      refine ⟨_, _, rfl, h.takeFront hk hlock hfound ?_ ?_⟩
      · rw [List.map_cons, cut_endsAfter hat hpid hholds]
      · rw [← hspan, ← h.span, ← hspan]
        rfl

theorem newPart_unlock (hunlock : k.usType = .unlck) : newPart k = [] := by
  unfold newPart
  rw [if_pos hunlock]

theorem Found.congr {n₁ : Node} {back : List Addr} (h : Found n k back c mid rest)
    (hspan : n₁.span = n.span) : Found n₁ k back c mid rest where
  split := h.split
  passed := by
    rw [hspan]
    exact h.passed
  stop := by
    rw [hspan]
    exact h.stop

theorem Ready.wakeup (h : Ready W E k l spare n ids) {a : Addr} (ha : a ∈ ids) :
    Ready W E k l spare (fdLockfWakeup n a) ids := by
  obtain ⟨hsame, hblockHd⟩ := h.linked.queued.toLined.wakeup_same ha
  have hla : l ≠ a := fun e => h.lock_out (e ▸ ha)
  refine ⟨h.linked.wakeup ha, ?_, ?_, ?_, h.lock_out, h.spare_out, h.apart, h.lock_new,
    h.spare_new, ?_, ?_⟩
  · rw [hsame.span]
    exact h.ok
  · rw [hsame.span]
    exact h.sorted
  · rw [hsame.span]
    exact h.span
  · rw [hblockHd, update_of_ne hla]
    exact h.lock_free
  · rw [Node.fuel, hsame.created]
    exact h.length

theorem Applied.of_same {n₁ : Node} {ids' : List Addr} (hsame : SameBut W n n₁)
    (h : Applied W E k l spare n₁ n' ids ids') : Applied W E k l spare n n' ids ids' where
  linked := h.linked
  mem := h.mem
  span := by
    rw [← hsame.span]
    exact h.span
  abort := by
    rw [← hsame.abort]
    exact h.abort
  created := h.created.trans hsame.created
  spans := by
    rw [← hsame.span]
    exact h.spans

section Unlock

variable {a : Addr} {t : List Addr}

theorem Ready.unlink (h : Ready W E k l spare n (mid ++ a :: t)) (hk : k.Ok)
    (hunlock : k.usType = .unlck) (hfound : Found n k (mid ++ a :: t) .equal mid (a :: t))
    (hpid : (n.span a).pid = k.pid) (hholds : Case.Holds (n.span a) k .equal)
    (hnone : n.blockHd a = []) :
    Applied W E k l spare n (n.store mid.getLast? (n.next a)) (mid ++ a :: t) (mid ++ t) := by
  have hsorted := h.sorted
  rw [List.map_append, List.map_cons] at hsorted
  refine ⟨h.linked.remove hnone, fun x hx => ?_, fun x _ _ => by rw [store_span],
    fun x _ => by rw [store_abort], store_created _ _ _, mid.map n.span, (a :: t).map n.span,
    List.map_append, hfound.place hk h.ok, Or.inl ?_⟩
  · left
    simp only [List.mem_append, List.mem_cons] at hx ⊢
    tauto
  · rw [List.map_cons, cut_equal (h.ok a (by simp)) (List.pairwise_append.mp hsorted).2.1 hpid
      hholds, newPart_unlock hunlock, store_span, List.map_append]
    rfl

theorem Ready.shrink (h : Ready W E k l spare n (mid ++ a :: t)) (hk : k.Ok)
    (hunlock : k.usType = .unlck) (hfound : Found n k (mid ++ a :: t) c mid (a :: t))
    (hcut : cut k (mid.map n.span) ((a :: t).map n.span) = mid.map n.span ++
      (newPart k ++ (n.span a).withStart (k.oftEnd + 1) :: t.map n.span))
    (hnone : n.blockHd a = []) :
    Applied W E k l spare n (n.setSpan a ((n.span a).withStart (k.oftEnd + 1))) (mid ++ a :: t)
      (mid ++ a :: t) := by
  obtain ⟨hmid, hself, ht⟩ := map_update h.linked.nodup
    (show (n.setSpan a ((n.span a).withStart (k.oftEnd + 1))).span =
      update n.span a ((n.span a).withStart (k.oftEnd + 1)) from rfl)
  refine ⟨h.linked.setSpan_nil (by simp) hnone _, fun x hx => Or.inl hx, fun x hx _ => ?_,
    fun _ _ => rfl, rfl, mid.map n.span, (a :: t).map n.span, List.map_append,
    hfound.place hk h.ok, Or.inl ?_⟩
  · have hxa : x ≠ a := fun e => hx (by simp [e])
    exact update_of_ne hxa _ _
  · rw [hcut, List.map_append, List.map_cons, hmid, hself, ht, newPart_unlock hunlock]
    rfl

theorem Ready.carve (h : Ready W E k l spare n (mid ++ a :: t)) (hk : k.Ok)
    (hunlock : k.usType = .unlck) (hfound : Found n k (mid ++ a :: t) .contains mid (a :: t))
    (hpid : (n.span a).pid = k.pid) (hholds : Case.Holds (n.span a) k .contains)
    (hstart : (n.span a).oftStart ≠ k.oftStart) (hnone : n.blockHd a = []) :
    ∃ ids', Applied W E k l spare n ((fdLockfSplit n a l spare).setNext a
      ((fdLockfSplit n a l spare).next l)) (mid ++ a :: t) ids' := by
  have hal : a ≠ l := fun e => h.lock_out (by simp [← e])
  have has : a ≠ spare := fun e => h.spare_out (by simp [← e])
  have hsplit := split_spec (n := n) hal has h.apart (by rw [h.span]; exact hstart)
  generalize fdLockfSplit n a l spare = n₁ at hsplit ⊢
  have hnext : n.next a = t.head? := (isMono_append.mp h.linked.mono).2.2.head_eq
  generalize hn' : n₁.setNext a (n₁.next l) = n'
  have hnext' : n'.next = update n₁.next a (n₁.next l) := by
    rw [← hn']
    rfl
  have hcropped : Cropped n n' a l spare := by
    refine ⟨?_, ?_, ?_, ?_, ?_, ?_, ?_, ?_⟩
    all_goals rw [← hn']
    · exact hsplit.span_self
    · exact hsplit.span
    · exact hsplit.head
    · exact hsplit.sem
    · exact hsplit.abort
    · exact hsplit.created
    · exact hsplit.blockHd
    · intro x hxa hxl hxs
      exact (update_of_ne hxa _ _).trans (hsplit.next x hxa hxl hxs)
  -- there is no waiter left to be woken
  have hwoken : fdLockfWakeup n' a = n' := by
    rw [fdLockfWakeup, hcropped.blockHd a has, hnone, wakeAll]
  have hnewPart := newPart_unlock hunlock
  rcases hsplit.next_lock with ⟨hend, hl⟩ | ⟨hend, hl, hs, hfree, hsspan⟩
  · rw [h.span] at hend
    have happlied := h.divide hk hfound hpid hholds hstart hcropped []
      (by rw [hnext', update_self, hl, hnext]; rfl) (by simp) List.nodup_nil
      (by rw [behindPart, if_pos hend, hnewPart]; rfl)
    exact ⟨_, hwoken ▸ happlied⟩
  · rw [h.span] at hend hsspan
    have hfree' : n'.blockHd spare = [] := by
      rw [← hn']
      exact hfree
    have hsspan' : n'.span spare = (n.span a).withStart (k.oftEnd + 1) := by
      rw [← hn']
      exact hsspan
    have happlied := h.divide hk hfound hpid hholds hstart hcropped [spare]
      ⟨by rw [hnext', update_self, hl],
        by rw [hnext', update_of_ne has.symm, hs, hnext]; rfl⟩
      (by simp [hfree']) (List.nodup_singleton spare)
      (by rw [behindPart, if_neg hend, hnewPart, List.map_singleton, hsspan']; rfl)
    exact ⟨_, hwoken ▸ happlied⟩

end Unlock

theorem clearLoop_applied (h : Ready W E k l spare n ids) (hk : k.Ok)
    (hunlock : k.usType = .unlck) :
    ∃ n' ids', clearLoop l spare n.fuel n none n.head = some n' ∧
      Applied W E k l spare n n' ids ids' := by
  obtain ⟨fuel, hfuel⟩ : ∃ fuel, n.fuel = fuel + 1 := ⟨2 * n.created, rfl⟩
  have hlength := h.length
  have hhead := h.linked.mono.head_eq
  obtain ⟨c, mid, rest, hfind, hfound⟩ := findOverlap_self hk ids n.fuel []
    (hhead ▸ h.linked.mono) h.ok (by omega)
  simp only [List.getLast?_nil, List.nil_append] at hfind
  have hsplit := hfound.split
  subst hsplit
  have hsorted := h.sorted
  rw [List.map_append] at hsorted
  have hrests := (List.pairwise_append.mp hsorted).2.1
  rw [hfuel, clearLoop, h.span, hhead, hfind]
  rcases hfound.stop with ⟨rfl, hstop⟩ | ⟨hc, a, t, rfl, hpid, hholds⟩
  · refine ⟨n, mid ++ rest, rfl, h.linked, fun x hx => Or.inl hx, fun _ _ _ => rfl, fun _ _ => rfl,
      rfl, mid.map n.span, rest.map n.span, List.map_append, hfound.place hk h.ok, Or.inl ?_⟩
    rw [List.map_append]
    cases rest with
    | nil => rw [List.map_nil, cut_nil, newPart_unlock hunlock]; rfl
    | cons a t =>
      obtain ⟨hpid, hend, hlt⟩ := hstop a t rfl
      rw [List.map_cons] at hrests ⊢
      rw [cut_beyond hk (h.ok a (by simp)) hrests hpid hend hlt, newPart_unlock hunlock]
      rfl
  · have ha : a ∈ mid ++ a :: t := by simp
    obtain ⟨hsame, hblockHd⟩ := h.linked.queued.toLined.wakeup_same ha
    have hwoken := h.wakeup ha
    have hnone : (fdLockfWakeup n a).blockHd a = [] := by rw [hblockHd, update_self]
    have hfound₁ := hfound.congr hsame.span
    have htlength : t.length < fuel := by
      simp only [List.length_append, List.length_cons] at hlength
      omega
    simp only [List.head?_cons]
    suffices hgoal : ∃ n' ids', _ = some n' ∧
        Applied W E k l spare (fdLockfWakeup n a) n' (mid ++ a :: t) ids' by
      obtain ⟨n', ids', hloop, happlied⟩ := hgoal
      exact ⟨n', ids', hloop, happlied.of_same hsame⟩
    rw [← hsame.span] at hpid hholds hrests
    have hcreated : (fdLockfWakeup n a).created = n.created := hsame.created
    generalize fdLockfWakeup n a = n₁ at hwoken hnone hfound₁ hpid hholds hrests hcreated ⊢
    rw [List.map_cons] at hrests
    have hok := hwoken.ok a ha
    have hnext : n₁.next a = t.head? := (isMono_append.mp hwoken.linked.mono).2.2.head_eq
    have hta : ∀ x ∈ t, x ≠ a := fun x hx e =>
      (List.nodup_cons.mp (List.nodup_append.mp h.linked.nodup).2.1).1 (e ▸ hx)
    cases c with
    | apart => exact absurd rfl hc
    | equal => exact ⟨_, _, rfl, hwoken.unlink hk hunlock hfound₁ hpid hholds hnone⟩
    | contains =>
      simp only [hwoken.span]
      by_cases hstart : (n₁.span a).oftStart = k.oftStart
      · rw [if_pos hstart]
        refine ⟨_, _, rfl, hwoken.shrink hk hunlock hfound₁ ?_ hnone⟩
        have hend := hholds.2.2.2 hstart
        rw [List.map_cons, cut_contains _ hk hok hrests hpid hholds, leftPart_none (by omega),
          behindPart, if_neg hend]
        rfl
      · rw [if_neg hstart]
        obtain ⟨ids', happlied⟩ := hwoken.carve hk hunlock hfound₁ hpid hholds hstart hnone
        exact ⟨_, ids', rfl, happlied⟩
    | contained =>
      have hremoved := hwoken.linked.remove hnone
      have hstop : (n₁.span a).oftEnd = -1 ∨ k.oftStart ≤ (n₁.span a).oftEnd := by
        have h1 := hholds.1
        have h2 := hok.stop
        omega
      obtain ⟨n', back', hloop, htrim⟩ := clearLoop_tail hk fuel _
        mid t hremoved (by rw [store_span]; exact hwoken.span)
        (hwoken.late hpid hstop fun x _ => by rw [store_span])
        (by simp only [Node.fuel, store_created, hcreated] at hfuel ⊢; omega) htlength
      rw [← hnext] at hloop
      refine ⟨n', _, hloop, hwoken.finish hk hfound₁ (by rwa [List.append_nil])
        (by simp) (fun x _ => by rw [store_span]) (store_abort _ _ _) (store_created _ _ _) ?_⟩
      rw [List.map_cons, cut_contained hok hpid hholds, newPart_unlock hunlock]
      rfl
    | startsBefore =>
      simp only [hwoken.span]
      have hset := hwoken.linked.setSpan_nil ha hnone ((n₁.span a).withEnd (k.oftStart - 1))
      generalize hn₂ : n₁.setSpan a ((n₁.span a).withEnd (k.oftStart - 1)) = n₂ at hset ⊢
      have hspan₂ : n₂.span = update n₁.span a ((n₁.span a).withEnd (k.oftStart - 1)) := by
        rw [← hn₂]
        rfl
      have hspan₃ : ∀ x, x ≠ a → n₂.span x = n₁.span x := by
        intro x hxa
        rw [hspan₂, update_of_ne hxa]
      have hla : l ≠ a := fun e => h.lock_out (e ▸ ha)
      obtain ⟨n', back', hloop, htrim⟩ := clearLoop_tail hk fuel n₂
        (mid ++ [a]) t (by simpa using hset) (by rw [hspan₃ l hla]; exact hwoken.span)
        (hwoken.late hpid hholds.2.1 fun x hx => hspan₃ x (hta x hx))
        (by
          have hcreated₂ : n₂.created = n.created := by rw [← hn₂]; exact hcreated
          simp only [Node.fuel, hcreated₂] at hfuel ⊢
          omega) htlength
      rw [← hnext, List.getLast?_concat] at hloop
      refine ⟨n', _, hloop, hwoken.finish hk hfound₁ htrim (by simp) hspan₃
        (by rw [← hn₂]; rfl) (by rw [← hn₂]; rfl) ?_⟩
      rw [List.map_cons, cut_startsBefore hok hpid hholds, newPart_unlock hunlock,
        List.map_singleton, hspan₂, update_self]
      rfl
    | endsAfter =>
      simp only [hwoken.span]
      refine ⟨_, _, rfl, hwoken.shrink hk hunlock hfound₁ ?_ hnone⟩
      rw [List.map_cons, cut_endsAfter hrests hpid hholds]

end Apply

end SylixOS.FdLockf
