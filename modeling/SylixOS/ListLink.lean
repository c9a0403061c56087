import SylixOS.LinkedChain

/-! The intrusive lists of `kernel/list/listLink.c`. Rings and lines are stores of
links shared by every list over the same member; an operation takes the store and
the header it is given and returns both. Each operation is specified once by the
node list it represents and by the nodes it leaves alone. -/

namespace SylixOS.ListLink
open LinkedChain Function

variable {α : Type*} [DecidableEq α]

def listRingAddAhead (L : Links α) (new : α) (header : Option α) : Links α × Option α :=
  match header with
  | some h =>
    let L := L.setNext new (some h)
    let L := L.setPrev new (L.prev h)
    let L := L.setNextAt (L.prev h) (some new)
    let L := L.setPrev h (some new)
    (L, some new)
  | none =>
    let L := L.setPrev new (some new)
    let L := L.setNext new (some new)
    (L, some new)

def listRingAddLast (L : Links α) (new : α) (header : Option α) : Links α × Option α :=
  match header with
  | some h =>
    let L := L.setNextAt (L.prev h) (some new)
    let L := L.setPrev new (L.prev h)
    let L := L.setNext new (some h)
    let L := L.setPrev h (some new)
    (L, some h)
  | none =>
    let L := L.setPrev new (some new)
    let L := L.setNext new (some new)
    (L, some new)

def listRingAddFront (L : Links α) (new : α) (header : Option α) : Links α × Option α :=
  match header with
  | some h =>
    let L := L.setPrev new (some h)
    let L := L.setNext new (L.next h)
    let L := L.setPrevAt (L.next h) (some new)
    let L := L.setNext h (some new)
    (L, some h)
  | none =>
    let L := L.setPrev new (some new)
    let L := L.setNext new (some new)
    (L, some new)

def listRingNext (L : Links α) (header : Option α) : Option α := header.bind L.next

def initListRingHead (L : Links α) (a : α) : Links α :=
  (L.setNext a none).setPrev a none

def listRingDel (L : Links α) (del : α) (header : Option α) : Links α × Option α :=
  if L.next del = some del then
    (initListRingHead L del, none)
  else
    let header := if some del = header then L.next del else header
    let L := L.setNextAt (L.prev del) (L.next del)
    let L := L.setPrevAt (L.next del) (L.prev del)
    (initListRingHead L del, header)

def listLineAddTail (L : Links α) (new : α) (header : Option α) : Links α × Option α :=
  match header with
  | some h =>
    match L.next h with
    | some n =>
      let L := L.setNext new (some n)
      let L := L.setPrev new (some h)
      let L := L.setPrev n (some new)
      let L := L.setNext h (some new)
      (L, some h)
    | none =>
      let L := L.setNext h (some new)
      let L := L.setPrev new (some h)
      let L := L.setNext new none
      (L, some h)
  | none =>
    let L := L.setPrev new none
    let L := L.setNext new none
    (L, some new)

def listLineAddAhead (L : Links α) (new : α) (header : Option α) : Links α × Option α :=
  let L := L.setNext new header
  let L := L.setPrev new none
  (L.setPrevAt header (some new), some new)

def listLineAddRight (L : Links α) (new left : α) : Links α :=
  let right := L.next left
  let L := L.setNext new right
  let L := L.setPrev new (some left)
  let L := L.setPrevAt right (some new)
  L.setNext left (some new)

def listLineAddLeft (L : Links α) (new right : α) : Links α :=
  let left := L.prev right
  let L := L.setNext new (some right)
  let L := L.setPrev new left
  let L := L.setNextAt left (some new)
  L.setPrev right (some new)

def listMonoAllocate (next : α → Option α) (head : Option α) : Option (α × Option α) :=
  head.map fun a => (a, next a)

def listMonoFree (next : α → Option α) (head : Option α) (free : α) :
    (α → Option α) × Option α :=
  (update next free head, some free)

def listMonoAllocateSeq (next : α → Option α) (head tail : Option α) :
    Option (α × Option α × Option α) :=
  head.map fun a => (a, next a, if tail = head then next a else tail)

def listMonoFreeSeq (next : α → Option α) (head tail : Option α) (free : α) :
    (α → Option α) × Option α × Option α :=
  let next := update next free none
  match tail with
  | some z => (update next z (some free), head, some free)
  | none => (next, some free, some free)

def listLineDel (L : Links α) (del : α) (header : Option α) : Links α × Option α :=
  let header' := if L.prev del = none then L.next del else header
  let L' := L.setNextAt (L.prev del) (L.next del)
  (L'.setPrevAt (L'.next del) (L'.prev del), header')

omit [DecidableEq α] in
private theorem ring_last {L : Links α} {h : α} {t : List α} (nodup : (h :: t).Nodup)
    (linked : Linked L (h :: t).getLast? (h :: t) (some h)) :
    ∃ z, z ∈ h :: t ∧ (h :: t).getLast? = some z ∧ L.prev h = some z ∧ z ∉ (h :: t).dropLast := by
  refine ⟨(h :: t).getLast (by simp), List.getLast_mem _, List.getLast?_eq_some_getLast _, ?_, ?_⟩
  · rw [linked.1, List.getLast?_eq_some_getLast]
  · rw [← List.dropLast_append_getLast (l := h :: t) (by simp)] at nodup
    exact fun hm => (List.nodup_append.mp nodup).2.2 _ hm _ (by simp) rfl

private theorem ring_insert {L : Links α} {new h z : α} {t : List α}
    (nodup : (h :: t).Nodup) (fresh : new ∉ h :: t)
    (linked : Linked L (h :: t).getLast? (h :: t) (some h))
    (hz : (h :: t).getLast? = some z) (zdrop : z ∉ (h :: t).dropLast)
    (L' : Links α)
    (next : ∀ x, L'.next x = if x = new then some h else if x = z then some new else L.next x)
    (prev : ∀ x, L'.prev x = if x = new then some z else if x = h then some new else L.prev x) :
    Linked L' (some new) (h :: t) (some new) ∧ L'.prev new = some z ∧ L'.next new = some h ∧
    ∀ x, x ∉ new :: h :: t → L'.next x = L.next x ∧ L'.prev x = L.prev x := by
  have zmem : z ∈ h :: t := List.mem_of_getLast? hz
  have htail : h ∉ t := (List.nodup_cons.mp nodup).1
  refine ⟨linked.redirect ?_ ?_ ?_ ?_, by simp [prev], by simp [next], ?_⟩
  · intro x hx
    have hxz : x ≠ z := fun e => zdrop (e ▸ hx)
    have hxn : x ≠ new := fun e => fresh (e ▸ List.dropLast_subset _ hx)
    simp [next, hxz, hxn]
  · intro x hx
    have hxh : x ≠ h := fun e => htail (e ▸ hx)
    have hxn : x ≠ new := fun e => fresh (by rw [← e]; exact List.mem_cons_of_mem _ hx)
    simp [prev, hxh, hxn]
  · intro a ha
    have hah : a = h := by simpa using ha.symm
    have han : a ≠ new := fun e => fresh (by simp [← e, hah])
    simp [prev, hah, hah ▸ han]
  · intro y hy
    have hyz : y = z := Option.some.inj (hy.symm.trans hz)
    have hyn : z ≠ new := fun e => fresh (e ▸ zmem)
    simp [next, hyz, hyn]
  · intro x hx
    have hxn : x ≠ new := fun e => hx (by simp [e])
    have hxh : x ≠ h := fun e => hx (by simp [e])
    have hxz : x ≠ z := fun e => hx (List.mem_cons_of_mem _ (e ▸ zmem))
    simp [next, prev, hxn, hxh, hxz]

theorem listRingAddAhead_spec {L : Links α} {new : α} {header : Option α} {l : List α}
    (ring : IsRing L header l) (fresh : new ∉ l) :
    IsRing (listRingAddAhead L new header).1 (listRingAddAhead L new header).2 (new :: l) ∧
    ∀ x, x ∉ new :: l → (listRingAddAhead L new header).1.next x = L.next x ∧
      (listRingAddAhead L new header).1.prev x = L.prev x := by
  obtain ⟨rfl, nodup, linked⟩ := ring
  cases l with
  | nil =>
    refine ⟨⟨rfl, by simp, ?_⟩, ?_⟩
    · simp [listRingAddAhead, setNext_next, setPrev_prev]
    · intro x hx
      simp_all [listRingAddAhead, setNext_next, setPrev_prev]
  | cons h t =>
    have hne : h ≠ new := fun e => fresh (by simp [e])
    obtain ⟨z, zmem, hz, back, zdrop⟩ := ring_last nodup linked
    have zne : z ≠ new := fun e => fresh (e ▸ zmem)
    have insert := ring_insert nodup fresh linked hz zdrop
      (listRingAddAhead L new (some h)).1
      (by intro x; by_cases hx : x = new <;>
            simp [listRingAddAhead, setNext_next, setPrev_prev, setNextAt_next, hne, back, hx, zne.symm])
      (by intro x; by_cases hx : x = new <;>
            simp [listRingAddAhead, setPrev_prev, hne, hne.symm, back, hx])
    refine ⟨⟨rfl, List.nodup_cons.mpr ⟨fresh, nodup⟩, ?_⟩, insert.2.2.2⟩
    rw [List.getLast?_cons_cons, hz]
    exact ⟨insert.2.1, insert.2.2.1, insert.1⟩

theorem listRingAddLast_spec {L : Links α} {new : α} {header : Option α} {l : List α}
    (ring : IsRing L header l) (fresh : new ∉ l) :
    IsRing (listRingAddLast L new header).1 (listRingAddLast L new header).2 (l ++ [new]) ∧
    ∀ x, x ∉ l ++ [new] → (listRingAddLast L new header).1.next x = L.next x ∧
      (listRingAddLast L new header).1.prev x = L.prev x := by
  obtain ⟨rfl, nodup, linked⟩ := ring
  cases l with
  | nil =>
    refine ⟨⟨rfl, by simp, ?_⟩, ?_⟩
    · simp [listRingAddLast, setNext_next, setPrev_prev]
    · intro x hx
      simp_all [listRingAddLast, setNext_next, setPrev_prev]
  | cons h t =>
    have hne : h ≠ new := fun e => fresh (by simp [e])
    obtain ⟨z, zmem, hz, back, zdrop⟩ := ring_last nodup linked
    have zne : z ≠ new := fun e => fresh (e ▸ zmem)
    have insert := ring_insert nodup fresh linked hz zdrop
      (listRingAddLast L new (some h)).1
      (by intro x; by_cases hx : x = new <;>
            simp [listRingAddLast, setNext_next, setNextAt_next, back, hx])
      (by intro x; by_cases hx : x = new <;>
            simp [listRingAddLast, setPrev_prev, hne.symm, back, hx])
    refine ⟨⟨rfl, ?_, ?_⟩, fun x hx => insert.2.2.2 x (by simp_all)⟩
    · exact List.nodup_append.mpr ⟨nodup, by simp, fun a ha b hb => by
        rintro rfl; simp_all⟩
    · rw [linked_append]
      have last : (h :: t ++ [new]).getLast? = some new := List.getLast?_concat
      have here : Linked (listRingAddLast L new (some h)).1 (some z) [new] (some h) :=
        ⟨insert.2.1, insert.2.2.1, trivial⟩
      rw [last, hz]
      exact ⟨insert.1, here⟩

theorem listRingAddFront_spec {L : Links α} {new : α} {header : Option α} {l : List α}
    (ring : IsRing L header l) (fresh : new ∉ l) :
    (∃ l', l'.Perm (new :: l) ∧
      IsRing (listRingAddFront L new header).1 (listRingAddFront L new header).2 l') ∧
    ∀ x, x ∉ new :: l → (listRingAddFront L new header).1.next x = L.next x ∧
      (listRingAddFront L new header).1.prev x = L.prev x := by
  have header_eq := ring.header_eq
  subst header_eq
  cases l with
  | nil =>
    obtain ⟨added, frame⟩ := listRingAddAhead_spec ring fresh
    exact ⟨⟨[new], List.Perm.refl _, added⟩, frame⟩
  | cons h t =>
    have turned : IsRing L (t ++ [h]).head? (t ++ [h]) :=
      IsRing.rotate ring
    have fresh' : new ∉ t ++ [h] := by
      intro e
      refine fresh ?_
      simp only [List.mem_append, List.mem_cons, List.not_mem_nil, or_false] at e ⊢
      tauto
    obtain ⟨added, frame⟩ := listRingAddLast_spec turned fresh'
    have hne : new ≠ h := fun e => fresh (by simp [e])
    have next : L.next h = (t ++ [h]).head? := by
      have step := ring.linked.2.1
      simpa using step
    obtain ⟨n, hn⟩ : ∃ n, (t ++ [h]).head? = some n := ⟨_, List.head?_eq_some_head (by simp)⟩
    have back : L.prev n = some h := by
      have split := turned.linked
      cases t with
      | nil => simp_all
      | cons b t =>
        have hb : b = n := by simpa using hn
        rw [← hb, split.1]
        exact List.getLast?_concat (l := b :: t)
    have nmem : n ∈ t ++ [h] := List.mem_of_mem_head? hn
    have nne : n ≠ new := fun e => fresh' (e ▸ nmem)
    have same : (listRingAddFront L new (some h)).1 = (listRingAddLast L new (some n)).1 := by
      ext x : 2
      · by_cases hxh : x = h <;> by_cases hxn : x = new <;>
          simp_all [listRingAddFront, listRingAddLast, setNext_next, setNextAt_next]
      · by_cases hxh : x = n <;> by_cases hxn : x = new <;>
          simp_all [listRingAddFront, listRingAddLast, setPrev_prev, setPrevAt_prev,
            setNext_next]
    rw [hn] at added frame
    have perm : (h :: (new :: t)).Perm (new :: h :: t) := List.Perm.swap new h t
    refine ⟨⟨h :: new :: t, perm, ?_⟩, ?_⟩
    · have turnedBack := IsRing.rotate (by simpa using added)
      simp only [List.head?_cons]
      rw [same]
      simpa [listRingAddFront] using turnedBack
    · intro x hx
      simp only [List.head?_cons]
      rw [same]
      refine frame x ?_
      simp only [List.mem_append, List.mem_cons, List.not_mem_nil, or_false] at hx ⊢
      tauto

omit [DecidableEq α] in
theorem listRingNext_spec {L : Links α} {header : Option α} {l : List α}
    (ring : IsRing L header l) :
    ∃ l', l'.Perm l ∧ IsRing L (listRingNext L header) l' := by
  have header_eq := ring.header_eq
  subst header_eq
  cases l with
  | nil => exact ⟨[], List.Perm.refl _, ring⟩
  | cons h t =>
    have turned : IsRing L (t ++ [h]).head? (t ++ [h]) :=
      IsRing.rotate ring
    have next : L.next h = (t ++ [h]).head? := by
      have step := ring.linked.2.1
      simpa using step
    refine ⟨t ++ [h], List.perm_append_singleton h t, ?_⟩
    simpa only [listRingNext, List.head?_cons, Option.bind_some, next] using turned

private theorem ring_remove {L : Links α} {s t : List α} {a p n : α}
    (nodup : (s ++ a :: t).Nodup)
    (linked : Linked L (s ++ a :: t).getLast? (s ++ a :: t) (s ++ a :: t).head?)
    (hp : s.getLast?.or t.getLast? = some p) (hn : t.head?.or s.head? = some n)
    (L' : Links α)
    (next : ∀ x, x ≠ a → L'.next x = if x = p then some n else L.next x)
    (prev : ∀ x, x ≠ a → L'.prev x = if x = n then some p else L.prev x) :
    Linked L' (s ++ t).getLast? (s ++ t) (s ++ t).head? := by
  obtain ⟨left, _, _, right⟩ := (linked_append L _ _ s (a :: t)).mp linked
  obtain ⟨snodup, atnodup, disj⟩ := List.nodup_append.mp nodup
  obtain ⟨anot, tnodup⟩ := List.nodup_cons.mp atnodup
  have sne : ∀ x ∈ s, x ≠ a := fun x hx => disj x hx a (by simp)
  have tne : ∀ x ∈ t, x ≠ a := fun x hx e => anot (e ▸ hx)
  have cross : ∀ x ∈ s, ∀ y ∈ t, x ≠ y := fun x hx y hy => disj x hx y (by simp [hy])
  have pdrop : ∀ l : List α, l.Nodup → l.getLast? = some p → ∀ x ∈ l.dropLast, x ≠ p := by
    intro l hl hlast x hx e
    have split : l = l.dropLast ++ [p] := (List.dropLast_append_getLast? p hlast).symm
    rw [split] at hl
    exact (List.nodup_append.mp hl).2.2 x hx p (by simp) e
  have ntail : ∀ l : List α, l.Nodup → l.head? = some n → ∀ x ∈ l.tail, x ≠ n := by
    intro l hl hhead x hx e
    cases l with
    | nil => simp at hx
    | cons b l => simp_all
  rw [linked_append]
  cases hs : s.getLast? with
  | none =>
    have snil : s = [] := List.getLast?_eq_none_iff.mp hs
    subst snil
    have tp : t.getLast? = some p := by simpa using hp
    have tn : t.head? = some n := by simpa using hn
    refine ⟨trivial, ?_⟩
    simp only [List.nil_append, Option.none_or, tp, tn]
    refine right.redirect ?_ ?_ ?_ ?_
    · intro x hx
      rw [next x (tne x (List.dropLast_subset _ hx)), if_neg (pdrop t tnodup tp x hx)]
    · intro x hx
      rw [prev x (tne x (List.mem_of_mem_tail hx)), if_neg (ntail t tnodup tn x hx)]
    · intro b hb
      have hbn : b = n := Option.some.inj (hb.symm.trans tn)
      rw [prev b (tne b (List.mem_of_mem_head? hb)), if_pos hbn]
    · intro z hz
      have hzp : z = p := Option.some.inj (hz.symm.trans tp)
      rw [next z (tne z (List.mem_of_getLast? hz)), if_pos hzp]
  | some q =>
    have hqp : q = p := by simpa [hs] using hp
    subst hqp
    have qs : q ∈ s := List.mem_of_getLast? hs
    obtain ⟨b, hb⟩ : ∃ b, s.head? = some b := by
      cases s with
      | nil => simp at qs
      | cons b s => exact ⟨b, rfl⟩
    cases ht : t.head? with
    | none =>
      have tnil : t = [] := List.head?_eq_none_iff.mp ht
      subst tnil
      have hbn : b = n := by simpa [hb] using hn
      subst hbn
      refine ⟨?_, trivial⟩
      simp only [List.append_nil, Option.none_or, hs, hb]
      refine left.redirect ?_ ?_ ?_ ?_
      · intro x hx
        rw [next x (sne x (List.dropLast_subset _ hx)), if_neg (pdrop s snodup hs x hx)]
      · intro x hx
        rw [prev x (sne x (List.mem_of_mem_tail hx)), if_neg (ntail s snodup hb x hx)]
      · intro c hc
        have hcb : c = b := Option.some.inj (hc.symm.trans hb)
        rw [prev c (sne c (List.mem_of_mem_head? hc)), if_pos hcb]
      · intro z hz
        have hzq : z = q := Option.some.inj (hz.symm.trans hs)
        rw [next z (sne z (List.mem_of_getLast? hz)), if_pos hzq]
    | some m =>
      have hmn : m = n := by simpa [ht] using hn
      subst hmn
      have mt : m ∈ t := List.mem_of_mem_head? ht
      obtain ⟨z, hz⟩ : ∃ z, t.getLast? = some z := by
        cases t with
        | nil => simp at mt
        | cons c t => exact ⟨_, List.getLast?_eq_some_getLast (by simp)⟩
      have zt : z ∈ t := List.mem_of_getLast? hz
      have last : (s ++ a :: t).getLast? = some z := by
        simp [List.getLast?_append, List.getLast?_cons, hz]
      have head : (s ++ a :: t).head? = some b := by simp [List.head?_append, hb]
      rw [last, List.head?_cons] at left
      rw [head] at right
      simp only [List.getLast?_append, List.head?_append, hs, ht, hz, hb, Option.some_or]
      refine ⟨left.redirect ?_ ?_ ?_ ?_, right.redirect ?_ ?_ ?_ ?_⟩
      · intro x hx
        rw [next x (sne x (List.dropLast_subset _ hx)), if_neg (pdrop s snodup hs x hx)]
      · intro x hx
        have hxs := List.mem_of_mem_tail hx
        rw [prev x (sne x hxs), if_neg (cross x hxs m mt)]
      · intro c hc
        have hcs := List.mem_of_mem_head? hc
        obtain ⟨s', rfl⟩ : ∃ s', s = c :: s' := by
          cases s with
          | nil => simp at hc
          | cons d s' => exact ⟨s', by simpa using hc⟩
        rw [prev c (sne c hcs), if_neg (cross c hcs m mt)]
        exact left.1
      · intro y hy
        have hyq : y = q := Option.some.inj (hy.symm.trans hs)
        rw [next y (sne y (List.mem_of_getLast? hy)), if_pos hyq]
      · intro x hx
        have hxt := List.dropLast_subset _ hx
        rw [next x (tne x hxt), if_neg (fun e => cross q qs x hxt e.symm)]
      · intro x hx
        rw [prev x (tne x (List.mem_of_mem_tail hx)), if_neg (ntail t tnodup ht x hx)]
      · intro c hc
        have hcm : c = m := Option.some.inj (hc.symm.trans ht)
        rw [prev c (tne c (List.mem_of_mem_head? hc)), if_pos hcm]
      · intro y hy
        have hyt := List.mem_of_getLast? hy
        obtain ⟨t', rfl⟩ : ∃ t', t = t' ++ [y] :=
          ⟨t.dropLast, (List.dropLast_append_getLast? y hy).symm⟩
        rw [next y (tne y hyt), if_neg (fun e => cross q qs y hyt e.symm)]
        exact right.next_getLast

theorem initListRingHead_next (L : Links α) (a x : α) :
    (initListRingHead L a).next x = if x = a then none else L.next x := by
  simp [initListRingHead, setNext_next]

theorem initListRingHead_prev (L : Links α) (a x : α) :
    (initListRingHead L a).prev x = if x = a then none else L.prev x := by
  simp [initListRingHead, setPrev_prev]

theorem listRingDel_spec {L : Links α} {a : α} {header : Option α} {l : List α}
    (ring : IsRing L header l) (mem : a ∈ l) :
    IsRing (listRingDel L a header).1 (listRingDel L a header).2 (l.erase a) ∧
    (listRingDel L a header).1.next a = none ∧ (listRingDel L a header).1.prev a = none ∧
    ∀ x, x ∉ l → (listRingDel L a header).1.next x = L.next x ∧
      (listRingDel L a header).1.prev x = L.prev x := by
  obtain ⟨rfl, nodup, linked⟩ := ring
  obtain ⟨s, t, rfl⟩ := List.append_of_mem mem
  have anots : a ∉ s := fun h => (List.nodup_append.mp nodup).2.2 a h a (by simp) rfl
  have anott : a ∉ t := (List.nodup_cons.mp (List.nodup_append.mp nodup).2.1).1
  have erase : (s ++ a :: t).erase a = s ++ t := by simp [List.erase_append_right, anots]
  have here := ((linked_append L _ _ s (a :: t)).mp linked).2
  rw [erase]
  by_cases single : s ++ t = []
  · obtain ⟨rfl, rfl⟩ := List.append_eq_nil_iff.mp single
    have self : L.next a = some a := by simpa using here.2.1
    simp only [listRingDel, self, if_true]
    refine ⟨⟨rfl, by simp, trivial⟩, by simp [initListRingHead_next],
      by simp [initListRingHead_prev], ?_⟩
    intro x hx
    have hxa : x ≠ a := by simpa using hx
    simp [initListRingHead_next, initListRingHead_prev, hxa]
  · obtain ⟨p, hp⟩ : ∃ p, s.getLast?.or t.getLast? = some p := by
      cases hs : s.getLast? with
      | some p => exact ⟨p, rfl⟩
      | none =>
        cases ht : t.getLast? with
        | some p => exact ⟨p, rfl⟩
        | none => simp_all [List.getLast?_eq_none_iff]
    obtain ⟨n, hn⟩ : ∃ n, t.head?.or s.head? = some n := by
      cases ht : t.head? with
      | some n => exact ⟨n, rfl⟩
      | none =>
        cases hs : s.head? with
        | some n => exact ⟨n, rfl⟩
        | none => simp_all [List.head?_eq_none_iff]
    have back : L.prev a = some p := by
      rw [here.1, ← hp]
      cases hs : s.getLast? with
      | some q => rfl
      | none =>
        have snil : s = [] := List.getLast?_eq_none_iff.mp hs
        subst snil
        cases t with
        | nil => simp at single
        | cons c t => simp [List.getLast?_cons_cons]
    have forward : L.next a = some n := by
      rw [here.2.1, ← hn]
      cases ht : t.head? with
      | some q => rfl
      | none =>
        cases s with
        | nil => simp_all [List.head?_eq_none_iff]
        | cons c s => simp
    have memp : p ∈ s ++ t := by
      cases hs : s.getLast? with
      | some q => simp_all [List.mem_of_getLast? hs]
      | none =>
        have htp : t.getLast? = some p := by simpa [hs] using hp
        simp [List.mem_of_getLast? htp]
    have memn : n ∈ s ++ t := by
      cases ht : t.head? with
      | some q => simp_all [List.mem_of_mem_head? ht]
      | none =>
        have hsn : s.head? = some n := by simpa [ht] using hn
        simp [List.mem_of_mem_head? hsn]
    have outside : ∀ x ∈ s ++ t, x ≠ a := by
      intro x hx e
      subst e
      exact (List.mem_append.mp hx).elim anots anott
    have notself : n ≠ a := outside n memn
    have eq : listRingDel L a (s ++ a :: t).head? =
        (initListRingHead ((L.setNext p (some n)).setPrev n (some p)) a,
          if some a = (s ++ a :: t).head? then some n else (s ++ a :: t).head?) := by
      have pa : p ≠ a := outside p memp
      simp [listRingDel, forward, back, notself, Links.setNextAt, Links.setPrevAt, setNext_next,
        pa.symm]
    rw [eq]
    refine ⟨⟨?_, ?_, ?_⟩, by simp [initListRingHead_next], by simp [initListRingHead_prev], ?_⟩
    · cases s with
      | nil => simpa using hn.symm
      | cons c s =>
        have hac : a ≠ c := fun e => anots (by simp [e])
        simp [hac]
    · exact erase ▸ nodup.erase a
    · refine ring_remove nodup linked hp hn _ ?_ ?_
      · intro x hx
        simp [initListRingHead_next, setNext_next, hx]
      · intro x hx
        simp [initListRingHead_prev, setPrev_prev, hx]
    · intro x hx
      have hxa : x ≠ a := fun e => hx (by simp [e])
      have hxp : x ≠ p := fun e => hx (by subst e; simp_all)
      have hxn : x ≠ n := fun e => hx (by subst e; simp_all)
      simp [initListRingHead_next, initListRingHead_prev, setNext_next, setPrev_prev, hxa, hxp, hxn]

theorem ringFamily_move {κ : Type*} [DecidableEq κ] {L : Links α} {header : κ → Option α}
    {ring : κ → List α} (family : RingFamily L header ring) {a b : κ} (hab : a ≠ b) {n : α}
    {rest : List α} (ha : ring a = n :: rest) :
    let r := listRingDel L n (header a)
    let r' := listRingAddLast r.1 n (header b)
    r.2 = rest.head? ∧
      RingFamily r'.1 (update (update header a r.2) b r'.2)
        (update (update ring a rest) b (ring b ++ [n])) := by
  have mem : n ∈ ring a := ha ▸ List.mem_cons_self
  have fresh : ∀ k, k ≠ a → n ∉ ring k := fun k hk hn => hk (family.disjoint hn mem)
  obtain ⟨del, -, -, frame⟩ := listRingDel_spec (family.isRing a) mem
  rw [ha, List.erase_cons_head] at del
  have restSub : ∀ x ∈ rest, x ∈ ring a := fun x hx => ha ▸ List.mem_cons_of_mem n hx
  have nrest : n ∉ rest := by
    have nodup := (family.isRing a).nodup
    rw [ha] at nodup
    exact (List.nodup_cons.mp nodup).1
  have first := family.update del
    (fun k hk x hx => frame x fun hxa => hk (family.disjoint hx hxa))
    (fun k hk x hx hxr => hk (family.disjoint hx (restSub x hxr)))
  have keptHeader : update header a (listRingDel L n (header a)).2 b = header b :=
    update_of_ne hab.symm _ _
  have keptRing : update ring a rest b = ring b := update_of_ne hab.symm _ _
  have target := first.isRing b
  rw [keptHeader, keptRing] at target
  obtain ⟨added, frame'⟩ := listRingAddLast_spec target (fresh b hab.symm)
  have outside : ∀ k, k ≠ b → ∀ x ∈ update ring a rest k, x ∉ ring b ++ [n] := by
    intro k hk x hx hxb
    rcases List.mem_append.mp hxb with hxb | hxn
    · have hxb' : x ∈ update ring a rest b := keptRing.symm ▸ hxb
      exact hk (first.disjoint hx hxb')
    · rw [List.mem_singleton.mp hxn] at hx
      by_cases hka : k = a
      · rw [hka, update_self] at hx
        exact nrest hx
      · rw [update_of_ne hka] at hx
        exact fresh k hka hx
  refine ⟨del.header_eq, first.update added (fun k hk x hx => ?_) outside⟩
  exact frame' x (outside k hk x hx)

theorem listLineAddTail_spec {L : Links α} {new h : α} {s t : List α}
    (line : IsLine L (s ++ h :: t)) (fresh : new ∉ s ++ h :: t) :
    IsLine (listLineAddTail L new (some h)).1 (s ++ h :: new :: t) ∧
    ∀ x, x ∉ s ++ h :: new :: t → (listLineAddTail L new (some h)).1.next x = L.next x ∧
      (listLineAddTail L new (some h)).1.prev x = L.prev x := by
  obtain ⟨nodup, linked⟩ := line
  obtain ⟨left, back, forward, right⟩ := (linked_append L _ _ s (h :: t)).mp linked
  obtain ⟨_, htnodup, disj⟩ := List.nodup_append.mp nodup
  obtain ⟨hnot, tnodup⟩ := List.nodup_cons.mp htnodup
  have hne : h ≠ new := fun e => fresh (by simp [e])
  have snew : ∀ x ∈ s, x ≠ new := fun x hx e => fresh (by simp [← e, hx])
  have tnew : ∀ x ∈ t, x ≠ new := fun x hx e => fresh (by simp [← e, hx])
  have sh : ∀ x ∈ s, x ≠ h := fun x hx => disj x hx h (by simp)
  have th : ∀ x ∈ t, x ≠ h := fun x hx e => hnot (e ▸ hx)
  have next : ∀ x, (listLineAddTail L new (some h)).1.next x =
      if x = h then some new else if x = new then t.head? else L.next x := by
    intro x
    cases t with
    | nil =>
      have hn : L.next h = none := by simpa using forward
      by_cases hx : x = h <;> simp [listLineAddTail, hn, setNext_next, hx, hne]
    | cons n t =>
      have hn : L.next h = some n := by simpa using forward
      simp [listLineAddTail, hn, setNext_next]
  have prev : ∀ x, (listLineAddTail L new (some h)).1.prev x =
      if some x = t.head? then some new else if x = new then some h else L.prev x := by
    intro x
    cases t with
    | nil =>
      have hn : L.next h = none := by simpa using forward
      simp [listLineAddTail, hn, setPrev_prev]
    | cons n t =>
      have hn : L.next h = some n := by simpa using forward
      by_cases hx : x = n <;> simp [listLineAddTail, hn, setPrev_prev, hx]
  have headt : ∀ x, some x = t.head? → x ∈ t := fun x hx => List.mem_of_mem_head? hx.symm
  refine ⟨⟨?_, ?_⟩, ?_⟩
  · have insert : (s ++ h :: new :: t).Perm (new :: (s ++ h :: t)) := by
      have := @List.perm_middle _ new (s ++ [h]) t
      simpa using this
    exact insert.nodup_iff.mpr (List.nodup_cons.mpr ⟨fresh, nodup⟩)
  · rw [linked_append]
    refine ⟨left.congr ?_, ?_, ?_, ?_, ?_, ?_⟩
    · intro x hx
      have hxt : some x ≠ t.head? := fun e => disj x hx x (by simp [headt x e]) rfl
      simp [next, prev, hxt, snew x hx, sh x hx]
    · have hht : some h ≠ t.head? := fun e => hnot (headt h e)
      rw [prev, if_neg hht, if_neg hne]
      exact back
    · simp [next]
    · have hnt : some new ≠ t.head? := fun e => tnew new (headt new e) rfl
      simp [prev, hnt]
    · simp [next, hne.symm]
    · refine right.redirect ?_ ?_ ?_ ?_
      · intro x hx
        have hxt := List.dropLast_subset _ hx
        simp [next, th x hxt, tnew x hxt]
      · intro x hx
        have hxt : some x ≠ t.head? := by
          cases t with
          | nil => simp at hx
          | cons n t =>
            have hxn : x ≠ n := fun e => (List.nodup_cons.mp tnodup).1 (e ▸ hx)
            simpa using hxn
        simp [prev, hxt, tnew x (List.mem_of_mem_tail hx)]
      · intro a ha
        simp [prev, ha]
      · intro z hz
        have hzt := List.mem_of_getLast? hz
        obtain ⟨t', rfl⟩ : ∃ t', t = t' ++ [z] :=
          ⟨t.dropLast, (List.dropLast_append_getLast? z hz).symm⟩
        have hlast := right.next_getLast
        simp [next, th z hzt, tnew z hzt, hlast]
  · intro x hx
    have hxh : x ≠ h := fun e => hx (by simp [e])
    have hxn : x ≠ new := fun e => hx (by simp [e])
    have hxt : some x ≠ t.head? := fun e => hx (by simp [headt x e])
    simp [next, prev, hxh, hxn, hxt]

theorem listLineAddAhead_spec {L : Links α} {new : α} {l : List α} (line : IsLine L l)
    (fresh : new ∉ l) :
    IsLine (listLineAddAhead L new l.head?).1 (new :: l) ∧
    ∀ x, x ∉ new :: l → (listLineAddAhead L new l.head?).1.next x = L.next x ∧
      (listLineAddAhead L new l.head?).1.prev x = L.prev x := by
  have next : ∀ x, (listLineAddAhead L new l.head?).1.next x =
      if x = new then l.head? else L.next x := by
    intro x
    simp [listLineAddAhead, setNext_next]
  have prev : ∀ x, (listLineAddAhead L new l.head?).1.prev x =
      if some x = l.head? then some new else if x = new then none else L.prev x := by
    intro x
    simp [listLineAddAhead, setPrevAt_prev, setPrev_prev]
  have apart : ∀ x ∈ l, x ≠ new := fun x hx e => fresh (e ▸ hx)
  have head : ∀ x, some x = l.head? → x ∈ l := fun x hx => List.mem_of_mem_head? hx.symm
  refine ⟨⟨List.nodup_cons.mpr ⟨fresh, line.nodup⟩, ?_, ?_, ?_⟩, ?_⟩
  · rw [prev, if_neg (fun e => fresh (head new e)), if_pos rfl]
  · simp [next]
  · refine line.linked.redirect ?_ ?_ ?_ ?_
    · intro x hx
      rw [next, if_neg (apart x (List.dropLast_subset _ hx))]
    · intro x hx
      have hne : some x ≠ l.head? := by
        cases l with
        | nil => simp at hx
        | cons a t =>
          have hxa : x ≠ a := fun e => (List.nodup_cons.mp line.nodup).1 (e ▸ hx)
          simpa using hxa
      rw [prev, if_neg hne, if_neg (apart x (List.mem_of_mem_tail hx))]
    · intro a ha
      rw [prev, if_pos ha.symm]
    · intro z hz
      have hzl := List.mem_of_getLast? hz
      obtain ⟨t, rfl⟩ : ∃ t, l = t ++ [z] := ⟨l.dropLast, (List.dropLast_append_getLast? z hz).symm⟩
      rw [next, if_neg (apart z hzl)]
      exact line.linked.next_getLast
  · intro x hx
    have hxn : x ≠ new := fun e => hx (by simp [e])
    have hxl : some x ≠ l.head? := fun e => hx (by simp [head x e])
    rw [next, prev, if_neg hxn, if_neg hxl, if_neg hxn]
    exact ⟨rfl, rfl⟩

theorem listLineAddRight_eq {L : Links α} {new left : α} (ne : left ≠ new) :
    listLineAddRight L new left = (listLineAddTail L new (some left)).1 := by
  cases hn : L.next left with
  | some n => simp [listLineAddRight, listLineAddTail, hn, Links.setPrevAt]
  | none =>
    simp only [listLineAddRight, listLineAddTail, hn, Links.setPrevAt]
    ext x
    · simp only [setNext_next, setPrev_next]
      by_cases hx : x = left
      · simp [hx, ne]
      · simp [hx]
    · rfl

theorem listMonoFree_spec {next : α → Option α} {head : Option α} {a : α} {l : List α}
    (mono : IsMono next head l) (fresh : a ∉ l) :
    IsMono (listMonoFree next head a).1 (listMonoFree next head a).2 (a :: l) := by
  refine ⟨rfl, ?_⟩
  simp only [listMonoFree, update_self]
  refine mono.congr fun x hx => ?_
  have hxa : x ≠ a := fun e => fresh (e ▸ hx)
  rw [update_of_ne hxa]

theorem listMonoAllocateSeq_spec {next : α → Option α} {head tail : Option α} {a : α} {l : List α}
    (mono : IsMono next head (a :: l)) (last : tail = (a :: l).getLast?) (nodup : (a :: l).Nodup) :
    listMonoAllocateSeq next head tail = some (a, l.head?, l.getLast?) ∧
      IsMono next l.head? l := by
  obtain ⟨rfl, rest⟩ := mono
  have hnext := rest.head_eq
  rw [hnext] at rest
  refine ⟨?_, rest⟩
  simp only [listMonoAllocateSeq, Option.map_some, hnext, last]
  cases l with
  | nil => simp
  | cons b l =>
    have hne : (a :: b :: l).getLast? ≠ some a := by
      intro he
      rw [List.getLast?_cons_cons] at he
      exact (List.nodup_cons.mp nodup).1 (List.mem_of_getLast? he)
    rw [if_neg hne, List.getLast?_cons_cons]

theorem listMonoFreeSeq_spec {next : α → Option α} {head tail : Option α} {a : α} {l : List α}
    (mono : IsMono next head l) (last : tail = l.getLast?) (nodup : l.Nodup) (fresh : a ∉ l) :
    IsMono (listMonoFreeSeq next head tail a).1 (listMonoFreeSeq next head tail a).2.1 (l ++ [a]) ∧
      (listMonoFreeSeq next head tail a).2.2 = some a ∧
      ∀ x, x ∉ l → x ≠ a → (listMonoFreeSeq next head tail a).1 x = next x := by
  rcases List.eq_nil_or_concat l with rfl | ⟨front, z, rfl⟩
  · obtain rfl : tail = none := last
    refine ⟨⟨rfl, by simp [listMonoFreeSeq, IsMono]⟩, rfl, fun x _ hx => ?_⟩
    simp [listMonoFreeSeq, hx]
  · rw [List.concat_eq_append] at mono last nodup fresh ⊢
    rw [List.getLast?_append_of_ne_nil _ (by simp)] at last
    obtain rfl : tail = some z := last
    have hza : z ≠ a := fun e => fresh (by simp [e])
    have hz : z ∉ front := fun hm => (List.nodup_append.mp nodup).2.2 z hm z (by simp) rfl
    rw [← List.append_nil (front ++ [z])] at mono
    have path := (isMono_append.mp mono).1.redirect hz (some a)
    refine ⟨isMono_append.mpr ⟨?_, rfl, ?_⟩, rfl, fun x hx hxa => ?_⟩
    · apply path.congr
      intro x hx
      have hxa : x ≠ a := fun e => fresh (e ▸ hx)
      by_cases hxz : x = z <;> simp [listMonoFreeSeq, hxz, hxa]
    · simp [listMonoFreeSeq, IsMono, Ne.symm hza]
    · have hxz : x ≠ z := fun e => hx (by simp [e])
      simp [listMonoFreeSeq, hxa, hxz]

theorem listLineAddRight_spec {L : Links α} {new a : α} {s t : List α}
    (line : IsLine L (s ++ a :: t)) (fresh : new ∉ s ++ a :: t) :
    IsLine (listLineAddRight L new a) (s ++ a :: new :: t) := by
  have hne : a ≠ new := fun e => fresh (by simp [e])
  rw [listLineAddRight_eq hne]
  exact (listLineAddTail_spec line fresh).1

theorem listLineAddLeft_eq {L : Links α} {new left right : α} (back : L.prev right = some left)
    (forward : L.next left = some right) :
    listLineAddLeft L new right = listLineAddRight L new left := by
  simp only [listLineAddLeft, listLineAddRight, back, forward, Links.setNextAt, Links.setPrevAt]
  rfl

theorem listLineAddLeft_spec {L : Links α} {new left right : α} {s t : List α}
    (line : IsLine L (s ++ left :: right :: t)) (fresh : new ∉ s ++ left :: right :: t) :
    IsLine (listLineAddLeft L new right) (s ++ left :: new :: right :: t) := by
  have forward : L.next left = some right := by simpa using line.split.2
  have assoc : s ++ left :: right :: t = (s ++ [left]) ++ right :: t := by simp
  have back : L.prev right = some left := by
    rw [assoc] at line
    simpa using line.split.1
  rw [listLineAddLeft_eq back forward]
  exact listLineAddRight_spec line fresh

theorem listLineDel_spec {L : Links α} {a : α} {s t : List α}
    (line : IsLine L (s ++ a :: t)) (header : Option α) :
    IsLine (listLineDel L a header).1 (s ++ t) ∧
    ∀ x, x ∉ s ++ t → (listLineDel L a header).1.next x = L.next x ∧
      (listLineDel L a header).1.prev x = L.prev x := by
  have here := line.split
  obtain ⟨nodup, linked⟩ := line
  obtain ⟨left, _, _, right⟩ := (linked_append L _ _ s (a :: t)).mp linked
  obtain ⟨snodup, atnodup, disj⟩ := List.nodup_append.mp nodup
  obtain ⟨anot, tnodup⟩ := List.nodup_cons.mp atnodup
  have lasts : ∀ x, some x = s.getLast? → x ∈ s := fun x hx => List.mem_of_getLast? hx.symm
  have headt : ∀ x, some x = t.head? → x ∈ t := fun x hx => List.mem_of_mem_head? hx.symm
  have alast : some a ≠ s.getLast? := fun e => disj a (lasts a e) a (by simp) rfl
  have next : ∀ x, (listLineDel L a header).1.next x =
      if some x = s.getLast? then t.head? else L.next x := by
    intro x
    simp [listLineDel, setNextAt_next, here]
  have prev : ∀ x, (listLineDel L a header).1.prev x =
      if some x = t.head? then s.getLast? else L.prev x := by
    intro x
    simp [listLineDel, setPrevAt_prev, setNextAt_next, here, alast]
  refine ⟨⟨?_, ?_⟩, ?_⟩
  · have cut : (s ++ t).Sublist (s ++ a :: t) := (List.sublist_cons_self a t).append_left s
    exact nodup.sublist cut
  · rw [linked_append]
    refine ⟨left.redirect ?_ ?_ ?_ ?_, right.redirect ?_ ?_ ?_ ?_⟩
    · intro x hx
      have hxl : some x ≠ s.getLast? := by
        intro e
        have split : s = s.dropLast ++ [x] := (List.dropLast_append_getLast? x e.symm).symm
        rw [split] at snodup
        exact (List.nodup_append.mp snodup).2.2 x hx x (by simp) rfl
      simp [next, hxl]
    · intro x hx
      have hxt : some x ≠ t.head? := fun e =>
        disj x (List.mem_of_mem_tail hx) x (by simp [headt x e]) rfl
      simp [prev, hxt]
    · intro c hc
      obtain ⟨s', rfl⟩ : ∃ s', s = c :: s' := by
        cases s with
        | nil => simp at hc
        | cons d s' => exact ⟨s', by simpa using hc⟩
      have hct : some c ≠ t.head? := fun e => disj c (by simp) c (by simp [headt c e]) rfl
      simpa [prev, hct] using left.1
    · intro z hz
      simp [next, hz]
    · intro x hx
      have hxs : some x ≠ s.getLast? := fun e =>
        disj x (lasts x e) x (by simp [List.dropLast_subset _ hx]) rfl
      simp [next, hxs]
    · intro x hx
      have hxt : some x ≠ t.head? := by
        cases t with
        | nil => simp at hx
        | cons n t =>
          have hxn : x ≠ n := fun e => (List.nodup_cons.mp tnodup).1 (e ▸ hx)
          simpa using hxn
      simp [prev, hxt]
    · intro c hc
      simp [prev, hc]
    · intro z hz
      have hzs : some z ≠ s.getLast? := fun e =>
        disj z (lasts z e) z (by simp [List.mem_of_getLast? hz]) rfl
      obtain ⟨t', rfl⟩ : ∃ t', t = t' ++ [z] :=
        ⟨t.dropLast, (List.dropLast_append_getLast? z hz).symm⟩
      have hlast := right.next_getLast
      simp [next, hzs, hlast]
  · intro x hx
    have hxs : some x ≠ s.getLast? := fun e => hx (by simp [lasts x e])
    have hxt : some x ≠ t.head? := fun e => hx (by simp [headt x e])
    simp [next, prev, hxs, hxt]

theorem listLineDel_head {L : Links α} {a : α} {s t : List α} (line : IsLine L (s ++ a :: t)) :
    (listLineDel L a (s ++ a :: t).head?).2 = (s ++ t).head? := by
  obtain ⟨back, forward⟩ := line.split
  cases s with
  | nil =>
    have hprev : L.prev a = none := back
    simp [listLineDel, hprev, forward]
  | cons b s =>
    have hprev : L.prev a ≠ none := by simp [back, List.getLast?_cons]
    simp [listLineDel, hprev]

/-- The scan `do { ... } while (1)` of a ring: it leaves at the first node that
satisfies `found`, or when the next node is the header again. -/
def ringScan (L : Links α) (header : Option α) (found : α → Bool) : Nat → α → Option α
  | 0, _ => none
  | fuel + 1, cur =>
    if found cur then some cur
    else
      match L.next cur with
      | some n => if some n = header then none else ringScan L header found fuel n
      | none => none

def lineScan (L : Links α) (found : α → Bool) : Nat → Option α → Option α
  | fuel + 1, some cur => if found cur then some cur else lineScan L found fuel (L.next cur)
  | _, _ => none

theorem ringScan_eq_find {L : Links α} {header : Option α} {s t : List α} {cur : α}
    (ring : IsRing L header (s ++ cur :: t)) (found : α → Bool) {fuel : Nat}
    (enough : t.length < fuel) :
    ringScan L header found fuel cur = (cur :: t).find? found := by
  induction fuel generalizing s cur t with
  | zero => omega
  | succ fuel ih =>
    have tail := ((linked_append L _ _ s (cur :: t)).mp ring.linked).2
    by_cases hit : found cur
    · simp [ringScan, hit]
    · cases t with
      | nil =>
        have step : L.next cur = header := by rw [tail.2.1, ring.header_eq]; rfl
        cases header with
        | none => simp [ringScan, hit, step]
        | some h => simp [ringScan, hit, step]
      | cons n t =>
        have step : L.next cur = some n := by simpa using tail.2.1
        have again : some n ≠ header := by
          rw [ring.header_eq]
          intro e
          have disj := (List.nodup_append.mp ring.nodup).2
          cases s with
          | nil =>
            have hnc : n = cur := by simpa using e
            have nodup : (cur :: n :: t).Nodup := ring.nodup
            simp [hnc] at nodup
          | cons c s =>
            have hnc : n = c := by simpa using e
            exact disj.2 c (by simp) n (by simp) hnc.symm
        have rest : IsRing L header ((s ++ [cur]) ++ n :: t) := by simpa using ring
        have inner := ih rest (by simp at enough; omega)
        simp only [ringScan, hit, step, again, if_false, inner, List.find?_cons]
        rfl

omit [DecidableEq α] in
theorem lineScan_eq_find {L : Links α} {s t : List α} (line : IsLine L (s ++ t))
    (found : α → Bool) {fuel : Nat} (enough : t.length ≤ fuel) :
    lineScan L found fuel t.head? = t.find? found := by
  induction fuel generalizing s t with
  | zero =>
    have tnil : t = [] := List.length_eq_zero_iff.mp (by omega)
    simp [tnil, lineScan]
  | succ fuel ih =>
    cases t with
    | nil => simp [lineScan]
    | cons cur t =>
      have step := line.split.2
      have rest : IsLine L ((s ++ [cur]) ++ t) := by simpa using line
      have inner := ih rest (by simp at enough; omega)
      by_cases hit : found cur
      · simp [lineScan, hit]
      · simp [lineScan, hit, step, inner]

theorem RingFamily.move {κ : Type*} [DecidableEq κ] {L : Links α} {header : κ → Option α}
    {ring : κ → List α} (family : RingFamily L header ring) {k k' : κ} {a : α} (mem : a ∈ ring k)
    (apart : k ≠ k') :
    RingFamily (listRingAddLast (listRingDel L a (header k)).1 a (header k')).1
      (update (update header k (listRingDel L a (header k)).2) k'
        (listRingAddLast (listRingDel L a (header k)).1 a (header k')).2)
      (update (update ring k ((ring k).erase a)) k' (ring k' ++ [a])) := by
  obtain ⟨cut, -, -, frame⟩ := listRingDel_spec (family.isRing k) mem
  have removed : RingFamily (listRingDel L a (header k)).1
      (update header k (listRingDel L a (header k)).2)
      (update ring k ((ring k).erase a)) := by
    apply family.update cut
    · exact fun k₁ hk x hx => frame x fun hin => hk (family.disjoint hx hin)
    · exact fun k₁ hk x hx hin => hk (family.disjoint hx (List.mem_of_mem_erase hin))
  have outside : ∀ k₁, a ∉ update ring k ((ring k).erase a) k₁ := by
    intro k₁ hin
    by_cases hk : k₁ = k
    · rw [hk, update_self] at hin
      exact (List.Nodup.not_mem_erase (family.isRing k).nodup) hin
    · rw [update_of_ne hk] at hin
      exact hk (family.disjoint hin mem)
  have target := removed.isRing k'
  rw [update_of_ne apart.symm, update_of_ne apart.symm] at target
  have fresh : a ∉ ring k' := fun hin => apart (family.disjoint mem hin)
  obtain ⟨added, frame'⟩ := listRingAddLast_spec target fresh
  have away : ∀ k₁, k₁ ≠ k' → ∀ x ∈ update ring k ((ring k).erase a) k₁,
      x ∉ ring k' ++ [a] := by
    intro k₁ hk x hx hin
    rcases List.mem_append.mp hin with hin | hin
    · apply hk
      apply removed.disjoint hx
      rwa [update_of_ne apart.symm]
    · rw [List.mem_singleton] at hin
      exact outside k₁ (hin ▸ hx)
  apply removed.update added
  · exact fun k₁ hk x hx => frame' x (away k₁ hk x hx)
  · exact away

omit [DecidableEq α] in
theorem RingFamily.mem_moved [BEq α] [LawfulBEq α] {κ : Type*} [DecidableEq κ] {L : Links α}
    {header : κ → Option α} {ring : κ → List α} (family : RingFamily L header ring) {k k' : κ}
    {a : α} (mem : a ∈ ring k) (apart : k ≠ k') (b : α) (k₁ : κ) :
    b ∈ update (update ring k ((ring k).erase a)) k' (ring k' ++ [a]) k₁ ↔
      (b = a ∧ k₁ = k') ∨ (b ≠ a ∧ b ∈ ring k₁) := by
  have only : ∀ {k₂}, a ∈ ring k₂ → k₂ = k := fun hin => family.disjoint hin mem
  by_cases hk' : k₁ = k'
  · subst hk'
    rw [update_self, List.mem_append, List.mem_singleton]
    have hne : b ∈ ring k₁ → b ≠ a := by
      rintro hin rfl
      exact apart (only hin).symm
    tauto
  · rw [update_of_ne hk']
    by_cases hk : k₁ = k
    · subst hk
      rw [update_self, (family.isRing k₁).nodup.mem_erase_iff]
      tauto
    · rw [update_of_ne hk]
      have hne : b ∈ ring k₁ → b ≠ a := by
        rintro hin rfl
        exact hk (only hin)
      tauto

end SylixOS.ListLink
