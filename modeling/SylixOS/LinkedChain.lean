import Mathlib.Data.List.Nodup
import Mathlib.Data.List.Perm.Basic
import Mathlib.Logic.Function.Basic

/-! Doubly linked chains over an arbitrary node type. A store of links holds one next and
one previous pointer for every node, `none` being the null pointer. `Linked L p l q` says
that the nodes of `l` are chained in order, the first one back to `p` and the last one
forward to `q`. -/

namespace SylixOS.LinkedChain
open Function

variable {α : Type*}

@[ext] structure Links (α : Type*) where
  next : α → Option α
  prev : α → Option α

def Linked (L : Links α) : Option α → List α → Option α → Prop
  | _, [], _ => True
  | p, a :: t, q => L.prev a = p ∧ L.next a = t.head?.or q ∧ Linked L (some a) t q

@[simp] theorem linked_nil (L : Links α) (p q : Option α) : Linked L p [] q := trivial

@[simp] theorem linked_cons (L : Links α) (p q : Option α) (a : α) (t : List α) :
    Linked L p (a :: t) q ↔
      L.prev a = p ∧ L.next a = t.head?.or q ∧ Linked L (some a) t q := Iff.rfl

theorem linked_append (L : Links α) (p q : Option α) (l₁ l₂ : List α) :
    Linked L p (l₁ ++ l₂) q ↔
      Linked L p l₁ (l₂.head?.or q) ∧ Linked L (l₁.getLast?.or p) l₂ q := by
  induction l₁ generalizing p with
  | nil => simp
  | cons a t ih =>
    cases t with
    | nil => simp [and_assoc]
    | cons b t =>
      have last : ((a :: b :: t).getLast?.or p) = ((b :: t).getLast?.or (some a)) := by
        simp [List.getLast?_eq_some_getLast]
      rw [last, List.cons_append, linked_cons, ih, linked_cons]
      simp [and_assoc]

theorem Linked.redirect {L L' : Links α} {p p' q q' : Option α} {l : List α}
    (linked : Linked L p l q)
    (next : ∀ x ∈ l.dropLast, L'.next x = L.next x)
    (prev : ∀ x ∈ l.tail, L'.prev x = L.prev x)
    (first : ∀ a, l.head? = some a → L'.prev a = p')
    (last : ∀ z, l.getLast? = some z → L'.next z = q') : Linked L' p' l q' := by
  induction l generalizing p p' with
  | nil => trivial
  | cons a t ih =>
    obtain ⟨_, step, rest⟩ := linked
    refine ⟨first a rfl, ?_, ?_⟩
    · cases t with
      | nil => simpa using last a rfl
      | cons b t =>
        have keep := next a (by simp)
        simpa [keep] using step
    · cases t with
      | nil => trivial
      | cons b t =>
        refine ih rest (fun x hx => next x ?_) (fun x hx => prev x ?_) ?_ ?_
        · simpa using Or.inr hx
        · simpa using Or.inr hx
        · intro c hc
          have hb : b = c := by simpa using hc
          subst hb
          rw [prev b (by simp)]
          exact rest.1
        · intro z hz
          exact last z (by simpa [List.getLast?_cons_cons] using hz)

theorem Linked.congr {L L' : Links α} {p q : Option α} {l : List α}
    (linked : Linked L p l q)
    (same : ∀ x ∈ l, L'.next x = L.next x ∧ L'.prev x = L.prev x) : Linked L' p l q := by
  induction l generalizing p with
  | nil => trivial
  | cons a t ih =>
    obtain ⟨back, step, rest⟩ := linked
    have here := same a (by simp)
    refine ⟨here.2.trans back, here.1.trans step, ih rest ?_⟩
    intro x hx
    exact same x (by simp [hx])

theorem Linked.next_getLast {L : Links α} {p q : Option α} {l : List α} {z : α}
    (linked : Linked L p (l ++ [z]) q) : L.next z = q := by
  have tail := ((linked_append L p q l [z]).mp linked).2
  simpa using tail.2.1

structure IsRing (L : Links α) (header : Option α) (l : List α) : Prop where
  header_eq : header = l.head?
  nodup : l.Nodup
  linked : Linked L l.getLast? l l.head?

structure IsLine (L : Links α) (l : List α) : Prop where
  nodup : l.Nodup
  linked : Linked L none l none

def IsMono (next : α → Option α) : Option α → List α → Prop
  | head, [] => head = none
  | head, a :: l => head = some a ∧ IsMono next (next a) l

theorem IsMono.congr {next next' : α → Option α} {head : Option α} {l : List α}
    (mono : IsMono next head l) (same : ∀ x ∈ l, next' x = next x) : IsMono next' head l := by
  induction l generalizing head with
  | nil => exact mono
  | cons a l ih =>
    refine ⟨mono.1, ?_⟩
    rw [same a List.mem_cons_self]
    exact ih mono.2 fun x hx => same x (List.mem_cons_of_mem a hx)

theorem IsMono.head_eq {next : α → Option α} {head : Option α} {l : List α}
    (mono : IsMono next head l) : head = l.head? := by
  cases l with
  | nil => exact mono
  | cons a l => exact mono.1

theorem IsMono.unique {next : α → Option α} {head : Option α} {l l' : List α}
    (mono : IsMono next head l) (mono' : IsMono next head l') : l = l' := by
  induction l generalizing head l' with
  | nil =>
    obtain rfl : head = none := mono
    cases l' with
    | nil => rfl
    | cons b l' => exact nomatch mono'.1
  | cons a l ih =>
    obtain ⟨rfl, hrest⟩ := mono
    cases l' with
    | nil => exact nomatch mono'
    | cons b l' =>
      obtain ⟨hab, hrest'⟩ := mono'
      obtain rfl := Option.some.inj hab
      rw [ih hrest hrest']

def IsPath (next : α → Option α) : Option α → List α → Option α → Prop
  | head, [], stop => head = stop
  | head, a :: l, stop => head = some a ∧ IsPath next (next a) l stop

theorem isMono_append {next : α → Option α} {head : Option α} {front back : List α} :
    IsMono next head (front ++ back) ↔
      IsPath next head front back.head? ∧ IsMono next back.head? back := by
  induction front generalizing head with
  | nil =>
    constructor
    · exact fun mono => ⟨mono.head_eq, mono.head_eq ▸ mono⟩
    · rintro ⟨hhead, mono⟩
      have heq : head = back.head? := hhead
      rw [heq]
      exact mono
  | cons a front ih =>
    constructor
    · rintro ⟨hhead, mono⟩
      exact ⟨⟨hhead, (ih.mp mono).1⟩, (ih.mp mono).2⟩
    · rintro ⟨⟨hhead, path⟩, mono⟩
      exact ⟨hhead, ih.mpr ⟨path, mono⟩⟩

theorem IsPath.congr {next next' : α → Option α} {head stop : Option α} {l : List α}
    (path : IsPath next head l stop) (same : ∀ x ∈ l, next' x = next x) :
    IsPath next' head l stop := by
  induction l generalizing head with
  | nil => exact path
  | cons a l ih =>
    refine ⟨path.1, ?_⟩
    rw [same a List.mem_cons_self]
    exact ih path.2 fun x hx => same x (List.mem_cons_of_mem a hx)

theorem IsMono.splice {next next' : α → Option α} {head : Option α} {front t : List α} {a : α}
    (mono : IsMono next head (front ++ a :: t)) (new : List α)
    (path : IsPath next' (next' a) new t.head?) (hfront : ∀ x ∈ front, next' x = next x)
    (ht : ∀ x ∈ t, next' x = next x) : IsMono next' head (front ++ a :: (new ++ t)) := by
  obtain ⟨hpath, hhead, hrest⟩ := isMono_append.mp mono
  refine isMono_append.mpr ⟨hpath.congr hfront, rfl, ?_⟩
  refine isMono_append.mpr ⟨path, ?_⟩
  rw [← hrest.head_eq]
  exact hrest.congr ht

theorem IsPath.redirect [DecidableEq α] {next : α → Option α} {head stop : Option α} {l : List α}
    {z : α} (path : IsPath next head (l ++ [z]) stop) (fresh : z ∉ l) (stop' : Option α) :
    IsPath (update next z stop') head (l ++ [z]) stop' := by
  induction l generalizing head with
  | nil => exact ⟨path.1, by simp [IsPath]⟩
  | cons a l ih =>
    have haz : a ≠ z := fun e => fresh (e ▸ List.mem_cons_self)
    refine ⟨path.1, ?_⟩
    rw [update_of_ne haz]
    exact ih path.2 fun hmem => fresh (List.mem_cons_of_mem a hmem)

theorem IsRing.congr {L L' : Links α} {header : Option α} {l : List α}
    (ring : IsRing L header l)
    (same : ∀ x ∈ l, L'.next x = L.next x ∧ L'.prev x = L.prev x) : IsRing L' header l :=
  ⟨ring.header_eq, ring.nodup, ring.linked.congr same⟩

theorem IsRing.prev_ne_none {L : Links α} {header : Option α} {l : List α}
    (ring : IsRing L header l) {a : α} (mem : a ∈ l) : L.prev a ≠ none := by
  obtain ⟨s, t, rfl⟩ := List.append_of_mem mem
  have tail := ((linked_append L _ _ s (a :: t)).mp ring.linked).2
  rw [tail.1]
  cases s with
  | nil => simp [List.getLast?_eq_some_getLast]
  | cons b s => simp [List.getLast?_eq_some_getLast]

theorem IsRing.rotate {L : Links α} {header : Option α} {l₁ l₂ : List α}
    (ring : IsRing L header (l₁ ++ l₂)) : IsRing L (l₂ ++ l₁).head? (l₂ ++ l₁) := by
  refine ⟨rfl, (List.perm_append_comm.nodup_iff).mp ring.nodup, ?_⟩
  obtain ⟨first, second⟩ := (linked_append L _ _ l₁ l₂).mp ring.linked
  rw [linked_append]
  cases l₁ with
  | nil => simpa using second
  | cons a s =>
    cases l₂ with
    | nil => simpa using first
    | cons b t =>
      simp only [List.getLast?_append, List.head?_append, List.head?_cons, Option.some_or,
        List.getLast?_cons] at first second ⊢
      exact ⟨second, first⟩

theorem IsRing.next_head_eq_iff {L : Links α} {header : Option α} {h : α} {t : List α}
    (ring : IsRing L header (h :: t)) : L.next h = some h ↔ t = [] := by
  have step := ring.linked.2.1
  cases t with
  | nil => simpa using step
  | cons b t =>
    have apart : h ≠ b := fun e => (List.nodup_cons.mp ring.nodup).1 (by simp [e])
    have next : L.next h = some b := by simpa using step
    simp [next, apart.symm]

theorem IsRing.next_mem {L : Links α} {header : Option α} {l : List α} (ring : IsRing L header l)
    {a b : α} (mem : a ∈ l) (next : L.next a = some b) : b ∈ l := by
  obtain ⟨s, t, rfl⟩ := List.append_of_mem mem
  have tail := ((linked_append L _ _ s (a :: t)).mp ring.linked).2
  rw [tail.2.1] at next
  cases t with
  | nil =>
    rw [List.head?_nil, Option.none_or] at next
    exact List.mem_of_mem_head? next
  | cons c t =>
    rw [List.head?_cons, Option.some_or, Option.some.injEq] at next
    simp [next]

theorem IsRing.subset {L : Links α} {header : Option α} {l l' : List α} (ring : IsRing L header l)
    (ring' : IsRing L header l') : l ⊆ l' := by
  have walk : ∀ (t : List α) (a : α) (p q : Option α), Linked L p (a :: t) q → a ∈ l' →
      a :: t ⊆ l' := by
    intro t
    induction t with
    | nil =>
      intro a p q _ mem
      simpa using mem
    | cons b t ih =>
      intro a p q linked mem
      have next : L.next a = some b := linked.2.1
      exact List.cons_subset.mpr ⟨mem, ih b _ _ linked.2.2 (ring'.next_mem mem next)⟩
  cases l with
  | nil => exact List.nil_subset l'
  | cons h t =>
    refine walk t h _ _ ring.linked ?_
    have head := ring.header_eq.symm.trans ring'.header_eq
    exact List.mem_of_mem_head? head.symm

structure RingFamily {κ : Type*} (L : Links α) (header : κ → Option α) (ring : κ → List α) :
    Prop where
  isRing : ∀ k, IsRing L (header k) (ring k)
  disjoint : ∀ {k k' : κ} {a : α}, a ∈ ring k → a ∈ ring k' → k = k'

theorem RingFamily.update {κ : Type*} [DecidableEq κ] {L L' : Links α} {header : κ → Option α}
    {ring : κ → List α} (family : RingFamily L header ring) {k : κ} {h' : Option α} {l' : List α}
    (changed : IsRing L' h' l')
    (frame : ∀ k', k' ≠ k → ∀ x ∈ ring k', L'.next x = L.next x ∧ L'.prev x = L.prev x)
    (apart : ∀ k', k' ≠ k → ∀ x ∈ ring k', x ∉ l') :
    RingFamily L' (update header k h') (update ring k l') := by
  refine ⟨?_, ?_⟩
  · intro k'
    by_cases hk : k' = k
    · rw [hk, update_self, update_self]
      exact changed
    · rw [update_of_ne hk, update_of_ne hk]
      exact (family.isRing k').congr (frame k' hk)
  · intro k₁ k₂ a h₁ h₂
    by_cases hk₁ : k₁ = k <;> by_cases hk₂ : k₂ = k
    · rw [hk₁, hk₂]
    · rw [hk₁, update_self] at h₁
      rw [update_of_ne hk₂] at h₂
      exact absurd h₁ (apart k₂ hk₂ a h₂)
    · rw [hk₂, update_self] at h₂
      rw [update_of_ne hk₁] at h₁
      exact absurd h₂ (apart k₁ hk₁ a h₁)
    · rw [update_of_ne hk₁] at h₁
      rw [update_of_ne hk₂] at h₂
      exact family.disjoint h₁ h₂

theorem IsLine.congr {L L' : Links α} {l : List α} (line : IsLine L l)
    (same : ∀ x ∈ l, L'.next x = L.next x ∧ L'.prev x = L.prev x) : IsLine L' l :=
  ⟨line.nodup, line.linked.congr same⟩

theorem IsLine.split {L : Links α} {s t : List α} {a : α} (line : IsLine L (s ++ a :: t)) :
    L.prev a = s.getLast? ∧ L.next a = t.head? := by
  have tail := ((linked_append L _ _ s (a :: t)).mp line.linked).2
  exact ⟨by simpa using tail.1, by simpa using tail.2.1⟩

theorem Linked.eq_of_head {L : Links α} {p p' : Option α} {l l' : List α}
    (linked : Linked L p l none) (linked' : Linked L p' l' none) (head : l.head? = l'.head?) :
    l = l' := by
  induction l generalizing p p' l' with
  | nil =>
    cases l' with
    | nil => rfl
    | cons b t => simp at head
  | cons a t ih =>
    cases l' with
    | nil => simp at head
    | cons b t' =>
      obtain rfl : a = b := by simpa using head
      have step : t.head? = t'.head? := by
        have forward := linked.2.1.symm.trans linked'.2.1
        simpa using forward
      rw [ih linked.2.2 linked'.2.2 step]

theorem IsLine.next_getElem {L : Links α} {l : List α} (line : IsLine L l) {i : ℕ} {a : α}
    (at_i : l[i]? = some a) : L.next a = l[i + 1]? := by
  obtain ⟨hi, rfl⟩ := List.getElem?_eq_some_iff.mp at_i
  have cut : IsLine L (l.take i ++ l[i] :: l.drop (i + 1)) := by
    rwa [List.getElem_cons_drop, List.take_append_drop]
  rw [cut.split.2, List.head?_drop]

theorem IsLine.prev_getElem_succ {L : Links α} {l : List α} (line : IsLine L l) {i : ℕ} {a : α}
    (at_i : l[i + 1]? = some a) : L.prev a = l[i]? := by
  obtain ⟨hi, rfl⟩ := List.getElem?_eq_some_iff.mp at_i
  have cut : IsLine L (l.take (i + 1) ++ l[i + 1] :: l.drop (i + 1 + 1)) := by
    rwa [List.getElem_cons_drop, List.take_append_drop]
  have here : l[i]? = some l[i] := List.getElem?_eq_getElem (by omega)
  rw [cut.split.1, List.getLast?_take, if_neg (by omega), Nat.add_sub_cancel, here, Option.some_or]

theorem IsLine.ne_of_around {L : Links α} {s t : List α} {a u : α} (line : IsLine L (s ++ a :: t))
    (mem : u ∈ s ++ t) : u ≠ a := by
  rintro rfl
  obtain ⟨_, tail, disj⟩ := List.nodup_append.mp line.nodup
  rcases List.mem_append.mp mem with hs | ht
  · exact disj u hs u (by simp) rfl
  · exact (List.nodup_cons.mp tail).1 ht

variable [DecidableEq α]

def Links.setNext (L : Links α) (a : α) (v : Option α) : Links α :=
  { L with next := update L.next a v }

def Links.setPrev (L : Links α) (a : α) (v : Option α) : Links α :=
  { L with prev := update L.prev a v }

def Links.setNextAt (L : Links α) (a : Option α) (v : Option α) : Links α :=
  match a with
  | some a => L.setNext a v
  | none => L

def Links.setPrevAt (L : Links α) (a : Option α) (v : Option α) : Links α :=
  match a with
  | some a => L.setPrev a v
  | none => L

theorem setNext_next (L : Links α) (a x : α) (v : Option α) :
    (L.setNext a v).next x = if x = a then v else L.next x := by
  simp [Links.setNext, update_apply]

theorem setPrev_prev (L : Links α) (a x : α) (v : Option α) :
    (L.setPrev a v).prev x = if x = a then v else L.prev x := by
  simp [Links.setPrev, update_apply]

theorem setNextAt_next (L : Links α) (a : Option α) (x : α) (v : Option α) :
    (L.setNextAt a v).next x = if some x = a then v else L.next x := by
  cases a with
  | none => simp [Links.setNextAt]
  | some a => simp [Links.setNextAt, setNext_next]

theorem setPrevAt_prev (L : Links α) (a : Option α) (x : α) (v : Option α) :
    (L.setPrevAt a v).prev x = if some x = a then v else L.prev x := by
  cases a with
  | none => simp [Links.setPrevAt]
  | some a => simp [Links.setPrevAt, setPrev_prev]

@[simp] theorem setNext_prev (L : Links α) (a : α) (v : Option α) :
    (L.setNext a v).prev = L.prev := rfl

@[simp] theorem setPrev_next (L : Links α) (a : α) (v : Option α) :
    (L.setPrev a v).next = L.next := rfl

@[simp] theorem setNextAt_prev (L : Links α) (a : Option α) (v : Option α) :
    (L.setNextAt a v).prev = L.prev := by
  cases a <;> rfl

@[simp] theorem setPrevAt_next (L : Links α) (a : Option α) (v : Option α) :
    (L.setPrevAt a v).next = L.next := by
  cases a <;> rfl

end SylixOS.LinkedChain
