import SylixOS.FdLockfSpans

/-! The list of installed locks at the level of its pointers: storing into a
place of the list, and what the search for overlaps finds. -/

namespace SylixOS.FdLockf
open LinkedChain Function

section Store

variable {n : Node} {front back : List Addr}

@[simp] theorem store_span (n : Node) (p v : Option Addr) : (n.store p v).span = n.span := by
  cases p <;> rfl

@[simp] theorem store_blockHd (n : Node) (p v : Option Addr) :
    (n.store p v).blockHd = n.blockHd := by
  cases p <;> rfl

@[simp] theorem store_sem (n : Node) (p v : Option Addr) : (n.store p v).sem = n.sem := by
  cases p <;> rfl

@[simp] theorem store_abort (n : Node) (p v : Option Addr) : (n.store p v).abort = n.abort := by
  cases p <;> rfl

@[simp] theorem store_created (n : Node) (p v : Option Addr) :
    (n.store p v).created = n.created := by
  cases p <;> rfl

theorem store_next {n : Node} {p v : Option Addr} {x : Addr} (hx : p ≠ some x) :
    (n.store p v).next x = n.next x := by
  cases p with
  | none => rfl
  | some a => exact update_of_ne (fun e => hx (by rw [e])) _ _

theorem mono_store (new : List Addr) (mono : IsMono n.next n.head (front ++ back))
    (nodup : front.Nodup) (hnew : IsMono n.next new.head? new) (apart : ∀ x ∈ front, x ∉ new) :
    IsMono (n.store front.getLast? new.head?).next (n.store front.getLast? new.head?).head
      (front ++ new) := by
  obtain ⟨path, -⟩ := isMono_append.mp mono
  rcases List.eq_nil_or_concat front with rfl | ⟨l, z, rfl⟩
  · exact hnew
  · rw [List.concat_eq_append] at *
    have hz : z ∉ l := fun hmem => (List.nodup_append.mp nodup).2.2 z hmem z (by simp) rfl
    have hlast : (l ++ [z]).getLast? = some z := List.getLast?_concat
    rw [hlast]
    refine isMono_append.mpr ⟨path.redirect hz new.head?, hnew.congr fun x hx => ?_⟩
    have hxz : x ≠ z := fun e => apart z (by simp) (e ▸ hx)
    exact update_of_ne hxz _ _

theorem mono_setNext {l : List Addr} {a : Addr} (mono : IsMono n.next n.head l) (fresh : a ∉ l)
    (v : Option Addr) : IsMono (n.setNext a v).next (n.setNext a v).head l := by
  refine mono.congr fun x hx => ?_
  have hxa : x ≠ a := fun e => fresh (e ▸ hx)
  exact update_of_ne hxa _ _

theorem store_setNext_comm {p : Option Addr} {a : Addr} (hp : p ≠ some a) (u v : Option Addr) :
    (n.store p u).setNext a v = (n.setNext a v).store p u := by
  cases p with
  | none => rfl
  | some b =>
    have hba : b ≠ a := fun e => hp (by rw [e])
    simp only [Node.store, Node.setNext, update_comm hba]

theorem mono_link {a : Addr} {rest : List Addr} (mono : IsMono n.next n.head (front ++ back))
    (nodup : front.Nodup) (hrest : IsMono n.next rest.head? rest) (hfront : a ∉ front)
    (hback : a ∉ back) (ha : a ∉ rest) (apart : ∀ x ∈ front, x ∉ rest) :
    IsMono ((n.store front.getLast? (some a)).setNext a rest.head?).next
      ((n.store front.getLast? (some a)).setNext a rest.head?).head (front ++ a :: rest) := by
  have hplace : front.getLast? ≠ some a := fun e => hfront (List.mem_of_getLast? e)
  rw [store_setNext_comm hplace]
  have hall : a ∉ front ++ back := fun hmem => (List.mem_append.mp hmem).elim hfront hback
  apply mono_store (a :: rest) (mono_setNext mono hall rest.head?) nodup
  · refine ⟨rfl, ?_⟩
    have hself : (n.setNext a rest.head?).next a = rest.head? := update_self _ _ _
    rw [hself]
    refine hrest.congr fun x hx => ?_
    have hxa : x ≠ a := fun e => ha (e ▸ hx)
    exact update_of_ne hxa _ _
  · intro x hx hmem
    rcases List.mem_cons.mp hmem with rfl | hmem
    · exact hfront hx
    · exact apart x hx hmem

end Store

def Case.Holds (f k : Span) : Case → Prop
  | .apart => (f.oftEnd ≠ -1 ∧ f.oftEnd < k.oftStart) ∨ (k.oftEnd ≠ -1 ∧ k.oftEnd < f.oftStart)
  | .equal => f.oftStart = k.oftStart ∧ f.oftEnd = k.oftEnd
  | .contains => f.oftStart ≤ k.oftStart ∧ k.oftEnd ≠ -1 ∧ (f.oftEnd = -1 ∨ k.oftEnd ≤ f.oftEnd) ∧
      (f.oftStart = k.oftStart → f.oftEnd ≠ k.oftEnd)
  | .contained => k.oftStart ≤ f.oftStart ∧
      (k.oftEnd = -1 ∨ f.oftEnd ≠ -1 ∧ f.oftEnd ≤ k.oftEnd)
  | .startsBefore => f.oftStart < k.oftStart ∧ (f.oftEnd = -1 ∨ k.oftStart ≤ f.oftEnd) ∧
      (k.oftEnd = -1 ∨ f.oftEnd ≠ -1 ∧ f.oftEnd < k.oftEnd)
  | .endsAfter => k.oftStart < f.oftStart ∧ k.oftEnd ≠ -1 ∧ f.oftStart ≤ k.oftEnd ∧
      (f.oftEnd = -1 ∨ k.oftEnd < f.oftEnd)

theorem overlapCase_holds {f k : Span} (hf : f.Ok) (hk : k.Ok) :
    ∃ c, overlapCase f k = some c ∧ c.Holds f k := by
  have hf1 := hf.start
  have hf2 := hf.stop
  have hk1 := hk.start
  have hk2 := hk.stop
  unfold overlapCase
  split_ifs
  · exact ⟨_, rfl, by simp only [Case.Holds]; omega⟩
  · exact ⟨_, rfl, by simp only [Case.Holds]; omega⟩
  · exact ⟨_, rfl, by simp only [Case.Holds]; omega⟩
  · exact ⟨_, rfl, by simp only [Case.Holds]; omega⟩
  · exact ⟨_, rfl, by simp only [Case.Holds]; omega⟩
  · exact ⟨_, rfl, by simp only [Case.Holds]; omega⟩
  · omega

theorem not_apart_of_overlapCase {f k : Span} {c : Case} (h : overlapCase f k = some c)
    (hc : c ≠ .apart) : ¬Case.Holds f k .apart := by
  intro hapart
  unfold overlapCase at h
  rw [if_pos] at h
  · exact hc (Option.some.inj h).symm
  · simp only [Case.Holds] at hapart
    omega

def Overlaps (f k : Span) : Prop := ∃ b, f.Covers b ∧ k.Covers b

theorem overlaps_iff {f k : Span} (hf : f.Ok) (hk : k.Ok) :
    Overlaps f k ↔ ¬Case.Holds f k .apart := by
  have hf1 := hf.start
  have hf2 := hf.stop
  have hk1 := hk.start
  have hk2 := hk.stop
  constructor
  · rintro ⟨b, ⟨hfb, hfb'⟩, hkb, hkb'⟩ hapart
    simp only [Case.Holds] at hapart
    omega
  · intro hnot
    simp only [Case.Holds] at hnot
    refine ⟨max f.oftStart k.oftStart, ⟨?_, ?_⟩, ?_, ?_⟩ <;> omega

structure Found (n : Node) (k : Span) (back : List Addr) (c : Case) (mid rest : List Addr) :
    Prop where
  split : back = mid ++ rest
  passed : ∀ x ∈ mid, (n.span x).pid = k.pid →
    (n.span x).oftEnd ≠ -1 ∧ (n.span x).oftEnd < k.oftStart
  stop : c = .apart ∧ (∀ a t, rest = a :: t → (n.span a).pid = k.pid ∧ k.oftEnd ≠ -1 ∧
      k.oftEnd < (n.span a).oftStart) ∨
    c ≠ .apart ∧ ∃ a t, rest = a :: t ∧ (n.span a).pid = k.pid ∧ c.Holds (n.span a) k

theorem Found.skip {n : Node} {k : Span} {back mid rest : List Addr} {c : Case} {a : Addr}
    (h : Found n k back c mid rest) (ha : (n.span a).pid = k.pid →
      (n.span a).oftEnd ≠ -1 ∧ (n.span a).oftEnd < k.oftStart) :
    Found n k (a :: back) c (a :: mid) rest where
  split := by rw [h.split, List.cons_append]
  passed := fun x hx => (List.mem_cons.mp hx).elim (fun e => e ▸ ha) (h.passed x)
  stop := h.stop

theorem findOverlap_self {n : Node} {k : Span} (hk : k.Ok) (back : List Addr) :
    ∀ (fuel : ℕ) (front : List Addr), IsMono n.next back.head? back →
      (∀ x ∈ back, (n.span x).Ok) → back.length ≤ fuel →
      ∃ c mid rest, fdLockfFindOverlap n k .self fuel front.getLast? back.head? =
          some (c, (front ++ mid).getLast?, rest.head?) ∧ Found n k back c mid rest := by
  induction back with
  | nil =>
    intro fuel front _ _ _
    refine ⟨.apart, [], [], ?_, rfl, (fun _ hx => nomatch hx), Or.inl ⟨rfl, fun _ _ e => nomatch e⟩⟩
    simp only [List.append_nil, List.head?_nil]
    cases fuel <;> rfl
  | cons a back ih =>
    intro fuel front mono ok hfuel
    cases fuel with
    | zero => simp at hfuel
    | succ fuel =>
      have hnext : n.next a = back.head? := mono.2.head_eq
      have hmono : IsMono n.next back.head? back := hnext ▸ mono.2
      have hlast : (front ++ [a]).getLast? = some a := List.getLast?_concat
      obtain ⟨c, mid, rest, hfind, hfound⟩ := ih fuel (front ++ [a]) hmono
        (fun x hx => ok x (List.mem_cons_of_mem a hx)) (Nat.le_of_succ_le_succ hfuel)
      rw [hlast, List.append_assoc, List.singleton_append] at hfind
      simp only [List.head?_cons, fdLockfFindOverlap]
      by_cases hpid : (n.span a).pid = k.pid
      · rw [if_neg (by simpa [skips] using hpid)]
        obtain ⟨c', hcase, hholds⟩ := overlapCase_holds (ok a List.mem_cons_self) hk
        rw [hcase]
        by_cases hapart : c' = .apart
        · subst hapart
          simp only
          by_cases hbeyond : k.oftEnd ≠ -1 ∧ (n.span a).oftStart > k.oftEnd
          · rw [if_pos ⟨trivial, hbeyond⟩]
            refine ⟨.apart, [], a :: back, by simp, rfl, (fun _ hx => nomatch hx), Or.inl ⟨rfl, ?_⟩⟩
            intro b t e
            obtain ⟨rfl, -⟩ := List.cons.inj e
            exact ⟨hpid, hbeyond.1, hbeyond.2⟩
          · rw [if_neg (fun h => hbeyond h.2), hnext]
            refine ⟨c, a :: mid, rest, hfind, hfound.skip fun _ => ?_⟩
            simp only [Case.Holds] at hholds
            omega
        · refine ⟨c', [], a :: back, ?_, rfl, (fun _ hx => nomatch hx),
            Or.inr ⟨hapart, a, back, rfl, hpid, hholds⟩⟩
          cases c' with
          | apart => exact absurd rfl hapart
          | _ => simp
      · rw [if_pos (by simpa [skips] using hpid), hnext]
        exact ⟨c, a :: mid, rest, hfind, hfound.skip fun h => absurd h hpid⟩

structure Blocks (b r : Span) : Prop where
  other : b.pid ≠ r.pid
  overlaps : Overlaps b r
  conflict : r.usType = .wrlck ∨ b.usType = .wrlck

def FoundOther (n : Node) (k : Span) (back : List Addr) :
    Option (Case × Option Addr × Option Addr) → Prop
  | none => False
  | some (c, _, none) => c = .apart ∧
      ∀ x ∈ back, (n.span x).pid ≠ k.pid → ¬Overlaps (n.span x) k
  | some (c, _, some a) => c ≠ .apart ∧ ∃ mid rest, back = mid ++ a :: rest ∧
      (n.span a).pid ≠ k.pid ∧ Overlaps (n.span a) k ∧
      ∀ x ∈ mid, (n.span x).pid ≠ k.pid → ¬Overlaps (n.span x) k

theorem FoundOther.skip {n : Node} {k : Span} {back : List Addr} {a : Addr}
    {r : Option (Case × Option Addr × Option Addr)} (h : FoundOther n k back r)
    (ha : (n.span a).pid ≠ k.pid → ¬Overlaps (n.span a) k) : FoundOther n k (a :: back) r := by
  match r, h with
  | some (_, _, none), ⟨hc, h⟩ =>
    refine ⟨hc, fun x hx => ?_⟩
    rcases List.mem_cons.mp hx with rfl | hx
    · exact ha
    · exact h x hx
  | some (_, _, some b), ⟨hc, mid, rest, hsplit, hb, hover, hmid⟩ =>
    refine ⟨hc, a :: mid, rest, by rw [hsplit, List.cons_append], hb, hover, fun x hx => ?_⟩
    rcases List.mem_cons.mp hx with rfl | hx
    · exact ha
    · exact hmid x hx

theorem findOverlap_others {n : Node} {k : Span} (hk : k.Ok) (back : List Addr) :
    ∀ (fuel : ℕ) (prev : Option Addr), IsMono n.next back.head? back →
      (∀ x ∈ back, (n.span x).Ok) → back.length ≤ fuel →
      FoundOther n k back (fdLockfFindOverlap n k .others fuel prev back.head?) := by
  induction back with
  | nil =>
    intro fuel prev _ _ _
    have hnone : fdLockfFindOverlap n k .others fuel prev none = some (.apart, prev, none) := by
      cases fuel <;> rfl
    rw [List.head?_nil, hnone]
    exact ⟨rfl, fun _ hx => nomatch hx⟩
  | cons a back ih =>
    intro fuel prev mono ok hfuel
    cases fuel with
    | zero => simp at hfuel
    | succ fuel =>
      have hnext : n.next a = back.head? := mono.2.head_eq
      have hrec := ih fuel (some a) (hnext ▸ mono.2)
        (fun x hx => ok x (List.mem_cons_of_mem a hx)) (Nat.le_of_succ_le_succ hfuel)
      rw [List.head?_cons, fdLockfFindOverlap]
      by_cases hpid : (n.span a).pid = k.pid
      · rw [if_pos (by simpa [skips] using hpid), hnext]
        exact hrec.skip fun hne => absurd hpid hne
      · rw [if_neg (by simpa [skips] using hpid)]
        have hok := ok a List.mem_cons_self
        obtain ⟨c, hcase, hholds⟩ := overlapCase_holds hok hk
        rw [hcase]
        by_cases hapart : c = .apart
        · subst hapart
          simp only
          rw [if_neg (fun h => nomatch h.1), hnext]
          exact hrec.skip fun _ hover => (overlaps_iff hok hk).mp hover hholds
        · have hover : Overlaps (n.span a) k :=
            (overlaps_iff hok hk).mpr (not_apart_of_overlapCase hcase hapart)
          have hfound : FoundOther n k (a :: back) (some (c, prev, some a)) :=
            ⟨hapart, [], back, rfl, hpid, hover, fun _ hx => nomatch hx⟩
          cases c with
          | apart => exact absurd rfl hapart
          | _ => exact hfound

theorem getBlock_overlap {n : Node} {k : Span} {fuel : ℕ} {prev cur prev' : Option Addr} {c : Case}
    {a : Addr} (hfind : fdLockfFindOverlap n k .others n.fuel prev cur = some (c, prev', some a))
    (hc : c ≠ .apart) : fdLockfGetBlock n k (fuel + 1) prev cur =
      if k.usType = .wrlck ∨ (n.span a).usType = .wrlck then some (some a)
      else fdLockfGetBlock n k fuel prev' (n.next a) := by
  rw [fdLockfGetBlock, hfind]
  cases c with
  | apart => exact absurd rfl hc
  | _ => rfl

theorem getBlock_spec {n : Node} {k : Span} (hk : k.Ok) :
    ∀ (fuel : ℕ) (prev : Option Addr) (back : List Addr), IsMono n.next back.head? back →
      (∀ x ∈ back, (n.span x).Ok) → back.length ≤ n.fuel → back.length < fuel →
      (fdLockfGetBlock n k fuel prev back.head? = some none ∧
          ∀ x ∈ back, ¬Blocks (n.span x) k) ∨
        ∃ a ∈ back, fdLockfGetBlock n k fuel prev back.head? = some (some a) ∧
          Blocks (n.span a) k := by
  intro fuel
  induction fuel with
  | zero =>
    intro prev back _ _ _ hlt
    exact absurd hlt (Nat.not_lt_zero _)
  | succ fuel ih =>
    intro prev back mono ok hle hlt
    have hfound := findOverlap_others hk back n.fuel prev mono ok hle
    match hfind : fdLockfFindOverlap n k .others n.fuel prev back.head?, hfound with
    | some (c, prev', none), ⟨hc, hnone⟩ =>
      subst hc
      rw [fdLockfGetBlock, hfind]
      exact Or.inl ⟨rfl, fun x hx hblocks => hnone x hx hblocks.other hblocks.overlaps⟩
    | some (c, prev', some a), ⟨hc, mid, rest, hsplit, ha, hover, hmid⟩ =>
      have hmem : a ∈ back := by simp [hsplit]
      have hrest : IsMono n.next (n.next a) rest := by
        rw [hsplit] at mono
        exact (isMono_append.mp mono).2.2
      rw [getBlock_overlap hfind hc]
      by_cases hconflict : k.usType = .wrlck ∨ (n.span a).usType = .wrlck
      · rw [if_pos hconflict]
        exact Or.inr ⟨a, hmem, rfl, ha, hover, hconflict⟩
      · rw [if_neg hconflict, hrest.head_eq]
        have hlength : rest.length < back.length := by
          rw [hsplit, List.length_append, List.length_cons]
          omega
        rcases ih prev' rest (hrest.head_eq ▸ hrest)
          (fun x hx => ok x (by rw [hsplit]; simp [hx])) (by omega) (by omega) with
          ⟨hnone, hall⟩ | ⟨b, hb, hsome, hblocks⟩
        · left
          refine ⟨hnone, fun x hx hblocks => ?_⟩
          rw [hsplit, List.mem_append, List.mem_cons] at hx
          rcases hx with hx | rfl | hx
          · exact hmid x hx hblocks.other hblocks.overlaps
          · exact hconflict hblocks.conflict
          · exact hall x hx hblocks
        · exact Or.inr ⟨b, by rw [hsplit]; simp [hb], hsome, hblocks⟩

end SylixOS.FdLockf
