import SylixOS.WorkQueue
import SylixOS.DeltaList
import Mathlib.Data.List.Perm.Basic

/-! Every node of a delayed work queue is in the pool or in the line, and every accepted
job is in the line, has run or has been discarded. A flush leaves `WU_plineOp` where it
is, so a pass that goes on behind it may stand on a node of the pool: this is the only way
to lose the balance. -/

namespace SylixOS.WorkQueue
open StepRuns LinkedChain ListLink Function

variable {W : Type}

structure Shape (uiQSize : UInt32) (s : State W) (line pool : List ℕ) : Prop where
  linked : IsLine s.lines line
  header : s.header = line.head?
  free : IsMono s.mono s.pool pool
  nodes : (line ++ pool).Perm (List.range uiQSize.toNat)
  count : s.count.toNat = line.length

structure Ledger (s : State W) (line : List ℕ) : Prop where
  all : ∀ j, j ∈ s.accepted ↔ j ∈ s.ran ++ s.discarded ++ line.map s.job
  once : (s.ran ++ s.discarded ++ line.map s.job).Nodup

/-- Every node is in the pool or in the line, once; `DWQ_uiCount` is the number in the line; every
accepted job waits in the line, has run, or has been discarded, once, and no other job has. -/
def Conserved (uiQSize : UInt32) (s : State W) : Prop :=
  ∃ line pool, Shape uiQSize s line pool ∧ Ledger s line

def CursorOk (s : State W) (line : List ℕ) : Prop :=
  ∀ u, s.phase = .running u → ∀ n, s.op = some n → n ∉ line → s.job n ∈ s.discarded

structure Inv (uiQSize : UInt32) (s : State W) (line pool : List ℕ) : Prop where
  shape : Shape uiQSize s line pool
  ledger : Ledger s line
  ids : ∀ j ∈ s.accepted, j.id < s.accepted.length
  cursor : CursorOk s line

theorem Shape.nodup {uiQSize : UInt32} {s : State W} {line pool : List ℕ}
    (h : Shape uiQSize s line pool) : (line ++ pool).Nodup :=
  h.nodes.nodup_iff.mpr List.nodup_range

theorem Shape.length_le {uiQSize : UInt32} {s : State W} {line pool : List ℕ}
    (h : Shape uiQSize s line pool) : line.length + pool.length = uiQSize.toNat := by
  have hlength := h.nodes.length_eq
  rwa [List.length_append, List.length_range] at hlength

theorem line_split_nil {lines : Links ℕ} {n : ℕ} {rest : List ℕ} (h : IsLine lines (n :: rest)) :
    lines.prev n = none ∧ lines.next n = rest.head? :=
  IsLine.split (s := []) h

def entries (counter : ℕ → ℕ) (line : List ℕ) : List (ℕ × ℕ) := line.map fun n => (n, counter n)

@[simp] theorem entries_nil (counter : ℕ → ℕ) : entries counter [] = [] := rfl

@[simp] theorem entries_cons (counter : ℕ → ℕ) (n : ℕ) (line : List ℕ) :
    entries counter (n :: line) = (n, counter n) :: entries counter line := rfl

@[simp] theorem entries_append (counter : ℕ → ℕ) (front back : List ℕ) :
    entries counter (front ++ back) = entries counter front ++ entries counter back :=
  List.map_append

theorem entries_congr {counter counter' : ℕ → ℕ} {line : List ℕ}
    (h : ∀ n ∈ line, counter' n = counter n) : entries counter' line = entries counter line := by
  apply List.map_congr_left
  intro n hn
  rw [h n hn]

theorem wakeupSeek_spec {lines : Links ℕ} (pwun : ℕ) (rest : List ℕ) :
    ∀ (fuel : ℕ) (before : List ℕ) (counter : ℕ → ℕ), IsLine lines (before ++ rest) →
      pwun ∉ rest → rest.length ≤ fuel →
      ∃ counter' left mid back,
        wakeupSeek lines pwun fuel counter rest.head? before.getLast? =
          some (counter', back.head?, left) ∧
        rest = mid ++ back ∧ (back = [] → left = (before ++ mid).getLast?) ∧
        (∀ n, n ≠ pwun → counter' n = counter n) ∧
        DeltaList.insert pwun (counter pwun) (entries counter rest) =
          entries counter mid ++ DeltaList.insert pwun (counter' pwun) (entries counter back) ∧
        ∀ n ∈ back.head?, counter' pwun < counter n := by
  induction rest with
  | nil =>
    intro fuel before counter line _ hfuel
    exact ⟨counter, before.getLast?, [], [], by cases fuel <;> rfl, rfl, fun _ => by simp,
      fun _ _ => rfl, rfl, fun _ hfalse => absurd hfalse (Option.not_mem_none _)⟩
  | cons n rest ih =>
    intro fuel before counter line fresh hfuel
    rw [List.mem_cons, not_or] at fresh
    cases fuel with
    | zero => simp at hfuel
    | succ fuel =>
      have forward : lines.next n = rest.head? := line.split.2
      simp only [List.head?_cons, wakeupSeek]
      by_cases hle : counter n ≤ counter pwun
      · rw [if_pos hle, forward]
        have line' : IsLine lines ((before ++ [n]) ++ rest) := by simpa using line
        have hcounter : ∀ m ≠ pwun,
            update counter pwun (counter pwun - counter n) m = counter m :=
          fun m hm => update_of_ne hm _ _
        obtain ⟨counter', left, mid, back, hseek, rfl, hleft, hkept, hinsert, hlater⟩ :=
          ih fuel (before ++ [n]) (update counter pwun (counter pwun - counter n)) line' fresh.2
            (by simpa using hfuel)
        have hout : ∀ m ∈ mid ++ back, m ≠ pwun := fun m hm e => fresh.2 (e ▸ hm)
        have hsame : ∀ l, (∀ m ∈ l, m ∈ mid ++ back) →
            entries (update counter pwun (counter pwun - counter n)) l = entries counter l :=
          fun l hl => entries_congr fun m hm => hcounter m (hout m (hl m hm))
        rw [update_self, hsame _ fun m hm => hm, hsame mid fun m hm => List.mem_append_left back hm,
          hsame back fun m hm => List.mem_append_right mid hm] at hinsert
        refine ⟨counter', left, n :: mid, back, ?_, rfl, ?_, ?_, ?_, ?_⟩
        · simpa using hseek
        · simpa using hleft
        · exact fun m hm => (hkept m hm).trans (hcounter m hm)
        · rw [entries_cons, DeltaList.insert, if_pos hle, hinsert]
          rfl
        · intro m hm
          rw [← hcounter m (hout m (List.mem_append_right mid (List.mem_of_mem_head? hm)))]
          exact hlater m hm
      · rw [if_neg hle]
        refine ⟨counter, some n, [], n :: rest, rfl, rfl,
          fun hfalse => absurd hfalse (List.cons_ne_nil n rest), fun _ _ => rfl, rfl, ?_⟩
        rintro m ⟨⟩
        exact Nat.lt_of_not_le hle

theorem wakeupAdd_spec {s : State W} {line : List ℕ} {n : ℕ} (fuel : ℕ)
    (hlinks : IsLine s.lines line)
    (hheader : s.header = line.head?) (fresh : n ∉ line) (hfuel : line.length ≤ fuel) :
    ∃ front back lines' counter', line = front ++ back ∧
      wakeupAdd fuel s n = some { s with
        lines := lines'
        header := (front ++ n :: back).head?
        counter := counter' } ∧
      IsLine lines' (front ++ n :: back) ∧
      entries counter' (front ++ n :: back) =
        DeltaList.insert n (s.counter n) (entries s.counter line) ∧
      (∀ m ∈ line, counter' m = s.counter m ∨ 0 < counter' m) ∧
      ∀ m ∈ back.head?, 0 < counter' m := by
  obtain ⟨counter', left, front, back, hseek, hsplit, hleft, hkept, hinsert, hlater⟩ :=
    wakeupSeek_spec n line fuel [] s.counter hlinks fresh hfuel
  simp only [List.getLast?_nil, List.nil_append] at hseek hsplit hleft
  rw [hinsert]
  subst hsplit
  have hfresh : n ∉ front ∧ n ∉ back := by simpa using fresh
  have hfront : entries counter' front = entries s.counter front :=
    entries_congr fun m hm => hkept m fun e => hfresh.1 (e ▸ hm)
  have hline : ∀ m ∈ front ++ back, counter' m = s.counter m :=
    fun m hm => hkept m fun e => fresh (e ▸ hm)
  unfold wakeupAdd
  rw [hheader, hseek, Option.bind_some]
  have ahead := (listLineAddAhead_spec hlinks fresh).1
  cases back with
  | nil =>
    have hleft := hleft rfl
    have hkeep : ∀ m ∈ front ++ [], counter' m = s.counter m ∨ 0 < counter' m :=
      fun m hm => Or.inl (hline m hm)
    have hcount : entries counter' (front ++ [n]) =
        entries s.counter front ++ DeltaList.insert n (counter' n) (entries s.counter []) := by
      rw [← hfront]
      simp [DeltaList.insert]
    rcases List.eq_nil_or_concat front with rfl | ⟨p, l, rfl⟩
    · exact ⟨[], [], _, _, rfl, rfl, ahead, hcount, hkeep,
        fun _ hfalse => absurd hfalse (Option.not_mem_none _)⟩
    · rw [List.concat_eq_append] at *
      simp only [List.append_nil] at hlinks fresh hleft ⊢
      rw [List.getLast?_concat] at hleft
      subst hleft
      obtain ⟨h, hh⟩ : ∃ h, (p ++ [l]).head? = some h := by
        cases p with
        | nil => exact ⟨l, rfl⟩
        | cons a p => exact ⟨a, rfl⟩
      have right := listLineAddRight_spec hlinks fresh
      refine ⟨p ++ [l], [], listLineAddRight s.lines n l, counter', by simp, ?_,
        by simpa using right, hcount, by simpa using hkeep,
        fun _ hfalse => absurd hfalse (Option.not_mem_none _)⟩
      simp only [List.head?_nil, hh]
      rw [List.head?_append, hh]
      rfl
  | cons m back =>
    have hnm : n ≠ m := fun e => hfresh.2 (by simp [e])
    have hm := hkept m (Ne.symm hnm)
    have hnodup := hlinks.nodup
    have hpos : 0 < update counter' m (counter' m - counter' n) m := by
      have hlt := hlater m rfl
      rw [update_self, hm]
      omega
    have hkeep : ∀ x ∈ front ++ m :: back,
        update counter' m (counter' m - counter' n) x = s.counter x ∨
          0 < update counter' m (counter' m - counter' n) x := by
      intro x hx
      by_cases hxm : x = m
      · exact Or.inr (hxm ▸ hpos)
      · exact Or.inl ((update_of_ne hxm _ _).trans (hline x hx))
    have hhead : ∀ x ∈ (m :: back).head?, 0 < update counter' m (counter' m - counter' n) x := by
      rintro x ⟨⟩
      exact hpos
    have hcount : entries (update counter' m (counter' m - counter' n)) (front ++ n :: m :: back) =
        entries s.counter front ++
          DeltaList.insert n (counter' n) (entries s.counter (m :: back)) := by
      have hlt : ¬ s.counter m ≤ counter' n := Nat.not_le_of_lt (hlater m rfl)
      have hmfront : m ∉ front := fun hmem =>
        (List.nodup_append.mp hnodup).2.2 m hmem m List.mem_cons_self rfl
      have hmback : m ∉ back := (List.nodup_cons.mp (List.nodup_append.mp hnodup).2.1).1
      have hfront' : entries (update counter' m (counter' m - counter' n)) front =
          entries counter' front :=
        entries_congr fun x hx => update_of_ne (fun e : x = m => hmfront (e ▸ hx)) _ _
      have hback' : entries (update counter' m (counter' m - counter' n)) back =
          entries s.counter back := by
        refine entries_congr fun x hx => ?_
        rw [update_of_ne (fun e : x = m => hmback (e ▸ hx))]
        exact hkept x fun e => hfresh.2 (by simp [← e, hx])
      rw [entries_append, hfront', hfront, entries_cons, entries_cons, hback', entries_cons,
        update_of_ne hnm, update_self, hm, DeltaList.insert, if_neg hlt]
    simp only [List.head?_cons]
    rcases List.eq_nil_or_concat front with rfl | ⟨p, l, rfl⟩
    · refine ⟨[], m :: back, (listLineAddAhead s.lines n (some m)).1,
        update counter' m (counter' m - counter' n), rfl, ?_, ahead, hcount,
        hkeep, hhead⟩
      simp only [List.nil_append, List.head?_cons, if_true]
      rfl
    · rw [List.concat_eq_append] at *
      have hne : some m ≠ (p ++ [l] ++ m :: back).head? := by
        intro e
        have hmem : m ∈ p ++ [l] := by
          apply List.mem_of_mem_head? (l := p ++ [l])
          rw [List.head?_append_of_ne_nil _ (by simp)] at e
          exact e.symm
        exact (List.nodup_append.mp hnodup).2.2 m hmem m (by simp) rfl
      rw [if_neg hne]
      have leftIn : IsLine (listLineAddLeft s.lines n m) (p ++ l :: n :: m :: back) :=
        listLineAddLeft_spec (by simpa using hlinks) (by simpa using fresh)
      refine ⟨p ++ [l], m :: back, listLineAddLeft s.lines n m,
        update counter' m (counter' m - counter' n), rfl, ?_, by simpa using leftIn, hcount,
        hkeep, hhead⟩
      rw [List.head?_append_of_ne_nil (p ++ [l]) (by simp),
        List.head?_append_of_ne_nil (p ++ [l]) (by simp)]

theorem flushLoop_spec (line : List ℕ) : ∀ (fuel : ℕ) (s : State W) (pool : List ℕ),
    IsLine s.lines line → s.header = line.head? → IsMono s.mono s.pool pool →
    (line ++ pool).Nodup → line.length ≤ fuel →
    ∃ lines' mono' pool',
      flushLoop fuel s = some { s with
        lines := lines'
        header := none
        mono := mono'
        pool := pool'
        discarded := s.discarded ++ line.map s.job } ∧
      IsMono mono' pool' (line.reverse ++ pool) := by
  induction line with
  | nil =>
    intro fuel s pool hline hheader hpool _ _
    refine ⟨s.lines, s.mono, s.pool, ?_, hpool⟩
    have hnone : s.header = none := hheader
    unfold flushLoop
    obtain ⟨lines, header, op, counter, mono, phead, job, count, phase, accepted, ran, discarded⟩ := s
    obtain rfl : header = none := hnone
    cases fuel <;> simp
  | cons n line ih =>
    intro fuel s pool hline hheader hpool hnodup hfuel
    cases fuel with
    | zero => simp at hfuel
    | succ fuel =>
      have hsome : s.header = some n := hheader
      have hdel := (listLineDel_spec (s := []) hline s.header).1
      have hback : s.lines.prev n = none := (line_split_nil hline).1
      have hnext : s.lines.next n = line.head? := (line_split_nil hline).2
      have hhead : (listLineDel s.lines n s.header).2 = line.head? := by
        simp only [listLineDel, hback, if_true, hnext]
      have hnot : n ∉ pool := fun hmem => by
        exact (List.nodup_cons.mp hnodup).1 (List.mem_append_right line hmem)
      have hfree := listMonoFree_spec hpool hnot
      obtain ⟨lines', mono', pool', hloop, hpool'⟩ := ih fuel
        { s with
          lines := (listLineDel s.lines n s.header).1
          header := (listLineDel s.lines n s.header).2
          mono := (listMonoFree s.mono s.pool n).1
          pool := (listMonoFree s.mono s.pool n).2
          discarded := s.discarded ++ [s.job n] }
        (n :: pool) hdel hhead hfree (List.perm_middle.symm.nodup_iff.mp hnodup)
        (Nat.le_of_succ_le_succ hfuel)
      refine ⟨lines', mono', pool', ?_, by simpa using hpool'⟩
      unfold flushLoop
      simp only [hsome] at hloop ⊢
      rw [hloop]
      simp

section Steps

variable {uiQSize : UInt32} {s : State W} {line pool : List ℕ}

theorem map_insert_perm (job : ℕ → Job W) {front back : List ℕ} {n : ℕ} (j : Job W)
    (fresh : n ∉ front ++ back) :
    ((front ++ n :: back).map (update job n j)).Perm (j :: (front ++ back).map job) := by
  have hsame : (front ++ back).map (update job n j) = (front ++ back).map job := by
    apply List.map_congr_left
    intro x hx
    have hxn : x ≠ n := fun e => fresh (e ▸ hx)
    rw [update_of_ne hxn]
  rw [← hsame]
  have hperm : (front ++ n :: back).Perm (n :: (front ++ back)) := List.perm_middle
  have hmiddle := hperm.map (update job n j)
  rwa [List.map_cons, update_self] at hmiddle

theorem Inv.insert (h : Inv uiQSize s line pool) (ulDelay : ℕ) (work : W) :
    ∃ s', wqDInsert uiQSize.toNat s ulDelay work = some s' ∧
      ∃ line' pool', Inv uiQSize s' line' pool' := by
  unfold wqDInsert
  cases pool with
  | nil =>
    have hnone : s.pool = none := h.shape.free
    refine ⟨s, ?_, line, [], h⟩
    rw [hnone]
    rfl
  | cons n pool =>
    have hsome : s.pool = some n := h.shape.free.1
    have hnodup := h.shape.nodup
    have fresh : n ∉ line := fun hmem =>
      (List.nodup_append.mp hnodup).2.2 n hmem n List.mem_cons_self rfl
    have hlength := h.shape.length_le
    rw [List.length_cons] at hlength
    obtain ⟨front, back, lines', counter', rfl, hadd, hline', -⟩ := wakeupAdd_spec (s := { s with
        pool := s.mono n
        job := update s.job n ⟨s.accepted.length, work⟩
        counter := update s.counter n ulDelay })
      uiQSize.toNat h.shape.linked h.shape.header fresh (by omega)
    simp only [hsome, listMonoAllocate, Option.map_some]
    rw [hadd, Option.map_some]
    refine ⟨_, rfl, front ++ n :: back, pool, ⟨hline', rfl, h.shape.free.2, ?_, ?_⟩, ⟨?_, ?_⟩, ?_, ?_⟩
    · refine List.Perm.trans ?_ h.shape.nodes
      rw [List.append_assoc, List.append_assoc, List.cons_append]
      exact List.Perm.append_left front List.perm_middle.symm
    · have hcount := h.shape.count
      have hlt := uiQSize.toNat_lt
      simp only [BitVec.toNat_add, List.length_append, List.length_cons] at hcount hlength ⊢
      have hone : (1 : BitVec 32).toNat = 1 := rfl
      rw [hcount, hone]
      omega
    · intro j
      have hperm := (map_insert_perm s.job (⟨s.accepted.length, work⟩ : Job W) fresh).mem_iff (a := j)
      have hall := h.ledger.all j
      simp only [List.mem_append, List.mem_cons, List.not_mem_nil, or_false] at hall hperm ⊢
      rw [hall, hperm]
      tauto
    · have hnew : (⟨s.accepted.length, work⟩ : Job W) ∉
          s.ran ++ s.discarded ++ (front ++ back).map s.job := by
        intro hmem
        have hlt := h.ids _ ((h.ledger.all _).mpr hmem)
        exact absurd hlt (Nat.lt_irrefl _)
      have hperm : (s.ran ++ s.discarded ++ (front ++ n :: back).map
          (update s.job n ⟨s.accepted.length, work⟩)).Perm
          (⟨s.accepted.length, work⟩ :: (s.ran ++ s.discarded ++ (front ++ back).map s.job)) :=
        ((map_insert_perm s.job _ fresh).append_left _).trans List.perm_middle
      exact hperm.nodup_iff.mpr (List.nodup_cons.mpr ⟨hnew, h.ledger.once⟩)
    · intro j hj
      simp only [List.mem_append, List.mem_singleton, List.length_append, List.length_singleton] at hj ⊢
      rcases hj with hj | rfl
      · exact Nat.lt_succ_of_lt (h.ids j hj)
      · exact Nat.lt_succ_self _
    · -- a node that the pass stands on is in the line again, or is as it was
      intro u hu m hm hout
      have hmn : m ≠ n := fun e => hout (by simp [e])
      simp only [update_of_ne hmn]
      apply h.cursor u hu m hm
      intro hmem
      apply hout
      rw [List.mem_append] at hmem ⊢
      exact hmem.imp id (List.mem_cons_of_mem n)

theorem Inv.flush (h : Inv uiQSize s line pool) :
    ∃ s', wqDFlush uiQSize.toNat s = some s' ∧ ∃ line' pool', Inv uiQSize s' line' pool' := by
  have hlength := h.shape.length_le
  obtain ⟨lines', mono', pool', hloop, hpool'⟩ := flushLoop_spec line uiQSize.toNat s pool
    h.shape.linked h.shape.header h.shape.free h.shape.nodup (by omega)
  unfold wqDFlush
  rw [hloop, Option.map_some]
  refine ⟨_, rfl, [], line.reverse ++ pool, ⟨⟨List.nodup_nil, trivial⟩, rfl, hpool', ?_, rfl⟩, ⟨?_, ?_⟩,
    h.ids, ?_⟩
  · exact ((List.reverse_perm line).append_right pool).trans h.shape.nodes
  · intro j
    have hall := h.ledger.all j
    simpa [or_assoc] using hall
  · have honce := h.ledger.once
    simpa [List.append_assoc] using honce
  · intro u hu m hm _
    by_cases hmem : m ∈ line
    · exact List.mem_append_right _ (List.mem_map_of_mem hmem)
    · exact List.mem_append_left _ (h.cursor u hu m hm hmem)

theorem Inv.passTurn (h : Inv uiQSize s line pool) (ulCounter : ℕ)
    (hop : ∀ n, s.op = some n → n ∈ line) :
    ∃ line' pool', Inv uiQSize (passTurn s ulCounter) line' pool' := by
  unfold WorkQueue.passTurn
  cases hcase : s.op with
  | none => exact ⟨line, pool, ⟨h.shape.1, h.shape.2, h.shape.3, h.shape.4, h.shape.5⟩,
      ⟨h.ledger.1, h.ledger.2⟩, h.ids, fun u hfalse => nomatch hfalse⟩
  | some n =>
    simp only
    by_cases hlater : ulCounter < s.counter n
    · rw [if_pos hlater]
      exact ⟨line, pool, ⟨h.shape.1, h.shape.2, h.shape.3, h.shape.4, h.shape.5⟩,
        ⟨h.ledger.1, h.ledger.2⟩, h.ids, fun u hfalse => nomatch hfalse⟩
    · rw [if_neg hlater]
      obtain ⟨front, back, rfl⟩ := List.append_of_mem (hop n hcase)
      have hnodup := h.shape.nodup
      have hline := h.shape.linked.nodup
      have hfront : n ∉ front := fun hmem => (List.nodup_append.mp hline).2.2 n hmem n (by simp) rfl
      have hback : n ∉ back := (List.nodup_cons.mp (List.nodup_append.mp hline).2.1).1
      have hpool : n ∉ pool := fun hmem =>
        (List.nodup_append.mp hnodup).2.2 n (by simp) n hmem rfl
      have hlinks := h.shape.linked.split
      have hnext : s.lines.next n ≠ some n := by
        rw [hlinks.2]
        exact fun e => hback (List.mem_of_mem_head? e)
      have hheader : (listLineDel s.lines n s.header).2 = (front ++ back).head? := by
        simp only [listLineDel, hlinks, h.shape.header]
        cases front with
        | nil => simp
        | cons a front => simp
      simp only [wakeupDel, if_neg hnext]
      refine ⟨front ++ back, n :: pool, ⟨(listLineDel_spec h.shape.linked s.header).1, hheader,
        listMonoFree_spec h.shape.free hpool, ?_, ?_⟩, ⟨?_, ?_⟩, h.ids, ?_⟩
      · refine List.Perm.trans ?_ h.shape.nodes
        rw [List.append_assoc, List.append_assoc, List.cons_append]
        exact List.Perm.append_left front List.perm_middle
      · have hcount := h.shape.count
        have hlt := s.count.isLt
        simp only [BitVec.toNat_sub, List.length_append, List.length_cons] at hcount ⊢
        have hone : (1 : BitVec 32).toNat = 1 := rfl
        rw [hone]
        omega
      · intro j
        have hall := h.ledger.all j
        simp only [List.map_append, List.map_cons, List.mem_append, List.mem_cons,
          List.not_mem_nil, or_false] at hall ⊢
        rw [hall]
        tauto
      · refine List.Perm.nodup_iff ?_ |>.mpr h.ledger.once
        rw [List.map_append, List.map_append, List.map_cons]
        have hmove : (s.ran ++ [s.job n] ++ s.discarded ++ (front.map s.job ++ back.map s.job)).Perm
            (s.job n :: (s.ran ++ s.discarded ++ (front.map s.job ++ back.map s.job))) := by
          simp only [List.append_assoc, List.cons_append, List.nil_append]
          exact List.perm_middle
        refine hmove.trans ?_
        rw [← List.append_assoc, ← List.append_assoc]
        exact List.perm_middle.symm
      · -- the pass stands on the node behind, which is in the line
        intro u _ m hm hout
        rw [hlinks.2] at hm
        exact absurd (List.mem_append_right front (List.mem_of_mem_head? hm)) hout

end Steps

/-- The node under `WU_plineOp` is in the line, is not due, or is not there. -/
def ResumeOk (s : State W) : Act W → Prop
  | .resume => ∀ u n, s.phase = .running u → s.op = some n →
      (∃ line, IsLine s.lines line ∧ s.header = line.head? ∧ n ∈ line) ∨ u < s.counter n
  | _ => True

section Runs

variable {uiQSize : UInt32} {s s' : State W}

theorem inv_step {a : Act W} (h : ∃ line pool, Inv uiQSize s line pool) (hok : ResumeOk s a)
    (hs : step uiQSize s a = some s') : ∃ line pool, Inv uiQSize s' line pool := by
  obtain ⟨line, pool, h⟩ := h
  cases a with
  | insert ulDelay work =>
    obtain ⟨s'', hs'', h''⟩ := h.insert ulDelay work
    rw [step, hs''] at hs
    exact Option.some.inj hs ▸ h''
  | flush =>
    obtain ⟨s'', hs'', h''⟩ := h.flush
    rw [step, hs''] at hs
    exact Option.some.inj hs ▸ h''
  | exec ulCounter =>
    simp only [step] at hs
    split at hs
    · rename_i hidle
      obtain rfl := Option.some.inj hs
      have hstart : Inv uiQSize { s with op := s.header } line pool :=
        ⟨⟨h.shape.1, h.shape.2, h.shape.3, h.shape.4, h.shape.5⟩, ⟨h.ledger.1, h.ledger.2⟩, h.ids,
          fun u hu => by rw [hidle] at hu; cases hu⟩
      apply hstart.passTurn
      intro n hn
      have hhead : s.header = some n := hn
      rw [h.shape.header] at hhead
      exact List.mem_of_mem_head? hhead
    · cases hs
  | resume =>
    simp only [step] at hs
    split at hs
    · cases hs
    · rename_i u hu
      obtain rfl := Option.some.inj hs
      by_cases hop : ∀ n, s.op = some n → n ∈ line
      · exact h.passTurn u hop
      · -- a freed node that is not due ends the pass
        push Not at hop
        obtain ⟨n, hn, hout⟩ := hop
        rcases hok u n hu hn with ⟨line', hline', hheader', hmem⟩ | hlater
        · have hsame : line' = line :=
            hline'.linked.eq_of_head h.shape.linked.linked (hheader'.symm.trans h.shape.header)
          exact absurd (hsame ▸ hmem) hout
        · refine ⟨line, pool, ?_⟩
          simp only [WorkQueue.passTurn, hn, if_pos hlater]
          exact ⟨⟨h.shape.1, h.shape.2, h.shape.3, h.shape.4, h.shape.5⟩,
            ⟨h.ledger.1, h.ledger.2⟩, h.ids, fun u hfalse => nomatch hfalse⟩

theorem resumeOk_of_conserved {a : Act W} (h : ∃ line pool, Inv uiQSize s line pool)
    (hs : step uiQSize s a = some s') (hconserved : Conserved uiQSize s') : ResumeOk s a := by
  obtain ⟨line, pool, h⟩ := h
  cases a with
  | resume =>
    intro u n hu hn
    by_cases hmem : n ∈ line
    · exact Or.inl ⟨line, h.shape.linked, h.shape.header, hmem⟩
    · right
      by_contra hdue
      have hdiscarded := h.cursor u hu n hn hmem
      simp only [step, hu] at hs
      obtain rfl := Option.some.inj hs
      obtain ⟨line', pool', -, hledger⟩ := hconserved
      have honce := hledger.once
      simp only [WorkQueue.passTurn, hn, if_neg hdue, wakeupDel] at honce
      have hboth := (List.nodup_append.mp honce).1
      exact (List.nodup_append.mp hboth).2.2 (s.job n) (by simp) (s.job n) hdiscarded rfl
  | _ => trivial

theorem freeNodes_spec (left : ℕ) : ∀ (i : ℕ) (s : State W) (pool : List ℕ),
    IsMono s.mono s.pool pool → pool.Perm (List.range i) →
    ∃ mono' pool' l, freeNodes s left i = { s with mono := mono', pool := pool' } ∧
      IsMono mono' pool' l ∧ l.Perm (List.range (i + left)) := by
  induction left with
  | zero =>
    intro i s pool hpool hperm
    exact ⟨s.mono, s.pool, pool, rfl, hpool, hperm⟩
  | succ left ih =>
    intro i s pool hpool hperm
    have hnot : i ∉ pool := fun hmem => by
      have hlt := List.mem_range.mp (hperm.mem_iff.mp hmem)
      exact absurd hlt (Nat.lt_irrefl i)
    have hperm' : (i :: pool).Perm (List.range (i + 1)) := by
      rw [List.range_succ]
      exact (hperm.cons i).trans (List.perm_append_singleton i _).symm
    obtain ⟨mono', pool', l, hfree, hl, hlperm⟩ := ih (i + 1)
      { s with mono := (listMonoFree s.mono s.pool i).1, pool := (listMonoFree s.mono s.pool i).2 }
      (i :: pool) (listMonoFree_spec hpool hnot) hperm'
    refine ⟨mono', pool', l, ?_, hl, ?_⟩
    · unfold freeNodes
      exact hfree
    · rwa [Nat.add_right_comm] at hlperm

theorem inv_created (uiQSize : UInt32) (lines : Links ℕ) (counter : ℕ → ℕ) (mono : ℕ → Option ℕ)
    (job : ℕ → Job W) :
    ∃ line pool, Inv uiQSize (wqDCreate uiQSize lines counter mono job) line pool := by
  unfold wqDCreate
  obtain ⟨mono', pool', l, hfree, hl, hperm⟩ := freeNodes_spec uiQSize.toNat 0
    ({ lines := lines, header := none, op := none, counter := counter, mono := mono, pool := none,
       job := job, count := 0, phase := .idle, accepted := [], ran := [], discarded := [] } :
      State W) [] rfl (List.Perm.refl _)
  rw [Nat.zero_add] at hperm
  rw [hfree]
  refine ⟨[], l, ⟨⟨List.nodup_nil, trivial⟩, rfl, hl, hperm, rfl⟩, ⟨fun j => by simp, List.nodup_nil⟩,
    (fun j hj => nomatch hj), fun u hfalse => nomatch hfalse⟩

/-- A work queue conserves its nodes and its jobs along a run exactly when every pass that goes on
after a job stands on a node of the line, on one that is not due, or on none. -/
theorem work_queue_conserved_iff (uiQSize : UInt32) (lines : Links ℕ) (counter : ℕ → ℕ)
    (mono : ℕ → Option ℕ) (job : ℕ → Job W) (acts : List (Act W)) :
    Visits (step uiQSize) (Conserved uiQSize) (wqDCreate uiQSize lines counter mono job) acts ↔
      Obeys (step uiQSize) ResumeOk (wqDCreate uiQSize lines counter mono job) acts :=
  visits_iff_obeys (I := fun s => ∃ line pool, Inv uiQSize s line pool)
    (fun _ _ _ h hok hs => inv_step h hok hs)
    (fun _ ⟨line, pool, h⟩ => ⟨line, pool, h.shape, h.ledger⟩)
    (fun _ _ _ h hs hconserved => resumeOk_of_conserved h hs hconserved)
    (inv_created uiQSize lines counter mono job)

end Runs

def twoNodes : State Unit :=
  wqDCreate 2 ⟨fun _ => none, fun _ => none⟩ (fun _ => 0) (fun _ => none) fun _ => ⟨0, ()⟩

def flushInPass : List (Act Unit) :=
  [.insert 0 (), .insert 0 (), .exec 1, .flush, .resume]

/-- The pass runs the job that the flush has discarded. -/
theorem work_queue_runs_discarded :
    ¬∀ acts, Visits (step 2) (Conserved 2) twoNodes acts := by
  intro h
  have hsome : (run (step 2) twoNodes flushInPass).isSome = true := by decide
  obtain ⟨line, pool, -, hledger⟩ := (h flushInPass).last (Option.some_get hsome).symm
  have honce := (List.nodup_append.mp hledger.once).1
  -- the second job is in both lists
  have htwice : ¬([⟨0, ()⟩, ⟨1, ()⟩] ++ [⟨1, ()⟩] : List (Job Unit)).Nodup := by decide
  exact htwice honce

end SylixOS.WorkQueue
