import SylixOS.ByteBuffer

/-! A block device of `2 ^ k`-byte sectors behind a volatile cache. Reads see the cache.
After a power loss each sector holds, independently of the others, its last synchronised
content or any content written to it since. The accesses are kept in order, so a power
loss can be placed after any prefix. -/

namespace SylixOS.SectorDevice
open SylixOS.ByteBuffer

abbrev Sector (k : Nat) := Fin (2 ^ k) → UInt8

variable {k : Nat}

def sectorByte (v : Sector k) (i : Nat) : UInt8 :=
  v ⟨i % 2 ^ k, Nat.mod_lt _ (Nat.two_pow_pos k)⟩

def sectorOf (b : Bytes) (i : Nat) : Sector k := fun j => b (i * 2 ^ k + j)

def flatten (run : Nat → Sector k) : Bytes := fun p => sectorByte (run (p / 2 ^ k)) p

theorem mul_add_div_of_lt (i : Nat) {j : Nat} (h : j < 2 ^ k) : (i * 2 ^ k + j) / 2 ^ k = i := by
  rw [Nat.mul_comm, Nat.mul_add_div (Nat.two_pow_pos k), Nat.div_eq_of_lt h, Nat.add_zero]

theorem mul_add_mod_of_lt (i : Nat) {j : Nat} (h : j < 2 ^ k) : (i * 2 ^ k + j) % 2 ^ k = j := by
  rw [Nat.mul_comm, Nat.mul_add_mod, Nat.mod_eq_of_lt h]

theorem flatten_at (run : Nat → Sector k) (i : Nat) {j : Nat} (h : j < 2 ^ k) :
    flatten run (i * 2 ^ k + j) = run i ⟨j, h⟩ := by
  simp only [flatten, sectorByte, mul_add_div_of_lt i h, mul_add_mod_of_lt i h]

@[simp] theorem sectorOf_flatten (run : Nat → Sector k) (i : Nat) :
    sectorOf (flatten run) i = run i := by
  funext j
  rw [sectorOf, flatten_at run i j.isLt]

@[simp] theorem flatten_sectorOf (b : Bytes) : flatten (sectorOf b : Nat → Sector k) = b := by
  funext p
  simp only [flatten, sectorByte, sectorOf, Nat.div_add_mod']

theorem flatten_advance (run : Nat → Sector k) (n p : Nat) :
    flatten (advance run n) p = flatten run (n * 2 ^ k + p) := by
  have hdiv : (n * 2 ^ k + p) / 2 ^ k = n + p / 2 ^ k := by
    rw [Nat.mul_comm, Nat.mul_add_div (Nat.two_pow_pos k)]
  simp only [flatten, advance, sectorByte, hdiv, Nat.mul_add_mod_self_right]

theorem flatten_patch (run : Nat → Sector k) (n c : Nat) (data : Nat → Sector k) :
    flatten (patch run n c data) = patch (flatten run) (n * 2 ^ k) (c * 2 ^ k) (flatten data) := by
  funext p
  have hiff : n ≤ p / 2 ^ k ∧ p / 2 ^ k < n + c ↔
      n * 2 ^ k ≤ p ∧ p < n * 2 ^ k + c * 2 ^ k := by
    rw [Nat.le_div_iff_mul_le (Nat.two_pow_pos k), Nat.div_lt_iff_lt_mul (Nat.two_pow_pos k),
      Nat.add_mul]
  by_cases h : n ≤ p / 2 ^ k ∧ p / 2 ^ k < n + c
  · obtain ⟨q, rfl⟩ := Nat.exists_eq_add_of_le (hiff.mp h).1
    have hdiv : (n * 2 ^ k + q) / 2 ^ k - n = q / 2 ^ k := by
      rw [Nat.mul_comm, Nat.mul_add_div (Nat.two_pow_pos k), Nat.add_sub_cancel_left]
    rw [patch_inside _ _ (hiff.mp h).1 (hiff.mp h).2, Nat.add_sub_cancel_left]
    simp only [flatten, patch, if_pos h, hdiv, sectorByte, Nat.mul_add_mod_self_right]
  · simp only [flatten, patch, if_neg h, if_neg (fun hp => h (hiff.mpr hp))]

theorem byte_eq_flatten {b : Bytes} (run : Nat → Sector k) {n p : Nat}
    (h : ∀ i < n, (sectorOf b i : Sector k) = run i) (hp : p < n * 2 ^ k) :
    b p = flatten run p := by
  have hq : p / 2 ^ k < n := (Nat.div_lt_iff_lt_mul (Nat.two_pow_pos k)).mpr hp
  have hbyte : b p = flatten (sectorOf b : Nat → Sector k) p := by rw [flatten_sectorOf]
  rw [hbyte]
  simp only [flatten, h _ hq]

theorem sectorOf_patch_run (b : Bytes) (n c : Nat) (src : Bytes) (i : Nat) :
    (sectorOf (patch b (n * 2 ^ k) (c * 2 ^ k) src) i : Sector k) =
      patch (sectorOf b) n c (sectorOf src) i := by
  have h := flatten_patch (sectorOf b : Nat → Sector k) n c (sectorOf src)
  rw [flatten_sectorOf, flatten_sectorOf] at h
  rw [← h, sectorOf_flatten]

theorem sectorOf_congr {b c : Bytes} {i i' : Nat}
    (h : ∀ j < 2 ^ k, b (i * 2 ^ k + j) = c (i' * 2 ^ k + j)) :
    (sectorOf b i : Sector k) = sectorOf c i' := by
  funext j
  exact h j j.isLt

inductive Io (k : Nat) where
  | write (sec cnt : Nat) (data : Nat → Sector k)
  | sync (sec cnt : Nat)

structure Medium (k : Nat) where
  cur : Nat → Sector k
  may : Nat → List (Sector k)

def Medium.step (m : Medium k) : Io k → Medium k
  | .write sec cnt data =>
    { cur := patch m.cur sec cnt data
      may := fun s => if sec ≤ s ∧ s < sec + cnt then data (s - sec) :: m.may s else m.may s }
  | .sync sec cnt =>
    { m with may := fun s => if sec ≤ s ∧ s < sec + cnt then [m.cur s] else m.may s }

def Medium.run (m : Medium k) (ios : List (Io k)) : Medium k := ios.foldl Medium.step m

def Medium.boot (img : Nat → Sector k) : Medium k := { cur := img, may := fun s => [img s] }

def Medium.Image (m : Medium k) (img : Nat → Sector k) : Prop := ∀ s, img s ∈ m.may s

theorem Medium.run_append (m : Medium k) (ios ios' : List (Io k)) :
    m.run (ios ++ ios') = (m.run ios).run ios' := List.foldl_append ..

def Io.touches (s : Nat) : Io k → Prop
  | .write sec cnt _ => sec ≤ s ∧ s < sec + cnt
  | .sync sec cnt => sec ≤ s ∧ s < sec + cnt

theorem Medium.step_may_of_not_touches (m : Medium k) {io : Io k} {s : Nat}
    (h : ¬ io.touches s) : (m.step io).may s = m.may s := by
  cases io with
  | write sec cnt data => exact if_neg h
  | sync sec cnt => exact if_neg h

theorem Medium.run_may_of_not_touches (m : Medium k) {ios : List (Io k)} {s : Nat}
    (h : ∀ io ∈ ios, ¬ io.touches s) : (m.run ios).may s = m.may s := by
  induction ios generalizing m with
  | nil => rfl
  | cons io ios ih =>
    have htail := ih (m.step io) (fun io' hio' => h io' (List.mem_cons_of_mem _ hio'))
    rw [← Medium.step_may_of_not_touches m (h io List.mem_cons_self)]
    exact htail

def Io.writes (s : Nat) : Io k → Prop
  | .write sec cnt _ => sec ≤ s ∧ s < sec + cnt
  | .sync _ _ => False

theorem Medium.step_cur_of_not_writes (m : Medium k) {io : Io k} {s : Nat}
    (h : ¬ io.writes s) : (m.step io).cur s = m.cur s := by
  cases io with
  | write sec cnt data => exact if_neg h
  | sync sec cnt => rfl

theorem Medium.run_cur_of_not_writes (m : Medium k) {ios : List (Io k)} {s : Nat}
    (h : ∀ io ∈ ios, ¬ io.writes s) : (m.run ios).cur s = m.cur s := by
  induction ios generalizing m with
  | nil => rfl
  | cons io ios ih =>
    have htail := ih (m.step io) (fun io' hio' => h io' (List.mem_cons_of_mem _ hio'))
    rw [← Medium.step_cur_of_not_writes m (h io List.mem_cons_self)]
    exact htail

theorem Io.writes.touches {io : Io k} {s : Nat} (h : io.writes s) : io.touches s := by
  cases io with
  | write sec cnt data => exact h
  | sync sec cnt => exact h.elim

theorem Medium.run_cur_of_not_touches (m : Medium k) {ios : List (Io k)} {s : Nat}
    (h : ∀ io ∈ ios, ¬ io.touches s) : (m.run ios).cur s = m.cur s :=
  m.run_cur_of_not_writes (fun io hio hw => h io hio hw.touches)

theorem Medium.cur_mem_step (m : Medium k) (io : Io k) {s : Nat} (h : m.cur s ∈ m.may s) :
    (m.step io).cur s ∈ (m.step io).may s := by
  cases io with
  | write sec cnt data =>
    by_cases hs : sec ≤ s ∧ s < sec + cnt
    · simp only [Medium.step, patch, if_pos hs, List.mem_cons, true_or]
    · simpa only [Medium.step, patch, if_neg hs] using h
  | sync sec cnt =>
    by_cases hs : sec ≤ s ∧ s < sec + cnt
    · simp only [Medium.step, if_pos hs, List.mem_singleton]
    · simpa only [Medium.step, if_neg hs] using h

theorem Medium.cur_mem_run (m : Medium k) (ios : List (Io k)) {s : Nat} (h : m.cur s ∈ m.may s) :
    (m.run ios).cur s ∈ (m.run ios).may s := by
  induction ios generalizing m with
  | nil => exact h
  | cons io ios ih => exact ih (m.step io) (m.cur_mem_step io h)

def Io.Puts (Q : Nat → Sector k → Prop) : Io k → Prop
  | .write sec cnt data => ∀ i < cnt, Q (sec + i) (data i)
  | .sync _ _ => True

theorem Medium.step_puts {m : Medium k} {Q : Nat → Sector k → Prop} {io : Io k} (hio : io.Puts Q)
    {s : Nat} (hcur : m.cur s ∈ m.may s) :
    ((m.step io).cur s = m.cur s ∨ Q s ((m.step io).cur s)) ∧
      ∀ x ∈ (m.step io).may s, x ∈ m.may s ∨ Q s x := by
  cases io with
  | write sec cnt data =>
    by_cases hs : sec ≤ s ∧ s < sec + cnt
    · have hQ := hio (s - sec) (by omega)
      rw [show sec + (s - sec) = s by omega] at hQ
      simp only [Medium.step, patch, if_pos hs]
      refine ⟨Or.inr hQ, ?_⟩
      intro x hx
      rcases List.mem_cons.mp hx with rfl | hx
      · exact Or.inr hQ
      · exact Or.inl hx
    · refine ⟨Or.inl (if_neg hs), ?_⟩
      intro x hx
      simp only [Medium.step, if_neg hs] at hx
      exact Or.inl hx
  | sync sec cnt =>
    refine ⟨Or.inl rfl, ?_⟩
    intro x hx
    by_cases hs : sec ≤ s ∧ s < sec + cnt
    · simp only [Medium.step, if_pos hs, List.mem_singleton] at hx
      exact Or.inl (hx ▸ hcur)
    · simp only [Medium.step, if_neg hs] at hx
      exact Or.inl hx

theorem Medium.run_puts {m : Medium k} {Q : Nat → Sector k → Prop} {ios : List (Io k)}
    (hios : ∀ io ∈ ios, io.Puts Q) {s : Nat} (hcur : m.cur s ∈ m.may s) :
    ((m.run ios).cur s = m.cur s ∨ Q s ((m.run ios).cur s)) ∧
      ∀ x ∈ (m.run ios).may s, x ∈ m.may s ∨ Q s x := by
  induction ios generalizing m with
  | nil => exact ⟨Or.inl rfl, fun x hx => Or.inl hx⟩
  | cons io ios ih =>
    have hstep := Medium.step_puts (hios io List.mem_cons_self) hcur
    have hrun := ih (m := m.step io) (fun io' hio' => hios io' (List.mem_cons_of_mem _ hio'))
      (m.cur_mem_step io hcur)
    refine ⟨?_, ?_⟩
    · rcases hrun.1 with h | h
      · rcases hstep.1 with h' | h'
        · exact Or.inl (h.trans h')
        · refine Or.inr ?_
          have heq : (m.run (io :: ios)).cur s = (m.step io).cur s := h
          rw [heq]
          exact h'
      · exact Or.inr h
    · intro x hx
      rcases hrun.2 x hx with h | h
      · exact hstep.2 x h
      · exact Or.inr h

def Io.Stores (v : Nat → Sector k) (P : Nat → Prop) (io : Io k) : Prop :=
  io.Puts (fun s x => P s ∧ x = v s)

def Medium.Cut (m : Medium k) (ios : List (Io k)) (img : Nat → Sector k) : Prop :=
  ∃ done rest, ios = done ++ rest ∧ (m.run done).Image img

theorem Medium.cut_append {m : Medium k} {ios ios' : List (Io k)} {img : Nat → Sector k}
    (h : m.Cut (ios ++ ios') img) : m.Cut ios img ∨ (m.run ios).Cut ios' img := by
  obtain ⟨done, rest, heq, himg⟩ := h
  rcases List.append_eq_append_iff.mp heq with ⟨mid, hdone, hrest⟩ | ⟨mid, hios, -⟩
  · subst hdone
    rw [Medium.run_append] at himg
    exact Or.inr ⟨mid, rest, hrest, himg⟩
  · exact Or.inl ⟨done, mid, hios, himg⟩

theorem Medium.Cut.mem_may {m : Medium k} {ios : List (Io k)} {img : Nat → Sector k}
    (h : m.Cut ios img) {s : Nat} (hs : ∀ io ∈ ios, ¬ io.touches s) : img s ∈ m.may s := by
  obtain ⟨done, rest, rfl, himg⟩ := h
  rw [← m.run_may_of_not_touches (fun io hio => hs io (List.mem_append_left _ hio))]
  exact himg s

theorem Medium.Cut.puts {m : Medium k} {ios : List (Io k)} {img : Nat → Sector k}
    {Q : Nat → Sector k → Prop} (h : m.Cut ios img) (hios : ∀ io ∈ ios, io.Puts Q) {s : Nat}
    (hcur : m.cur s ∈ m.may s) : img s ∈ m.may s ∨ Q s (img s) := by
  obtain ⟨done, rest, rfl, himg⟩ := h
  exact (Medium.run_puts (fun io hio => hios io (List.mem_append_left _ hio)) hcur).2 _ (himg s)

theorem Medium.Cut.sector {m : Medium k} {sec : Nat} {data : Nat → Sector k}
    {img : Nat → Sector k} (h : m.Cut [.write sec 1 data, .sync sec 1] img) :
    img sec ∈ m.may sec ∨ img sec = data 0 := by
  have hone : sec ≤ sec ∧ sec < sec + 1 := ⟨le_rfl, Nat.lt_succ_self _⟩
  obtain ⟨done, rest, heq, himg⟩ := h
  have hsec := himg sec
  cases done with
  | nil => exact Or.inl hsec
  | cons io done =>
    rw [List.cons_append, List.cons.injEq] at heq
    obtain ⟨rfl, heq⟩ := heq
    cases done with
    | nil =>
      simp only [Medium.run, List.foldl_cons, List.foldl_nil, Medium.step, if_pos hone,
        Nat.sub_self, List.mem_cons] at hsec
      exact hsec.symm
    | cons io done =>
      rw [List.cons_append, List.cons.injEq] at heq
      obtain ⟨rfl, heq⟩ := heq
      have hnil : done = [] := (List.append_eq_nil_iff.mp heq.symm).1
      subst hnil
      simp only [Medium.run, List.foldl_cons, List.foldl_nil, Medium.step, if_pos hone,
        patch_inside _ _ hone.1 hone.2, Nat.sub_self, List.mem_singleton] at hsec
      exact Or.inr hsec

theorem Medium.run_sector (m : Medium k) (sec : Nat) (data : Nat → Sector k) :
    (m.run [.write sec 1 data, .sync sec 1]).cur sec = data 0 ∧
      (m.run [.write sec 1 data, .sync sec 1]).may sec = [data 0] := by
  have hone : sec ≤ sec ∧ sec < sec + 1 := ⟨le_rfl, Nat.lt_succ_self _⟩
  simp only [Medium.run, List.foldl_cons, List.foldl_nil, Medium.step, if_pos hone,
    patch_inside _ _ hone.1 hone.2, Nat.sub_self, and_self]

structure Dev (k : Nat) where
  secCnt : Nat
  med : Medium k
  ios : List (Io k)

def Dev.boot (secCnt : Nat) (img : Nat → Sector k) : Dev k :=
  { secCnt := secCnt, med := .boot img, ios := [] }

def Dev.issue (d : Dev k) (ios : List (Io k)) : Dev k :=
  { d with med := d.med.run ios, ios := d.ios ++ ios }

@[simp] theorem Dev.issue_secCnt (d : Dev k) (ios : List (Io k)) :
    (d.issue ios).secCnt = d.secCnt := rfl

@[simp] theorem Dev.issue_med (d : Dev k) (ios : List (Io k)) :
    (d.issue ios).med = d.med.run ios := rfl

@[simp] theorem Dev.issue_ios (d : Dev k) (ios : List (Io k)) :
    (d.issue ios).ios = d.ios ++ ios := rfl

theorem Dev.issue_nil (d : Dev k) : d.issue [] = d := by
  simp [Dev.issue, Medium.run]

theorem Dev.issue_issue (d : Dev k) (ios ios' : List (Io k)) :
    (d.issue ios).issue ios' = d.issue (ios ++ ios') := by
  simp [Dev.issue, Medium.run_append]

def Dev.CutBefore (d d' : Dev k) (img : Nat → Sector k) : Prop :=
  ∃ ios, d'.ios = d.ios ++ ios ∧ d.med.Cut ios img

theorem Dev.cutBefore_issue {d : Dev k} {ios : List (Io k)} {img : Nat → Sector k} :
    d.CutBefore (d.issue ios) img ↔ d.med.Cut ios img := by
  constructor
  · rintro ⟨ios', heq, hcut⟩
    rw [Dev.issue_ios, List.append_cancel_left_eq] at heq
    exact heq ▸ hcut
  · intro hcut
    exact ⟨ios, rfl, hcut⟩

theorem Dev.CutBefore.split {d : Dev k} {ios ios' : List (Io k)} {img : Nat → Sector k}
    (h : d.CutBefore ((d.issue ios).issue ios') img) :
    d.med.Cut ios img ∨ (d.issue ios).CutBefore ((d.issue ios).issue ios') img := by
  rw [Dev.issue_issue, Dev.cutBefore_issue] at h
  rw [Dev.cutBefore_issue]
  exact Medium.cut_append h

def Dev.read (d : Dev k) (sec cnt : Nat) : Option Bytes :=
  if sec + cnt ≤ d.secCnt then some (flatten (advance d.med.cur sec)) else none

def Dev.write (d : Dev k) (buf : Bytes) (sec cnt : Nat) (bSync : Bool) : Option (Dev k) :=
  if sec + cnt ≤ d.secCnt then
    some (d.issue (.write sec cnt (sectorOf buf) :: if bSync then [.sync sec cnt] else []))
  else none

def Dev.sync (d : Dev k) (sec cnt : Nat) : Option (Dev k) :=
  if sec + cnt ≤ d.secCnt then some (d.issue [.sync sec cnt]) else none

theorem Dev.read_of_le (d : Dev k) (sec cnt : Nat) (h : sec + cnt ≤ d.secCnt) :
    d.read sec cnt = some (flatten (advance d.med.cur sec)) := if_pos h

theorem Dev.write_of_le (d : Dev k) (buf : Bytes) (sec cnt : Nat) (bSync : Bool)
    (h : sec + cnt ≤ d.secCnt) :
    d.write buf sec cnt bSync =
      some (d.issue (.write sec cnt (sectorOf buf) :: if bSync then [.sync sec cnt] else [])) :=
  if_pos h

theorem Dev.sync_of_le (d : Dev k) (sec cnt : Nat) (h : sec + cnt ≤ d.secCnt) :
    d.sync sec cnt = some (d.issue [.sync sec cnt]) := if_pos h

theorem Dev.sync_some {d d' : Dev k} {sec cnt : Nat} (h : d.sync sec cnt = some d') :
    d' = d.issue [.sync sec cnt] := by
  rw [Dev.sync] at h
  split at h
  · exact (Option.some.inj h).symm
  · cases h

theorem Dev.write_some {d d' : Dev k} {buf : Bytes} {sec cnt : Nat} {bSync : Bool}
    (h : d.write buf sec cnt bSync = some d') :
    sec + cnt ≤ d.secCnt ∧
      d' = d.issue (.write sec cnt (sectorOf buf) :: if bSync then [.sync sec cnt] else []) := by
  rw [Dev.write] at h
  split at h
  · rename_i hle
    exact ⟨hle, (Option.some.inj h).symm⟩
  · cases h

end SylixOS.SectorDevice
