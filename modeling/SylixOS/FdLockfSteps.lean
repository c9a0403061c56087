import SylixOS.FdLockfApply

/-! The invariant of the record locks of a file node, and the steps that keep
it. The installed locks denote the byte map, and every request that waits is in
the list of an installed lock that blocks it, or has been posted. -/

namespace SylixOS.FdLockf
open LinkedChain Function

section Requests

variable {W W' E E' : Addr → Prop} {n n' : Node} {ids : List Addr} {r b : Addr}

theorem Linked.block (h : Linked W E n ids) (hW : ∀ x, W' x ↔ W x ∨ x = r) (hnew : ¬W r)
    (hidle : ¬E r) (hout : r ∉ ids) (hfree : n.blockHd r = []) (hsem : n.sem r = false)
    (hb : b ∈ ids) (hblocks : Blocks (n.span b) (n.span r)) :
    Linked W' E (fdLockfBlock n r b) ids := by
  have hbr : b ≠ r := fun e => hout (e ▸ hb)
  have hmem : ∀ c x, x ∈ (fdLockfBlock n r b).blockHd c ↔ x ∈ n.blockHd c ∨ c = b ∧ x = r := by
    intro c x
    simp only [fdLockfBlock]
    by_cases hcb : c = b
    · rw [hcb, update_self, (lineAddTail_perm _ _).mem_iff, List.mem_cons]
      tauto
    · rw [update_of_ne hcb]
      tauto
  have hnext : ∀ x, x ≠ r → (fdLockfBlock n r b).next x = n.next x := fun x hx =>
    update_of_ne hx _ _
  have hself : (fdLockfBlock n r b).next r = some b := update_self _ _ _
  have hold : ∀ x, W x → x ≠ r := fun x hx e => hnew (e ▸ hx)
  refine ⟨h.mono.congr fun x hx => hnext x fun e => hout (e ▸ hx), h.nodup, ⟨?_, ?_, ?_, ?_, ?_⟩,
    ?_⟩
  · intro c hc x hx
    rcases (hmem c x).mp hx with hx | ⟨rfl, rfl⟩
    · obtain ⟨hw, hxc⟩ := h.queued.listed c hc x hx
      exact ⟨(hW x).mpr (Or.inl hw), (hnext x (hold x hw)).trans hxc⟩
    · exact ⟨(hW x).mpr (Or.inr rfl), hself⟩
  · intro x hx
    rcases (hW x).mp hx with hw | rfl
    · rw [hnext x (hold x hw)]
      rcases h.queued.waits x hw with hnone | ⟨hsem, c, hc, hxc⟩
      · exact Or.inl hnone
      · exact Or.inr ⟨hsem, c, hc, (hmem c x).mpr (Or.inl hxc)⟩
    · exact Or.inr ⟨hsem, b, hb, (hmem b x).mpr (Or.inr ⟨rfl, rfl⟩)⟩
  · intro c hc
    simp only [fdLockfBlock]
    by_cases hcb : c = b
    · rw [hcb, update_self]
      refine (lineAddTail_perm _ _).nodup_iff.mpr (List.nodup_cons.mpr ⟨fun hmem => ?_, ?_⟩)
      · exact hnew (h.queued.listed b hb r hmem).1
      · exact h.queued.nodup b hb
    · rw [update_of_ne hcb]
      exact h.queued.nodup c hc
  · intro x hx
    have hxb : x ∉ ids ∧ n.blockHd x = [] := by
      rcases (hW x).mp hx with hw | rfl
      · exact h.queued.out x hw
      · exact ⟨hout, hfree⟩
    refine ⟨hxb.1, ?_⟩
    have hne : x ≠ b := fun e => hxb.1 (e ▸ hb)
    exact (update_of_ne hne _ _).trans hxb.2
  · intro x hx hE
    have hw : W x := ((hW x).mp hx).resolve_right fun e => hidle (e ▸ hE)
    rw [hnext x (hold x hw)]
    exact h.queued.taken x hw hE
  · intro c hc _ x hx
    rcases (hmem c x).mp hx with hx | ⟨rfl, rfl⟩
    · exact h.queued.blocks c hc id x hx
    · exact hblocks

theorem Linked.leave (h : Linked W E n ids) (hW : ∀ x, W' x ↔ W x ∧ x ≠ r)
    (hE : ∀ x, x ≠ r → (E' x ↔ E x)) (hout : r ∉ ids) (hhead : n'.head = n.head)
    (hspan : n'.span = n.span) (hsem : n'.sem = n.sem) (hnext : ∀ x, x ≠ r → n'.next x = n.next x)
    (hblockHd : ∀ c ∈ ids, n'.blockHd c = (n.blockHd c).erase r)
    (hnil : ∀ c, n.blockHd c = [] → n'.blockHd c = []) : Linked W' E' n' ids := by
  have hmem : ∀ c ∈ ids, ∀ x, x ∈ n'.blockHd c ↔ x ≠ r ∧ x ∈ n.blockHd c := by
    intro c hc x
    rw [hblockHd c hc, (h.queued.nodup c hc).mem_erase_iff]
  refine ⟨?_, h.nodup, ⟨?_, ?_, ?_, ?_, ?_⟩, ?_⟩
  · rw [hhead]
    exact h.mono.congr fun x hx => hnext x fun e => hout (e ▸ hx)
  · intro c hc x hx
    obtain ⟨hxr, hx⟩ := (hmem c hc x).mp hx
    obtain ⟨hw, hxc⟩ := h.queued.listed c hc x hx
    exact ⟨(hW x).mpr ⟨hw, hxr⟩, (hnext x hxr).trans hxc⟩
  · intro x hx
    obtain ⟨hw, hxr⟩ := (hW x).mp hx
    rw [hnext x hxr, hsem, hE x hxr]
    rcases h.queued.waits x hw with hnone | ⟨hsem, c, hc, hxc⟩
    · exact Or.inl hnone
    · exact Or.inr ⟨hsem, c, hc, (hmem c hc x).mpr ⟨hxr, hxc⟩⟩
  · intro c hc
    rw [hblockHd c hc]
    exact (h.queued.nodup c hc).erase r
  · intro x hx
    obtain ⟨hw, -⟩ := (hW x).mp hx
    exact ⟨(h.queued.out x hw).1, hnil x (h.queued.out x hw).2⟩
  · intro x hx hEx
    obtain ⟨hw, hxr⟩ := (hW x).mp hx
    rw [hnext x hxr, hsem]
    exact h.queued.taken x hw ((hE x hxr).mp hEx)
  · intro c hc _ x hx
    rw [hspan]
    exact h.queued.blocks c hc id x ((hmem c hc x).mp hx).2

theorem Linked.unblock (h : Linked W E n ids) (hW : ∀ x, W' x ↔ W x ∧ x ≠ r)
    (hE : ∀ x, x ≠ r → (E' x ↔ E x)) (hout : r ∉ ids) (hn' : n' = match n.next r with
      | some b => fdLockfUnblock n r b
      | none => n) :
    Linked W' E' n' ids ∧ n'.span = n.span ∧ n'.abort = n.abort ∧ n'.created = n.created ∧
      n'.sem = n.sem ∧ (n.blockHd r = [] → n'.blockHd r = []) := by
  have hlisted : ∀ c ∈ ids, r ∈ n.blockHd c → n.next r = some c := fun c hc hr =>
    (h.queued.listed c hc r hr).2
  subst hn'
  cases hnext : n.next r with
  | none =>
    refine ⟨h.leave hW hE hout rfl rfl rfl (fun _ _ => rfl) (fun c hc => ?_) fun _ hc => hc, rfl,
      rfl, rfl, rfl, id⟩
    refine (List.erase_of_not_mem fun hr => ?_).symm
    rw [hlisted c hc hr] at hnext
    cases hnext
  | some b =>
    have hnil : ∀ c, n.blockHd c = [] → (fdLockfUnblock n r b).blockHd c = [] := by
      intro c hc
      simp only [fdLockfUnblock]
      by_cases hcb : c = b
      · rw [hcb, update_self, ← hcb, hc, List.erase_nil]
      · rw [update_of_ne hcb, hc]
    refine ⟨h.leave hW hE hout rfl rfl rfl (fun x hx => update_of_ne hx _ _) (fun c hc => ?_)
      hnil, rfl, rfl, rfl, rfl, hnil r⟩
    simp only [fdLockfUnblock]
    by_cases hcb : c = b
    · rw [hcb, update_self]
    · rw [update_of_ne hcb]
      refine (List.erase_of_not_mem fun hr => hcb ?_).symm
      rw [hlisted c hc hr] at hnext
      exact Option.some.inj hnext

theorem Linked.take (h : Linked W E n ids) (hE : ∀ x, E' x ↔ E x ∨ x = r)
    (hsem : n.sem r = true) : Linked W E' { n with sem := update n.sem r false } ids := by
  refine ⟨h.mono, h.nodup, ⟨h.queued.listed, ?_, h.queued.nodup, h.queued.out, ?_⟩, h.queued.blocks⟩
  · intro x hx
    simp only [hE]
    by_cases hxr : x = r
    · left
      rcases h.queued.waits x hx with ⟨hnone, -⟩ | ⟨hfalse, -⟩
      · exact ⟨hnone, Or.inr (Or.inr hxr)⟩
      · rw [hxr, hsem] at hfalse
        cases hfalse
    · rw [update_of_ne hxr]
      rcases h.queued.waits x hx with ⟨hnone, hposted⟩ | hlisted
      · exact Or.inl ⟨hnone, hposted.imp id Or.inl⟩
      · exact Or.inr hlisted
  · intro x hx hEx
    simp only
    by_cases hxr : x = r
    · rw [hxr, update_self]
      rcases h.queued.waits x hx with ⟨hnone, -⟩ | ⟨hfalse, -⟩
      · exact ⟨hxr ▸ hnone, rfl⟩
      · rw [hxr, hsem] at hfalse
        cases hfalse
    · rw [update_of_ne hxr]
      exact h.queued.taken x hx (((hE x).mp hEx).resolve_right hxr)

theorem abortWaiters_eq (ws : List Addr) : ∀ n : Node, (∀ w ∈ ws, n.blockHd w = []) →
    ∃ abort', abortWaiters n ws = { n with abort := abort' } ∧
      ∀ x, abort' x = true ↔ n.abort x = true ∨ x ∈ ws := by
  induction ws with
  | nil => exact fun n _ => ⟨n.abort, rfl, fun x => by simp⟩
  | cons w ws ih =>
    intro n hnil
    have hwake : fdLockfWakeup { n with abort := update n.abort w true } w =
        { n with abort := update n.abort w true } := by
      rw [fdLockfWakeup, hnil w List.mem_cons_self, wakeAll]
    obtain ⟨abort', heq, habort⟩ := ih { n with abort := update n.abort w true }
      fun x hx => hnil x (List.mem_cons_of_mem w hx)
    refine ⟨abort', by rw [abortWaiters, hwake, heq], fun x => ?_⟩
    rw [habort x, List.mem_cons]
    by_cases hxw : x = w
    · simp [hxw]
    · simp [hxw]

theorem abortLoop_eq (back : List Addr) : ∀ (fuel : ℕ) (n : Node) (cur : Option Addr),
    IsMono n.next cur back → back.length ≤ fuel →
    (∀ b ∈ back, ∀ w ∈ n.blockHd b, n.blockHd w = []) →
    ∃ abort', abortLoop fuel n cur = some { n with abort := abort' } ∧
      ∀ x, abort' x = true ↔ n.abort x = true ∨ ∃ b ∈ back, x ∈ n.blockHd b := by
  induction back with
  | nil =>
    intro fuel n cur mono _ _
    obtain rfl : cur = none := mono
    refine ⟨n.abort, ?_, fun x => by simp⟩
    cases fuel <;> rfl
  | cons a back ih =>
    intro fuel n cur mono hle hnil
    obtain ⟨rfl, hrest⟩ := mono
    cases fuel with
    | zero => simp at hle
    | succ fuel =>
      obtain ⟨abort₁, heq₁, habort₁⟩ := abortWaiters_eq (n.blockHd a) n (hnil a List.mem_cons_self)
      obtain ⟨abort', heq, habort⟩ := ih fuel { n with abort := abort₁ } (n.next a) hrest
        (Nat.le_of_succ_le_succ hle) fun b hb => hnil b (List.mem_cons_of_mem a hb)
      refine ⟨abort', by rw [abortLoop, heq₁]; exact heq, fun x => ?_⟩
      rw [habort x, habort₁ x, List.exists_mem_cons_iff, or_assoc]

end Requests

def Phase.Pending (p : Phase) : Prop := p = .asleep ∨ ∃ error, p = .woken error

def State.Waits (s : State) : Addr → Prop
  | .lock k => (s.phase k).Pending ∧ s.node.abort (.lock k) = false
  | .spare _ => False

def State.Taken (s : State) : Addr → Prop
  | .lock k => s.phase k = .woken false
  | .spare _ => False

def Addr.index : Addr → ℕ
  | .lock k => k
  | .spare k => k

def Exclusive (held : ℕ → ℤ → Option Kind) : Prop :=
  ∀ p q b, p ≠ q → held p b = some .wrlck → held q b = none

structure Apart (n : Node) (ids : List Addr) (k : ℕ) : Prop where
  old : k < n.created
  lock_out : Addr.lock k ∉ ids
  spare_out : Addr.spare k ∉ ids
  ok : (n.span (.lock k)).Ok

structure Installed (s : State) (ids : List Addr) : Prop where
  linked : Linked s.Waits s.Taken s.node ids
  ok : ∀ x ∈ ids, (s.node.span x).Ok
  sorted : (ids.map s.node.span).Pairwise Before
  denotes : Denotes (ids.map s.node.span) s.held
  exclusive : Exclusive s.held
  old : ∀ x ∈ ids, x.index < s.node.created
  pending : ∀ k, (s.phase k).Pending →
    Apart s.node ids k ∧ (s.node.span (.lock k)).usType ≠ .unlck

structure Candidate (s : State) (ids : List Addr) (k : ℕ) : Prop extends Apart s.node ids k where
  idle : ¬(s.phase k).Pending
  free : s.node.blockHd (.lock k) = []
  abort : s.node.abort (.lock k) = false
  sem : s.node.sem (.lock k) = false

section Invariant

variable {s : State} {ids : List Addr} {k : ℕ}

theorem waits_pending (h : s.Waits (.lock k)) : (s.phase k).Pending := h.1

theorem taken_pending (h : s.Taken (.lock k)) : (s.phase k).Pending := Or.inr ⟨false, h⟩

theorem not_pending_finished (o : Outcome) : ¬(Phase.finished o).Pending := by
  simp [Phase.Pending]

theorem Installed.length_lt (h : Installed s ids) : ids.length < s.node.fuel := by
  let code : Addr → ℕ
    | .lock k => 2 * k
    | .spare k => 2 * k + 1
  have hinj : Function.Injective code := by
    intro x y hxy
    cases x <;> cases y <;> simp only [code] at hxy <;> first | omega | (congr 1; omega)
  have hsub : ids.map code ⊆ List.range (2 * s.node.created) := by
    intro c hc
    obtain ⟨x, hx, rfl⟩ := List.mem_map.mp hc
    have hold := h.old x hx
    rw [List.mem_range]
    cases x <;> simp only [code, Addr.index] at hold ⊢ <;> omega
  have hle := (List.subperm_of_subset (h.linked.nodup.map hinj) hsub).length_le
  rw [List.length_map, List.length_range] at hle
  simp only [Node.fuel]
  omega

theorem Candidate.ready (h : Installed s ids) (hk : Candidate s ids k) :
    Ready s.Waits s.Taken (s.node.span (.lock k)) (.lock k) (.spare k) s.node ids where
  linked := h.linked
  ok := h.ok
  sorted := h.sorted
  span := rfl
  lock_out := hk.lock_out
  spare_out := hk.spare_out
  apart := Addr.noConfusion
  lock_new := fun hw => hk.idle (waits_pending hw)
  spare_new := id
  lock_free := hk.free
  length := h.length_lt

theorem waits_settle (s' : State) (hphase : ∀ j, j ≠ k → s'.phase j = s.phase j)
    (hidle : ¬(s.phase k).Pending) (hidle' : ¬(s'.phase k).Pending)
    (habort : ∀ j, s'.node.abort (.lock j) = s.node.abort (.lock j)) :
    s'.Waits = s.Waits ∧ s'.Taken = s.Taken := by
  constructor
  · funext x
    cases x with
    | spare j => rfl
    | lock j =>
      simp only [State.Waits, habort j]
      by_cases hj : j = k
      · rw [hj, eq_iff_iff]
        exact iff_of_false (fun hw => hidle' hw.1) fun hw => hidle hw.1
      · rw [hphase j hj]
  · funext x
    cases x with
    | spare j => rfl
    | lock j =>
      simp only [State.Taken]
      by_cases hj : j = k
      · rw [hj, eq_iff_iff]
        exact iff_of_false (fun ht => hidle' (Or.inr ⟨false, ht⟩)) fun ht => hidle (Or.inr ⟨false, ht⟩)
      · rw [hphase j hj]

theorem overwrite_exclusive {held : ℕ → ℤ → Option Kind} {sp : Span} {l : List Span}
    (h : Exclusive held) (denotes : Denotes l held)
    (hblocks : sp.usType = .unlck ∨ ∀ x ∈ l, ¬Blocks x sp) : Exclusive (overwrite held sp) := by
  have hfree : ∀ q b t, sp.usType ≠ .unlck → sp.Covers b → q ≠ sp.pid → held q b = some t →
      ¬(sp.usType = .wrlck ∨ t = .wrlck) := by
    intro q b t hlock hb hq ht hconflict
    obtain ⟨x, hx, hpid, htype, hxb⟩ := (denotes q b t).mp ht
    exact hblocks.resolve_left hlock x hx
      ⟨fun e => hq (hpid.symm.trans e), ⟨b, hxb, hb⟩, htype ▸ hconflict⟩
  intro p q b hpq hp
  simp only [overwrite] at hp ⊢
  split_ifs at hp with hpin
  · obtain ⟨rfl, hb⟩ := hpin
    rw [if_neg fun hq => hpq hq.1.symm]
    cases hq : held q b with
    | none => rfl
    | some t =>
      cases htype : sp.usType with
      | unlck => rw [htype] at hp; cases hp
      | rdlck => rw [htype] at hp; cases hp
      | wrlck =>
        exact absurd (Or.inl htype) (hfree q b t (by rw [htype]; decide) hb (Ne.symm hpq) hq)
  · split_ifs with hqin
    · obtain ⟨rfl, hb⟩ := hqin
      cases htype : sp.usType with
      | unlck => rfl
      | rdlck => exact absurd (Or.inr rfl) (hfree p b _ (by rw [htype]; decide) hb hpq hp)
      | wrlck => exact absurd (Or.inr rfl) (hfree p b _ (by rw [htype]; decide) hb hpq hp)
    · exact h p q b hpq hp

theorem Installed.applied {n' : Node} {ids' : List Addr} (h : Installed s ids)
    (hk : Candidate s ids k)
    (happlied : Applied s.Waits s.Taken (s.node.span (.lock k)) (.lock k) (.spare k) s.node n' ids
      ids')
    (hblocks : (s.node.span (.lock k)).usType = .unlck ∨
      ∀ x ∈ ids, ¬Blocks (s.node.span x) (s.node.span (.lock k))) :
    Installed (s.settle k (n', some .ok)) ids' := by
  obtain ⟨hwaits, htaken⟩ := waits_settle (s := s) (s.settle k (n', some .ok)) (k := k)
    (fun j hj => update_of_ne hj _ _) hk.idle
    (by
      simp only [State.settle, update_self]
      exact not_pending_finished _)
    (fun j => happlied.abort _ Addr.noConfusion)
  obtain ⟨front, back, hsplit, hplace, hspans⟩ := happlied.spans
  have hok : ∀ x ∈ front ++ back, x.Ok := by
    rw [← hsplit]
    intro x hx
    obtain ⟨y, hy, rfl⟩ := List.mem_map.mp hx
    exact h.ok y hy
  have hsorted := h.sorted
  have hdenotes := h.denotes
  rw [hsplit] at hsorted hdenotes
  have hresult : (∀ x ∈ ids'.map n'.span, x.Ok) ∧ (ids'.map n'.span).Pairwise Before ∧
      Denotes (ids'.map n'.span) (overwrite s.held (s.node.span (.lock k))) := by
    rcases hspans with hcut | ⟨hsame, hlock, f, hf, hpid, htype, hcovers⟩
    · rw [hcut]
      exact ⟨cut_ok hk.ok hok, cut_sorted hplace hk.ok hok hsorted, cut_denotes hplace hok hsorted hdenotes⟩
    · rw [hsame, overwrite_same hdenotes hf hpid htype hlock hcovers]
      exact ⟨hok, hsorted, hdenotes⟩
  refine ⟨?_, fun x hx => hresult.1 _ (List.mem_map_of_mem hx), hresult.2.1, hresult.2.2, ?_, ?_, ?_⟩
  · rw [hwaits, htaken]
    exact happlied.linked
  · refine overwrite_exclusive h.exclusive h.denotes (hblocks.imp id fun hno x hx => ?_)
    obtain ⟨y, hy, rfl⟩ := List.mem_map.mp hx
    exact hno y hy
  · intro x hx
    have hcreated : (s.settle k (n', some .ok)).node.created = s.node.created := happlied.created
    rw [hcreated]
    rcases happlied.mem x hx with hx | rfl | rfl
    · exact h.old x hx
    · exact hk.old
    · exact hk.old
  · intro j hj
    have hjk : j ≠ k := fun e => not_pending_finished .ok (by
      simpa [State.settle, e] using hj)
    have hphase : (s.settle k (n', some .ok)).phase j = s.phase j := update_of_ne hjk _ _
    rw [hphase] at hj
    obtain ⟨hapart, hlock⟩ := h.pending j hj
    have hspan : n'.span (.lock j) = s.node.span (.lock j) :=
      happlied.span _ hapart.lock_out Addr.noConfusion
    refine ⟨⟨?_, ?_, ?_, ?_⟩, ?_⟩
    · exact Nat.lt_of_lt_of_eq hapart.old happlied.created.symm
    · intro hmem
      rcases happlied.mem _ hmem with hmem | e | e
      · exact hapart.lock_out hmem
      · exact hjk (Addr.lock.inj e)
      · cases e
    · intro hmem
      rcases happlied.mem _ hmem with hmem | e | e
      · exact hapart.spare_out hmem
      · cases e
      · exact hjk (Addr.spare.inj e)
    · exact hspan ▸ hapart.ok
    · exact hspan ▸ hlock

theorem Installed.congr {s' : State} (h : Installed s ids)
    (hlinked : Linked s'.Waits s'.Taken s'.node ids) (hspan : s'.node.span = s.node.span)
    (hcreated : s'.node.created = s.node.created) (hheld : s'.held = s.held)
    (hpending : ∀ j, (s'.phase j).Pending →
      Apart s.node ids j ∧ (s.node.span (.lock j)).usType ≠ .unlck) : Installed s' ids := by
  refine ⟨hlinked, ?_, ?_, ?_, ?_, ?_, ?_⟩
  · rw [hspan]
    exact h.ok
  · rw [hspan]
    exact h.sorted
  · rw [hspan, hheld]
    exact h.denotes
  · rw [hheld]
    exact h.exclusive
  · rw [hcreated]
    exact h.old
  · intro j hj
    obtain ⟨hapart, hlock⟩ := hpending j hj
    rw [hspan]
    exact ⟨⟨Nat.lt_of_lt_of_eq hapart.old hcreated.symm, hapart.lock_out, hapart.spare_out,
      by rw [hspan]; exact hapart.ok⟩, hlock⟩

theorem Installed.grow (h : Installed s ids) :
    Installed { s with node := { s.node with created := s.node.created + 1 } } ids := by
  have hwaits : ({ s with node := { s.node with created := s.node.created + 1 } } : State).Waits =
      s.Waits := by
    funext x
    cases x <;> rfl
  refine ⟨?_, h.ok, h.sorted, h.denotes, h.exclusive, fun x hx => Nat.lt_succ_of_lt (h.old x hx),
    fun j hj => ?_⟩
  · rw [hwaits]
    exact ⟨h.linked.mono, h.linked.nodup, ⟨h.linked.queued.listed, h.linked.queued.waits,
      h.linked.queued.nodup, h.linked.queued.out, h.linked.queued.taken⟩, h.linked.queued.blocks⟩
  · obtain ⟨hapart, hlock⟩ := h.pending j hj
    exact ⟨⟨Nat.lt_succ_of_lt hapart.old, hapart.lock_out, hapart.spare_out, hapart.ok⟩, hlock⟩

theorem pending_of_update {p : Phase} {j : ℕ} (hp : ¬p.Pending)
    (hj : (update s.phase k p j).Pending) : j ≠ k ∧ (s.phase j).Pending := by
  by_cases hjk : j = k
  · rw [hjk, update_self] at hj
    exact absurd hj hp
  · rw [update_of_ne hjk] at hj
    exact ⟨hjk, hj⟩

theorem Installed.refuse (h : Installed s ids) (hidle : ¬(s.phase k).Pending) {o : Outcome}
    (ho : o ≠ .ok) : Installed (s.settle k (s.node, some o)) ids := by
  have hp := not_pending_finished o
  obtain ⟨hwaits, htaken⟩ := waits_settle (s := s) (s.settle k (s.node, some o)) (k := k)
    (fun j hj => update_of_ne hj _ _) hidle
    (by
      simp only [State.settle, update_self]
      exact hp) (fun _ => rfl)
  refine h.congr ?_ rfl rfl (if_neg ho) fun j hj => h.pending j (pending_of_update hp hj).2
  rw [hwaits, htaken]
  exact h.linked

theorem Installed.sleep (h : Installed s ids) (hk : Candidate s ids k)
    (hlock : (s.node.span (.lock k)).usType ≠ .unlck) {b : Addr} (hb : b ∈ ids)
    (hblocks : Blocks (s.node.span b) (s.node.span (.lock k))) :
    Installed (s.settle k (fdLockfBlock s.node (.lock k) b, none)) ids := by
  have hwaits : ∀ x, (s.settle k (fdLockfBlock s.node (.lock k) b, none)).Waits x ↔
      s.Waits x ∨ x = .lock k := by
    intro x
    cases x with
    | spare j => simp [State.Waits]
    | lock j =>
      by_cases hj : j = k
      · subst hj
        simp [State.Waits, State.settle, fdLockfBlock, Phase.Pending, hk.abort]
      · simp [State.Waits, State.settle, fdLockfBlock, hj]
  have htaken : (s.settle k (fdLockfBlock s.node (.lock k) b, none)).Taken = s.Taken := by
    funext x
    cases x with
    | spare j => rfl
    | lock j =>
      by_cases hj : j = k
      · subst hj
        simp only [State.Taken, State.settle, update_self, eq_iff_iff]
        exact iff_of_false (fun e => by cases e) fun e => hk.idle (Or.inr ⟨false, e⟩)
      · simp [State.Taken, State.settle, hj]
  refine h.congr ?_ rfl rfl rfl fun j hj => ?_
  · rw [htaken]
    exact h.linked.block hwaits (fun hw => hk.idle (waits_pending hw))
      (fun ht => hk.idle (taken_pending ht)) hk.lock_out hk.free hk.sem hb hblocks
  · by_cases hjk : j = k
    · exact hjk ▸ ⟨hk.toApart, hlock⟩
    · have hphase : (s.settle k (fdLockfBlock s.node (.lock k) b, none)).phase j = s.phase j :=
        update_of_ne hjk _ _
      exact h.pending j (hphase ▸ hj)

theorem Installed.leave (h : Installed s ids) (hpending : (s.phase k).Pending) {n' : Node}
    (hn' : n' = match s.node.next (.lock k) with
      | some b => fdLockfUnblock s.node (.lock k) b
      | none => s.node) :
    Installed { s with node := n', phase := update s.phase k .absent } ids ∧
      n'.span = s.node.span ∧
      (s.phase k = .woken false → s.node.abort (.lock k) = false →
        Candidate { s with node := n', phase := update s.phase k .absent } ids k) := by
  have hidle : ¬Phase.absent.Pending := by simp [Phase.Pending]
  obtain ⟨hapart, hlock⟩ := h.pending k hpending
  have habsent : update s.phase k .absent k = .absent := update_self _ _ _
  generalize hs₁ : { s with node := n', phase := update s.phase k .absent } = s₁
  have hphase : ∀ j, s₁.phase j = update s.phase k .absent j := by
    rw [← hs₁]
    exact fun _ => rfl
  have hnode : s₁.node = n' := by rw [← hs₁]
  have habort : n'.abort = s.node.abort := by
    rw [hn']
    cases s.node.next (.lock k) <;> rfl
  have hwaits : ∀ x, s₁.Waits x ↔ s.Waits x ∧ x ≠ .lock k := by
    intro x
    cases x with
    | spare j => simp [State.Waits]
    | lock j =>
      simp only [State.Waits, hphase, hnode, habort]
      by_cases hj : j = k
      · subst hj
        simp [Phase.Pending]
      · simp [hj]
  have htaken : ∀ x, x ≠ .lock k → (s₁.Taken x ↔ s.Taken x) := by
    intro x hx
    cases x with
    | spare j => exact Iff.rfl
    | lock j =>
      have hj : j ≠ k := fun e => hx (e ▸ rfl)
      simp only [State.Taken, hphase]
      rw [update_of_ne hj]
  obtain ⟨hlinked, hspan, -, hcreated, hsem, hnil⟩ :=
    h.linked.unblock hwaits htaken hapart.lock_out hn'
  refine ⟨h.congr (hnode ▸ hlinked) (hnode ▸ hspan) (hnode ▸ hcreated) (by rw [← hs₁])
    fun j hj => h.pending j ?_, hspan, fun hwoken hnot => ?_⟩
  · rw [hphase] at hj
    exact (pending_of_update hidle hj).2
  · have hw : s.Waits (.lock k) := ⟨hpending, hnot⟩
    refine ⟨⟨?_, hapart.lock_out, hapart.spare_out, ?_⟩, ?_, ?_, ?_, ?_⟩
    · rw [hnode, hcreated]
      exact hapart.old
    · rw [hnode, hspan]
      exact hapart.ok
    · rw [hphase, habsent]
      exact hidle
    · rw [hnode]
      exact hnil (h.linked.queued.out _ hw).2
    · rw [hnode, habort]
      exact hnot
    · rw [hnode, hsem]
      exact (h.linked.queued.taken _ hw hwoken).2

theorem Installed.create (h : Installed s ids) {sp : Span} (hsp : sp.Ok) :
    Installed { s with node := s.node.create sp } ids ∧
      Candidate { s with node := s.node.create sp } ids s.node.created ∧
      (s.node.create sp).span (.lock s.node.created) = sp := by
  have hfresh : ∀ x ∈ ids, x ≠ .lock s.node.created := fun x hx e =>
    Nat.lt_irrefl _ (e ▸ h.old x hx)
  have hidle : ¬(s.phase s.node.created).Pending := fun hp =>
    Nat.lt_irrefl _ (h.pending _ hp).1.old
  have hlock : ∀ j, (s.phase j).Pending → Addr.lock j ≠ .lock s.node.created := fun j hp e =>
    hidle (Addr.lock.inj e ▸ hp)
  have hwait : ∀ x, s.Waits x → x ≠ .lock s.node.created := by
    intro x hx
    cases x with
    | spare j => exact Addr.noConfusion
    | lock j => exact hlock j hx.1
  have hspan : ∀ x ∈ ids, (s.node.create sp).span x = s.node.span x := fun x hx =>
    update_of_ne (hfresh x hx) _ _
  have hmap : ids.map (s.node.create sp).span = ids.map s.node.span := List.map_congr_left hspan
  have hwaits : ({ s with node := s.node.create sp } : State).Waits = s.Waits := by
    funext x
    cases x with
    | spare j => rfl
    | lock j =>
      simp only [State.Waits, eq_iff_iff]
      refine and_congr_right fun hp => ?_
      simp only [Node.create]
      rw [update_of_ne (hlock j hp)]
  refine ⟨⟨?_, ?_, ?_, ?_, h.exclusive, ?_, ?_⟩, ⟨⟨?_, ?_, ?_, ?_⟩, hidle, ?_, ?_, ?_⟩, ?_⟩
  · rw [hwaits]
    refine ⟨h.linked.mono.congr fun x hx => update_of_ne (hfresh x hx) _ _, h.linked.nodup,
      h.linked.queued.toLined.relink ?_ (fun x hx => update_of_ne (hwait x hx) _ _)
        (fun x hx => update_of_ne (hwait x hx) _ _) (fun b hb => Or.inl hb)
        fun b hb => Or.inl hb,
      h.linked.queued.blocks.relink h.linked.queued.toLined ?_ (fun _ _ hfalse => hfalse) ?_
        fun b hb => Or.inl hb⟩
    · rintro x (hx | hx)
      · exact update_of_ne (hfresh x hx) _ _
      · exact update_of_ne (hwait x hx) _ _
    · rintro x - (hx | hx)
      · exact hspan x hx
      · exact update_of_ne (hwait x hx) _ _
    · exact fun x hx => update_of_ne (hfresh x hx) _ _
  · intro x hx
    rw [hspan x hx]
    exact h.ok x hx
  · rw [hmap]
    exact h.sorted
  · rw [hmap]
    exact h.denotes
  · exact fun x hx => Nat.lt_succ_of_lt (h.old x hx)
  · intro j hp
    obtain ⟨hapart, htype⟩ := h.pending j hp
    have hj : (s.node.create sp).span (.lock j) = s.node.span (.lock j) :=
      update_of_ne (hlock j hp) _ _
    exact ⟨⟨Nat.lt_succ_of_lt hapart.old, hapart.lock_out, hapart.spare_out, hj ▸ hapart.ok⟩,
      hj ▸ htype⟩
  · exact Nat.lt_succ_self _
  · exact fun hmem => hfresh _ hmem rfl
  · exact fun hmem => Nat.lt_irrefl _ (h.old _ hmem)
  · simp only [Node.create, update_self]
    exact hsp
  all_goals simp only [Node.create, update_self]

def Answered (s : State) (ids : List Addr) (k : ℕ) (wait : Bool) (p : Node × Option Outcome) :
    Prop :=
  ((∀ x ∈ ids, ¬Blocks (s.node.span x) (s.node.span (.lock k))) ∧ p.2 = some .ok) ∨
    (∃ b ∈ ids, Blocks (s.node.span b) (s.node.span (.lock k)) ∧ p.2 ≠ some .ok ∧
      (wait = false → p = (s.node, some .eagain)))

def SameMarks (n n' : Node) : Prop := ∀ j, n'.abort (.lock j) = n.abort (.lock j)

theorem Applied.sameMarks {W E : Addr → Prop} {sp : Span} {n n' : Node} {ids' : List Addr}
    (h : Applied W E sp (.lock k) (.spare k) n n' ids ids') : SameMarks n n' :=
  fun _ => h.abort _ Addr.noConfusion

theorem setLock_installed (h : Installed s ids) (hk : Candidate s ids k)
    (hlock : (s.node.span (.lock k)).usType ≠ .unlck) (wait : Bool) :
    ∃ p ids', fdLockfSetLock s.node k wait = some p ∧ Installed (s.settle k p) ids' ∧
      Answered s ids k wait p ∧ SameMarks s.node p.1 := by
  have hhead := h.linked.mono.head_eq
  have hlength := h.length_lt
  rcases getBlock_spec hk.ok s.node.fuel none ids (hhead ▸ h.linked.mono) h.ok
    (Nat.le_of_lt hlength) hlength with ⟨hget, hno⟩ | ⟨b, hb, hget, hblocks⟩
  · rw [← hhead] at hget
    obtain ⟨n', ids', hloop, happlied⟩ := setLoop_applied (hk.ready h) hk.ok hlock
    refine ⟨(n', some .ok), ids', ?_, h.applied hk happlied (Or.inr hno), Or.inl ⟨hno, rfl⟩,
      happlied.sameMarks⟩
    rw [fdLockfSetLock, hget]
    simp only [hloop, Option.map_some]
  · rw [← hhead] at hget
    rw [fdLockfSetLock, hget]
    simp only
    split_ifs with hwait hdead
    · exact ⟨_, ids, rfl, h.refuse hk.idle (by decide),
        Or.inr ⟨b, hb, hblocks, by simp, fun _ => rfl⟩, fun _ => rfl⟩
    · exact ⟨_, ids, rfl, h.refuse hk.idle (by decide),
        Or.inr ⟨b, hb, hblocks, by simp, fun hw => absurd hw hwait⟩, fun _ => rfl⟩
    · exact ⟨_, ids, rfl, h.sleep hk hlock hb hblocks,
        Or.inr ⟨b, hb, hblocks, by simp, fun hw => absurd hw hwait⟩, fun _ => rfl⟩

theorem clearLock_installed (h : Installed s ids) (hk : Candidate s ids k)
    (hunlock : (s.node.span (.lock k)).usType = .unlck) :
    ∃ n' ids', fdLockfClearLock s.node k = some n' ∧ Installed (s.settle k (n', some .ok)) ids' ∧
      SameMarks s.node n' := by
  obtain ⟨n', ids', hloop, happlied⟩ := clearLoop_applied (hk.ready h) hk.ok hunlock
  exact ⟨n', ids', hloop, h.applied hk happlied (Or.inl hunlock), happlied.sameMarks⟩

theorem clearLock_empty (hhead : s.node.head = none) :
    fdLockfClearLock s.node k = some s.node := by
  rw [fdLockfClearLock, hhead, Node.fuel, clearLoop]
  have hnone : ∀ fuel sp, fdLockfFindOverlap s.node sp .self fuel none none =
      some (.apart, none, none) := fun fuel sp => by cases fuel <;> rfl
  rw [hnone]

def Conflicts (held : ℕ → ℤ → Option Kind) (sp : Span) : Prop :=
  sp.usType ≠ .unlck ∧ ∃ p b t, p ≠ sp.pid ∧ sp.Covers b ∧ held p b = some t ∧
    (sp.usType = .wrlck ∨ t = .wrlck)

theorem conflicts_iff {held : ℕ → ℤ → Option Kind} {span : Addr → Span} {sp : Span}
    (denotes : Denotes (ids.map span) held) (hlock : sp.usType ≠ .unlck) :
    Conflicts held sp ↔ ∃ x ∈ ids, Blocks (span x) sp := by
  constructor
  · rintro ⟨-, p, b, t, hp, hb, ht, hconflict⟩
    obtain ⟨y, hy, hpid, htype, hyb⟩ := (denotes p b t).mp ht
    obtain ⟨x, hx, rfl⟩ := List.mem_map.mp hy
    exact ⟨x, hx, fun e => hp (hpid.symm.trans e), ⟨b, hyb, hb⟩, htype ▸ hconflict⟩
  · rintro ⟨x, hx, hother, ⟨b, hxb, hb⟩, hconflict⟩
    refine ⟨hlock, (span x).pid, b, (span x).usType, hother, hb, ?_, hconflict⟩
    exact (denotes _ _ _).mpr ⟨span x, List.mem_map_of_mem hx, rfl, rfl, hxb⟩

def Unmarked (s s' : State) : Prop :=
  ∀ j, s'.phase j = .asleep → s'.node.abort (.lock j) = true →
    s.phase j = .asleep ∧ s.node.abort (.lock j) = true

theorem unmarked_settle {p : Node × Option Outcome} (hmarks : SameMarks s.node p.1)
    (hself : s.node.abort (.lock k) = false) : Unmarked s (s.settle k p) := by
  obtain ⟨n', o⟩ := p
  have hnode : (s.settle k (n', o)).node = n' := by cases o <;> rfl
  intro j hj habort
  rw [hnode, hmarks j] at habort
  have hjk : j ≠ k := fun e => by
    rw [e, hself] at habort
    cases habort
  have hphase : (s.settle k (n', o)).phase j = s.phase j := by
    cases o <;> exact update_of_ne hjk _ _
  exact ⟨hphase ▸ hj, habort⟩

structure Served (s : State) (r : Request) (sp : Span) (s' : State) : Prop where
  refused : r.wait = false →
    (s'.phase s.node.created = .finished .eagain ↔ Conflicts s.held sp)
  unchanged : Conflicts s.held sp → s'.held = s.held
  granted : ¬Conflicts s.held sp →
    s'.phase s.node.created = .finished .ok ∧ s'.held = overwrite s.held sp

theorem request_span_ok {r : Request} {start : ℤ} (hstart : 0 ≤ start) : (r.span start).Ok := by
  refine ⟨hstart, ?_⟩
  simp only [Request.span]
  split_ifs with hlen
  · exact Or.inl rfl
  · right
    omega

def Request.Asks (r : Request) (start : ℤ) : Prop :=
  r.oftStart = some start ∧ 0 ≤ start ∧ r.spareOk = true ∧ r.lockOk = true

theorem advLock_installed (h : Installed s ids) (r : Request) :
    ∃ s' ids', fdLockfAdvLock s r = some s' ∧ Installed s' ids' ∧ Unmarked s s' ∧
      (∀ start, r.Asks start → Served s r (r.span start) s') ∧
      ((∀ start, ¬r.Asks start) → s'.held = s.held ∧ s'.phase s.node.created ≠ .finished .ok) := by
  have hidle : ¬(s.phase s.node.created).Pending := fun hp =>
    Nat.lt_irrefl _ (h.pending _ hp).1.old
  by_cases hasks : ∃ start, r.Asks start
  · obtain ⟨start, hasks⟩ := hasks
    obtain ⟨hstart, hle, hspare, hmem⟩ := hasks
    obtain ⟨hcreated, hk, hspan⟩ := h.create (request_span_ok (r := r) hle)
    have hserved : ∀ s', Served s r (r.span start) s' →
        (∀ start, r.Asks start → Served s r (r.span start) s') ∧
        ((∀ start, ¬r.Asks start) → s'.held = s.held ∧
          s'.phase s.node.created ≠ .finished .ok) := by
      intro s' hs'
      refine ⟨fun start' hasks' => ?_, fun hno => absurd ⟨hstart, hle, hspare, hmem⟩ (hno start)⟩
      obtain rfl : start = start' := Option.some.inj (hstart.symm.trans hasks'.1)
      exact hs'
    have hmarked : ∀ p, SameMarks (s.node.create (r.span start)) p.1 → Unmarked s
        (({ s with node := s.node.create (r.span start) } : State).settle s.node.created p) := by
      intro p hmarks j hj habort
      obtain ⟨hasleep, hold⟩ := unmarked_settle (k := s.node.created) hmarks hk.abort j hj habort
      have hne : Addr.lock j ≠ .lock s.node.created := fun e =>
        hidle (Addr.lock.inj e ▸ Or.inl hasleep)
      refine ⟨hasleep, ?_⟩
      simp only [Node.create, update_of_ne hne] at hold
      exact hold
    suffices hgoal : ∃ s' ids', fdLockfAdvLock s r = some s' ∧ Installed s' ids' ∧ Unmarked s s' ∧
        Served s r (r.span start) s' by
      obtain ⟨s', ids', hadv, hinstalled, hunmarked, hs'⟩ := hgoal
      exact ⟨s', ids', hadv, hinstalled, hunmarked, hserved s' hs'⟩
    have hadv : fdLockfAdvLock s r =
        if (s.node.create (r.span start)).head = none ∧ r.type = .unlck then
          some (({ s with node := s.node.create (r.span start) } : State).settle s.node.created
            (s.node.create (r.span start), some .ok))
        else if r.type = .unlck then
          (fdLockfClearLock (s.node.create (r.span start)) s.node.created).map fun n =>
            ({ s with node := s.node.create (r.span start) } : State).settle s.node.created
              (n, some .ok)
        else (fdLockfSetLock (s.node.create (r.span start)) s.node.created r.wait).map
          (({ s with node := s.node.create (r.span start) } : State).settle s.node.created) := by
      unfold fdLockfAdvLock
      simp only [hstart, hspare, hmem, if_neg (Int.not_lt.mpr hle)]
      simp
    have hok : ∀ n', ¬Conflicts s.held (r.span start) → Served s r (r.span start)
        (({ s with node := s.node.create (r.span start) } : State).settle s.node.created
          (n', some .ok)) := by
      intro n' hno
      refine ⟨fun _ => ?_, fun hyes => absurd hyes hno, fun _ => ⟨?_, ?_⟩⟩
      · simp [State.settle, hno]
      · simp [State.settle]
      · simp only [State.settle, if_pos]
        rw [hspan]
    by_cases hunlock : r.type = .unlck
    · have hno : ¬Conflicts s.held (r.span start) := fun hyes => hyes.1 hunlock
      obtain ⟨n', ids', hclear, hinstalled, hmarks⟩ := clearLock_installed hcreated hk
        (by simp only [hspan]; exact hunlock)
      rw [hadv]
      by_cases hhead : (s.node.create (r.span start)).head = none
      · have hempty := clearLock_empty (s := { s with node := s.node.create (r.span start) })
          (k := s.node.created) hhead
        rw [hempty] at hclear
        obtain rfl := Option.some.inj hclear
        rw [if_pos ⟨hhead, hunlock⟩]
        exact ⟨_, ids', rfl, hinstalled, hmarked _ hmarks, hok _ hno⟩
      · rw [if_neg fun hboth => hhead hboth.1, if_pos hunlock]
        simp only at hclear
        rw [hclear]
        exact ⟨_, ids', rfl, hinstalled, hmarked _ hmarks, hok _ hno⟩
    · have hlock : (r.span start).usType ≠ .unlck := hunlock
      obtain ⟨p, ids', hset, hinstalled, hanswer, hmarks⟩ := setLock_installed hcreated hk
        (by simp only [hspan]; exact hlock) r.wait
      rw [hadv, if_neg fun hboth => hunlock hboth.2, if_neg hunlock]
      simp only at hset
      rw [hset]
      refine ⟨_, ids', rfl, hinstalled, hmarked p hmarks, ?_⟩
      have hconflicts := conflicts_iff hcreated.denotes hlock
      simp only [Answered, hspan] at hanswer
      obtain ⟨n', o⟩ := p
      rcases hanswer with ⟨hno, ho⟩ | ⟨b, hb, hblocks, ho, hwait⟩
      · simp only at ho
        subst ho
        refine hok n' fun hyes => ?_
        obtain ⟨x, hx, hxb⟩ := hconflicts.mp hyes
        exact hno x hx hxb
      · have hyes : Conflicts s.held (r.span start) := hconflicts.mpr ⟨b, hb, hblocks⟩
        refine ⟨fun hw => ?_, fun _ => ?_, fun hno => absurd hyes hno⟩
        · rw [hwait hw]
          simp [State.settle, hyes]
        · cases o with
          | none => rfl
          | some o =>
            have hne : o ≠ .ok := fun e => ho (e ▸ rfl)
            simp only [State.settle, if_neg hne]
  · have hfails : ∃ o, o ≠ .ok ∧ fdLockfAdvLock s r = some { s with
        node := { s.node with created := s.node.created + 1 }
        phase := update s.phase s.node.created (.finished o) } := by
      unfold fdLockfAdvLock
      cases hstart : r.oftStart with
      | none => exact ⟨.einval, by decide, rfl⟩
      | some start =>
        simp only
        by_cases hneg : start < 0
        · exact ⟨.einval, by decide, by rw [if_pos hneg]⟩
        · have hmem : r.spareOk = false ∨ r.lockOk = false := by
            by_contra hboth
            rw [not_or, Bool.not_eq_false, Bool.not_eq_false] at hboth
            exact hasks ⟨start, hstart, by omega, hboth.1, hboth.2⟩
          exact ⟨.enolck, by decide, by rw [if_neg hneg, if_pos hmem]⟩
    obtain ⟨o, ho, hadv⟩ := hfails
    refine ⟨_, ids, hadv, ?_, fun j hj habort => ?_, fun start hyes => absurd ⟨start, hyes⟩ hasks,
      fun _ => ⟨rfl, ?_⟩⟩
    · have hrefused := h.refuse hidle ho
      rw [State.settle, if_neg ho] at hrefused
      exact hrefused.grow
    · have hjk := (pending_of_update (not_pending_finished o) (Or.inl hj)).1
      simp only [update_of_ne hjk] at hj
      exact ⟨hj, habort⟩
    · simp only [update_self]
      exact fun e => ho (Phase.finished.inj e)

theorem settle_left {n' : Node} (hspan : n'.span = s.node.span) (p : Node × Option Outcome) :
    ({ s with node := n', phase := update s.phase k .absent } : State).settle k p =
      s.settle k p := by
  obtain ⟨n, o⟩ := p
  cases o with
  | none => simp only [State.settle, update_idem]
  | some o => simp only [State.settle, update_idem, hspan]

theorem retry_installed (h : Installed s ids) {error : Bool} (hphase : s.phase k = .woken error) :
    ∃ s' ids', retry s k error = some s' ∧ Installed s' ids' ∧ Unmarked s s' := by
  have hpending : (s.phase k).Pending := Or.inr ⟨error, hphase⟩
  by_cases habort : s.node.abort (.lock k) = true
  · -- the request was marked, and waits for nothing
    refine ⟨s.settle k (s.node, some .ebadf), ids, by rw [retry, if_pos habort],
      h.congr ?_ rfl rfl rfl fun j hj => ?_, fun j hj hmark => ?_⟩
    · have hwaits : (s.settle k (s.node, some .ebadf)).Waits = s.Waits := by
        funext x
        cases x with
        | spare j => rfl
        | lock j =>
          by_cases hj : j = k
          · subst hj
            simp [State.Waits, State.settle, habort]
          · simp [State.Waits, State.settle, hj]
      rw [hwaits]
      refine ⟨h.linked.mono, h.linked.nodup, ⟨h.linked.queued.listed, fun r hr => ?_,
        h.linked.queued.nodup, h.linked.queued.out, fun r hr htaken => ?_⟩, h.linked.queued.blocks⟩
      all_goals
        have hrk : r ≠ .lock k := fun e => by
          subst e
          exact absurd (habort.symm.trans hr.2) (by decide)
        have hsame : (s.settle k (s.node, some .ebadf)).Taken r ↔ s.Taken r := by
          cases r with
          | spare j => exact Iff.rfl
          | lock j =>
            have hj : j ≠ k := fun e => hrk (e ▸ rfl)
            simp [State.Taken, State.settle, hj]
      · rw [hsame]
        exact h.linked.queued.waits r hr
      · exact h.linked.queued.taken r hr (hsame.mp htaken)
    · exact h.pending j (pending_of_update (not_pending_finished .ebadf) hj).2
    · have hjk := (pending_of_update (not_pending_finished .ebadf) (Or.inl hj)).1
      simp only [State.settle, update_of_ne hjk] at hj
      exact ⟨hj, hmark⟩
  · have hnot : s.node.abort (.lock k) = false := by
      rw [← Bool.not_eq_true]
      exact habort
    obtain ⟨n', hn'⟩ : ∃ n' : Node, n' = match s.node.next (.lock k) with
      | some b => fdLockfUnblock s.node (.lock k) b
      | none => s.node := ⟨_, rfl⟩
    obtain ⟨hleft, hspan, hcandidate⟩ := h.leave hpending hn'
    have hretry : retry s k error = if error then some (s.settle k (n', some .interrupted))
        else (fdLockfSetLock n' k true).map (s.settle k) := by
      subst hn'
      exact if_neg habort
    have hmarks : SameMarks s.node n' := by
      intro j
      rw [hn']
      cases s.node.next (.lock k) <;> rfl
    rw [hretry]
    cases error with
    | true =>
      have hidle : ¬(update s.phase k .absent k).Pending := by simp [Phase.Pending]
      have hrefused := hleft.refuse hidle (o := .interrupted) (by decide)
      rw [settle_left hspan] at hrefused
      exact ⟨_, ids, rfl, hrefused, unmarked_settle hmarks hnot⟩
    | false =>
      have hlock : (n'.span (.lock k)).usType ≠ .unlck := by
        rw [hspan]
        exact (h.pending k hpending).2
      obtain ⟨p, ids', hset, hinstalled, -, hmarks'⟩ := setLock_installed hleft
        (hcandidate hphase hnot) hlock true
      rw [settle_left hspan] at hinstalled
      simp only at hset
      rw [hset]
      exact ⟨_, ids', rfl, hinstalled,
        unmarked_settle (fun j => (hmarks' j).trans (hmarks j)) hnot⟩

theorem cleanup_installed (h : Installed s ids) (hphase : s.phase k = .asleep) :
    Installed (fdLockfCleanupHook s k) ids :=
  (h.leave (Or.inl hphase) rfl).1

theorem abort_installed (h : Installed s ids) :
    ∃ abort', fdLockAbortAdvLocks s = some { s with
        node := { s.node with abort := abort', head := none }
        held := fun _ _ => none } ∧
      (∀ x, abort' x = true ↔ s.node.abort x = true ∨ ∃ b ∈ ids, x ∈ s.node.blockHd b) ∧
      Installed { s with
        node := { s.node with abort := abort', head := none }
        held := fun _ _ => none } [] := by
  obtain ⟨abort', heq, habort⟩ := abortLoop_eq ids s.node.fuel s.node s.node.head h.linked.mono
    (Nat.le_of_lt h.length_lt) fun b hb w hw =>
      (h.linked.queued.out w (h.linked.queued.listed b hb w hw).1).2
  refine ⟨abort', by rw [fdLockAbortAdvLocks, heq]; rfl, habort, ?_⟩
  generalize hs' : ({ s with
    node := { s.node with abort := abort', head := none }
    held := fun _ _ => none } : State) = s'
  have hnode : s'.node = { s.node with abort := abort', head := none } := by rw [← hs']
  have hphase : s'.phase = s.phase := by rw [← hs']
  -- whoever still waits is in no list
  have hwaits : ∀ x, s'.Waits x → s.Waits x ∧ ∀ b ∈ ids, x ∉ s.node.blockHd b := by
    intro x hx
    cases x with
    | spare j => exact hx.elim
    | lock j =>
      obtain ⟨hp, hnot⟩ := hx
      rw [hphase] at hp
      rw [hnode] at hnot
      simp only at hnot
      have hneither := mt (habort (.lock j)).mpr (by rw [hnot]; decide)
      rw [not_or] at hneither
      exact ⟨⟨hp, by rw [← Bool.not_eq_true]; exact hneither.1⟩,
        fun b hb hmem => hneither.2 ⟨b, hb, hmem⟩⟩
  have htaken : s'.Taken = s.Taken := by
    funext x
    cases x with
    | spare j => rfl
    | lock j => simp only [State.Taken, hphase]
  refine ⟨⟨by rw [hnode]; rfl, List.nodup_nil, ⟨(fun _ hb => nomatch hb), ?_, (fun _ hb => nomatch hb),
    ?_, ?_⟩, fun _ hb => nomatch hb⟩, (fun _ hx => nomatch hx), List.Pairwise.nil, ?_, ?_,
    (fun _ hx => nomatch hx), fun j hj => ?_⟩
  · intro x hx
    obtain ⟨hw, hout⟩ := hwaits x hx
    rw [htaken, hnode]
    rcases h.linked.queued.waits x hw with hnone | ⟨-, b, hb, hmem⟩
    · exact Or.inl hnone
    · exact absurd hmem (hout b hb)
  · intro x hx
    rw [hnode]
    exact ⟨List.not_mem_nil, (h.linked.queued.out x (hwaits x hx).1).2⟩
  · intro x hx hE
    rw [htaken] at hE
    rw [hnode]
    exact h.linked.queued.taken x (hwaits x hx).1 hE
  · rw [← hs']
    intro p b t
    simp
  · rw [← hs']
    intro p q b _ hp
    cases hp
  · rw [hphase] at hj
    obtain ⟨hapart, hlock⟩ := h.pending j hj
    rw [hnode]
    exact ⟨⟨hapart.old, List.not_mem_nil, List.not_mem_nil, hapart.ok⟩, hlock⟩

theorem step_installed (h : Installed s ids) {a : Act} {s' : State} (hstep : step s a = some s') :
    ∃ ids', Installed s' ids' ∧ (a ≠ .abort → Unmarked s s') := by
  cases a with
  | request r =>
    obtain ⟨s₁, ids', hadv, hinstalled, hunmarked, -⟩ := advLock_installed h r
    obtain rfl : s₁ = s' := Option.some.inj (hadv.symm.trans hstep)
    exact ⟨ids', hinstalled, fun _ => hunmarked⟩
  | wake k =>
    simp only [step] at hstep
    split_ifs at hstep with hwake
    obtain ⟨hasleep, hsem⟩ := hwake
    obtain rfl := Option.some.inj hstep
    refine ⟨ids, h.congr ?_ rfl rfl rfl fun j hj => ?_, fun _ j hj hmark => ⟨?_, hmark⟩⟩
    · refine Linked.take (r := .lock k) (E := s.Taken) ?_ (fun x => ?_) hsem
      · have hwaits : ({ s with
            node := { s.node with sem := update s.node.sem (.lock k) false }
            phase := update s.phase k (.woken false) } : State).Waits = s.Waits := by
          funext x
          cases x with
          | spare j => rfl
          | lock j =>
            by_cases hj : j = k
            · subst hj
              simp [State.Waits, Phase.Pending, hasleep]
            · simp [State.Waits, hj]
        rw [hwaits]
        exact h.linked
      · cases x with
        | spare j => simp [State.Taken]
        | lock j =>
          by_cases hj : j = k
          · simp [State.Taken, hj]
          · simp [State.Taken, hj]
    · by_cases hjk : j = k
      · exact h.pending j (hjk ▸ Or.inl hasleep)
      · simp only [update_of_ne hjk] at hj
        exact h.pending j hj
    · by_cases hjk : j = k
      · exact hjk ▸ hasleep
      · simpa only [update_of_ne hjk] using hj
  | interrupt k =>
    simp only [step] at hstep
    split_ifs at hstep with hasleep
    obtain rfl := Option.some.inj hstep
    refine ⟨ids, h.congr ?_ rfl rfl rfl fun j hj => ?_, fun _ j hj hmark => ⟨?_, hmark⟩⟩
    · have hwaits : ({ s with phase := update s.phase k (.woken true) } : State).Waits =
          s.Waits := by
        funext x
        cases x with
        | spare j => rfl
        | lock j =>
          by_cases hj : j = k
          · subst hj
            simp [State.Waits, Phase.Pending, hasleep]
          · simp [State.Waits, hj]
      have htaken : ({ s with phase := update s.phase k (.woken true) } : State).Taken =
          s.Taken := by
        funext x
        cases x with
        | spare j => rfl
        | lock j =>
          by_cases hj : j = k
          · subst hj
            simp [State.Taken, hasleep]
          · simp [State.Taken, hj]
      rw [hwaits, htaken]
      exact h.linked
    · by_cases hjk : j = k
      · exact h.pending j (hjk ▸ Or.inl hasleep)
      · simp only [update_of_ne hjk] at hj
        exact h.pending j hj
    · by_cases hjk : j = k
      · exact hjk ▸ hasleep
      · simpa only [update_of_ne hjk] using hj
  | retry k =>
    simp only [step] at hstep
    split at hstep
    · next error hphase =>
      obtain ⟨s₁, ids', hretry, hinstalled, hunmarked⟩ := retry_installed h hphase
      obtain rfl : s₁ = s' := Option.some.inj (hretry.symm.trans hstep)
      exact ⟨ids', hinstalled, fun _ => hunmarked⟩
    · cases hstep
  | cleanup k =>
    simp only [step] at hstep
    split_ifs at hstep with hasleep
    obtain rfl := Option.some.inj hstep
    refine ⟨ids, cleanup_installed h hasleep, fun _ j hj hmark => ?_⟩
    have hjk := (pending_of_update (by simp [Phase.Pending]) (Or.inl hj)).1
    simp only [fdLockfCleanupHook, update_of_ne hjk] at hj hmark
    refine ⟨hj, ?_⟩
    cases hnext : s.node.next (.lock k) with
    | none => rwa [hnext] at hmark
    | some b => rwa [hnext] at hmark
  | abort =>
    obtain ⟨abort', habort, -, hinstalled⟩ := abort_installed h
    simp only [step] at hstep
    obtain rfl := Option.some.inj (habort.symm.trans hstep)
    exact ⟨[], hinstalled, fun hne => absurd rfl hne⟩

theorem fresh_installed : Installed fresh [] := by
  have hnever : ∀ x, ¬fresh.Waits x := by
    intro x hx
    cases x with
    | spare j => exact hx
    | lock j => simpa [fresh, Phase.Pending] using hx.1
  refine ⟨⟨rfl, List.nodup_nil, ⟨(fun _ hb => nomatch hb), fun r hr => absurd hr (hnever r),
    (fun _ hb => nomatch hb), fun r hr => absurd hr (hnever r), fun r hr => absurd hr (hnever r)⟩,
    fun _ hb => nomatch hb⟩, (fun _ hx => nomatch hx), List.Pairwise.nil, fun p b t => ?_,
    (fun p q b _ hp => nomatch hp), (fun _ hx => nomatch hx), fun j hj => ?_⟩
  · simp [fresh]
  · simp [fresh, Phase.Pending] at hj

end Invariant

end SylixOS.FdLockf
