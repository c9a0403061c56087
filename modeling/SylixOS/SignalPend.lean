import Mathlib.Data.Fintype.Card
import Mathlib.Data.List.FinRange
import SylixOS.ListLink
import SylixOS.SignalLib
import SylixOS.StepRuns

/-! The nodes of queued signals (`_K_sigpendBuffer`). A node is in the ring of
free nodes or in the ring of one signal of one thread, and moves between them in
place. -/

namespace SylixOS.SignalPend
open LinkedChain ListLink SignalLib StepRuns Function

variable {T : Type*} [DecidableEq T] {n : Nat}

/-- `LW_CLASS_SIGPEND` without its ring; a pool node holds a copy of what the sender filled. -/
structure PendNode where
  info : SigInfo
  times : Nat
  notify : SigNotify

structure PendCtx (n : Nat) where
  mask : SigSet
  pending : SigSet
  kill : SigSet
  action : Nat → SigAction
  sigQ : Nat → Option (Fin n)
  sigwait : Option SigSet

structure State (T : Type*) (n : Nat) where
  links : Links (Fin n)
  free : Option (Fin n)
  node : Fin n → PendNode
  ctx : T → PendCtx n
  live : T → Bool

def sigPendAlloc (s : State T n) : Option (Fin n × State T n) :=
  match s.free with
  | some a =>
    let del := listRingDel s.links a (some a)
    some (a, { s with links := del.1, free := del.2 })
  | none => none

def sigPendFree (s : State T n) (a : Fin n) : State T n :=
  let add := listRingAddLast s.links a s.free
  { s with links := add.1, free := add.2 }

def fromPool (node : PendNode) : Prop := node.info.code ≠ .kill ∧ node.notify = .signal

instance (node : PendNode) : Decidable (fromPool node) :=
  inferInstanceAs (Decidable (_ ∧ _))

def State.setCtx (s : State T n) (t : T) (ctx : PendCtx n) : State T n :=
  { s with ctx := update s.ctx t ctx }

def sigPendGet (s : State T n) (t : T) (sigset : SigSet) :
    Option (Nat × SigInfo) × State T n :=
  let ctx := s.ctx t
  let needRun := sigset &&& ctx.pending
  if needRun = 0#64 then (none, s)
  else
    let needRun := needRun &&& -needRun
    let signo := sigGetLsb needRun
    if needRun &&& ctx.kill ≠ 0#64 then
      (some (signo, ⟨signo, .kill, signo⟩), s.setCtx t { ctx with
        kill := ctx.kill &&& ~~~needRun, pending := ctx.pending &&& ~~~needRun })
    else
      match ctx.sigQ (sigindex signo) with
      | some a =>
        let node := s.node a
        let del := listRingDel s.links a (ctx.sigQ (sigindex signo))
        let s := if node.times = 0 then { s with links := del.1 } else
          { s with node := update s.node a { node with times := node.times - 1 } }
        let header := if node.times = 0 then del.2 else some a
        let s := if fromPool node then sigPendFree s a else s
        (some (signo, node.info), s.setCtx t { ctx with
          sigQ := update ctx.sigQ (sigindex signo) header
          pending := if header = none then ctx.pending &&& ~~~needRun else ctx.pending })
      | none => (none, s)

/-- The loop of `sigaction` and `__sigTaskDeleteHook` over the ring of one signal: `p` is the node
it stands at, and it ends when it is back at the header. `none` when it does not end within as many
rounds as there are nodes. -/
def freeRing (s : State T n) (head : Fin n) : Nat → Fin n → Option (State T n)
  | 0, _ => none
  | fuel + 1, p =>
    let next := s.links.next p
    let s := if fromPool (s.node p) then sigPendFree s p else s
    match next with
    | some q => if q = head then some s else freeRing s head fuel q
    | none => none

def blockSignal (s : State T n) (t : T) (sigpend : PendNode) : SendVal × State T n :=
  let ctx := s.ctx t
  let bit := sigmask sigpend.info.signo
  let index := sigindex sigpend.info.signo
  if sigpend.info.code = .kill then
    (.block, s.setCtx t { ctx with kill := ctx.kill ||| bit, pending := ctx.pending ||| bit })
  else if sigpend.notify = .signal then
    match sigPendAlloc s with
    | none => (.error, s)
    | some (a, s) =>
      let add := listRingAddLast s.links a (ctx.sigQ index)
      let s := { s with links := add.1, node := update s.node a sigpend }
      (.block, s.setCtx t { ctx with
        sigQ := update ctx.sigQ index add.2
        pending := ctx.pending ||| bit })
  else (.block, s)

def doSignal (s : State T n) (t : T) (sigpend : PendNode) : SendVal × State T n :=
  let ctx := s.ctx t
  let bit := sigmask sigpend.info.signo
  let act := ctx.action (sigindex sigpend.info.signo)
  if sigpend.notify = .none then (.ign, s)
  else if ctx.sigwait.any fun sigset => sigset &&& bit ≠ 0#64 then
    (.info, s.setCtx t { ctx with sigwait := none })
  else if act.handler = .sigErr ∨ act.handler = .sigIgn then (.ign, s)
  else if bit &&& ctx.mask ≠ 0#64 then blockSignal s t sigpend
  else (.ok, s.setCtx t { ctx with mask := act.extend sigpend.info.signo ctx.mask })

def doKill (s : State T n) (t : T) (signo : Nat) : SendVal × State T n :=
  doSignal s t ⟨⟨signo, .kill, 1⟩, 0, .signal⟩

def doSigQueue (s : State T n) (t : T) (signo : Nat) (value : Int) : SendVal × State T n :=
  doSignal s t ⟨⟨signo, .queue, value⟩, 0, .signal⟩

def PendCtx.setAction (ctx : PendCtx n) (index : Nat) (act : SigAction) : PendCtx n :=
  { ctx with action := update ctx.action index act }

/-- `sigaction` in the thread `t` in front of the queue; `peers` are the threads that
`vprocThreadSigaction` goes through. -/
def setAction (s : State T n) (t : T) (signo : Nat) (act : SigAction) (peers : T → Bool) :
    State T n :=
  let act := { act with mask := act.mask &&& ~~~signoUnmask }
  let ctx := fun u =>
    if u = t ∨ peers u then (s.ctx u).setAction (sigindex signo) act else s.ctx u
  let s := { s with ctx := ctx }
  if act.handler = .sigIgn then
    let ctx := s.ctx t
    s.setCtx t { ctx with
      pending := ctx.pending &&& ~~~sigmask signo
      kill := ctx.kill &&& ~~~sigmask signo }
  else s

def sigaction (s : State T n) (t : T) (signo : Nat) (act : SigAction) (peers : T → Bool) :
    Option (State T n) :=
  let s := setAction s t signo act peers
  if act.handler = .sigIgn then
    match (s.ctx t).sigQ (sigindex signo) with
    | some head => freeRing s head n head
    | none => some s
  else some s

def deleteQueue (s : State T n) (t : T) (index : Nat) : Option (State T n) :=
  match (s.ctx t).sigQ index with
  | some head =>
    (freeRing s head n head).map fun s =>
      let ctx := s.ctx t
      s.setCtx t { ctx with sigQ := update ctx.sigQ index none }
  | none => some s

def sigTaskDeleteHook (s : State T n) (t : T) : Option (State T n) :=
  (List.range 63).foldlM (fun s index => deleteQueue s t index) s

def sigTaskCreateHook (s : State T n) (t : T) (mask : SigSet) (action : Nat → SigAction) :
    State T n :=
  s.setCtx t ⟨mask, 0#64, 0#64, action, fun _ => none, none⟩

def signalInit (T : Type*) {n : Nat} (node : Fin n → PendNode) : State T n :=
  let ctx := ⟨0#64, 0#64, 0#64, fun _ => ⟨.sigDfl, 0#64, false, false⟩, fun _ => none, none⟩
  (List.finRange n).foldl sigPendFree
    ⟨⟨fun _ => none, fun _ => none⟩, none, node, fun _ => ctx, fun _ => false⟩

inductive Act (T : Type*) where
  | create (t : T) (mask : SigSet) (action : Nat → SigAction)
  | kill (t : T) (signo : Nat)
  | sigqueue (t : T) (signo : Nat) (value : Int)
  | setMask (t : T) (mask : SigSet)
  | pendGet (t : T) (sigset : SigSet)
  | wait (t : T) (sigwait : Option SigSet)
  | sigaction (t : T) (signo : Nat) (act : SigAction) (peers : T → Bool)
  | delete (t : T)

def step (s : State T n) (a : Act T) : Option (State T n) :=
  match a with
  | .create t mask action =>
    if s.live t then none
    else some { sigTaskCreateHook s t mask action with live := update s.live t true }
  | .kill t signo => if s.live t && issig signo then some (doKill s t signo).2 else none
  | .sigqueue t signo value =>
    if s.live t && issig signo then some (doSigQueue s t signo value).2 else none
  | .setMask t mask => if s.live t then some (s.setCtx t { s.ctx t with mask := mask }) else none
  | .pendGet t sigset => if s.live t then some (sigPendGet s t sigset).2 else none
  | .wait t sigwait =>
    if s.live t then some (s.setCtx t { s.ctx t with sigwait := sigwait }) else none
  | .sigaction t signo act peers =>
    if s.live t && issig signo then sigaction s t signo act peers else none
  | .delete t =>
    if s.live t then
      (sigTaskDeleteHook s t).map fun s => { s with live := update s.live t false }
    else none

abbrev Key (T : Type*) := Option (T × Nat)

def State.header (s : State T n) : Key T → Option (Fin n)
  | none => s.free
  | some (t, i) => (s.ctx t).sigQ i

/-- Every node is in exactly one ring, and a queued one in the queue of its own signal in a live
thread. The headers belong to these rings, so one that is not null points to a node queued
there. -/
structure Places (s : State T n) (ring : Key T → List (Fin n)) : Prop where
  family : RingFamily s.links s.header ring
  total : ∀ a, ∃ k, a ∈ ring k
  own : ∀ t i a, a ∈ ring (some (t, i)) →
    s.live t = true ∧ issig (s.node a).info.signo ∧ sigindex (s.node a).info.signo = i

def Conserved (s : State T n) : Prop := ∃ ring, Places s ring

structure Filed (s : State T n) (ring : Key T → List (Fin n)) : Prop extends Places s ring where
  pool : ∀ t i a, a ∈ ring (some (t, i)) → fromPool (s.node a) ∧ (s.node a).times = 0

omit [DecidableEq T] in
theorem Filed.congr {s s' : State T n} {ring : Key T → List (Fin n)} (h : Filed s ring)
    (hlinks : s'.links = s.links) (hheader : s'.header = s.header) (hnode : s'.node = s.node)
    (hlive : s'.live = s.live) : Filed s' ring := by
  refine ⟨⟨?_, h.total, ?_⟩, ?_⟩
  · rw [hlinks, hheader]
    exact h.family
  · rw [hlive, hnode]
    exact h.own
  · rw [hnode]
    exact h.pool

theorem header_setCtx (s : State T n) (t : T) {ctx : PendCtx n} (h : ctx.sigQ = (s.ctx t).sigQ) :
    (s.setCtx t ctx).header = s.header := by
  funext k
  cases k with
  | none => rfl
  | some k =>
    obtain ⟨u, i⟩ := k
    by_cases hu : u = t
    · simp [State.header, State.setCtx, hu, h]
    · simp [State.header, State.setCtx, hu]

theorem Filed.setCtx {s : State T n} {ring : Key T → List (Fin n)} (h : Filed s ring) (t : T)
    {ctx : PendCtx n} (hq : ctx.sigQ = (s.ctx t).sigQ) : Filed (s.setCtx t ctx) ring :=
  h.congr rfl (header_setCtx s t hq) rfl rfl

theorem header_update {s s' : State T n} {t : T} {i : Nat} (head : Option (Fin n))
    (hq : ∀ u, (s'.ctx u).sigQ =
      if u = t then update (s.ctx t).sigQ i head else (s.ctx u).sigQ) :
    s'.header = update (update s.header (some (t, i)) head) none s'.free := by
  funext k
  cases k with
  | none => simp [State.header]
  | some k =>
    obtain ⟨u, j⟩ := k
    rw [update_of_ne (by simp)]
    by_cases hu : u = t
    · by_cases hj : j = i
      · simp [State.header, hq, hu, hj]
      · have hne : some (u, j) ≠ some (t, i) := by simp [hj]
        rw [update_of_ne hne]
        simp [State.header, hq, hu, hj]
    · have hne : some (u, j) ≠ some (t, i) := by simp [hu]
      rw [update_of_ne hne]
      simp [State.header, hq, hu]

theorem Filed.move {s s' : State T n} {ring : Key T → List (Fin n)} (h : Filed s ring)
    {k : Key T} (k' : Key T) {a : Fin n} (mem : a ∈ ring k) (apart : k ≠ k')
    (hlinks : s'.links =
      (listRingAddLast (listRingDel s.links a (s.header k)).1 a (s.header k')).1)
    (hheader : s'.header =
      update (update s.header k (listRingDel s.links a (s.header k)).2) k'
        (listRingAddLast (listRingDel s.links a (s.header k)).1 a (s.header k')).2)
    (hlive : s'.live = s.live) (hother : ∀ b, b ≠ a → s'.node b = s.node b)
    (hqueued : ∀ t i, k' = some (t, i) → s.live t = true ∧ issig (s'.node a).info.signo ∧
      sigindex (s'.node a).info.signo = i ∧ fromPool (s'.node a) ∧ (s'.node a).times = 0) :
    Filed s' (update (update ring k ((ring k).erase a)) k' (ring k' ++ [a])) := by
  have hmem := RingFamily.mem_moved h.family mem apart
  refine ⟨⟨?_, ?_, ?_⟩, ?_⟩
  · rw [hlinks, hheader]
    exact RingFamily.move h.family mem apart
  · intro b
    by_cases hb : b = a
    · exact ⟨k', (hmem b k').mpr (Or.inl ⟨hb, rfl⟩)⟩
    · obtain ⟨k₁, hk₁⟩ := h.total b
      exact ⟨k₁, (hmem b k₁).mpr (Or.inr ⟨hb, hk₁⟩)⟩
  · intro t i b hb
    rw [hlive]
    rcases (hmem b _).mp hb with ⟨rfl, hk⟩ | ⟨hne, hin⟩
    · obtain ⟨hl, hs, hi, -⟩ := hqueued t i hk.symm
      exact ⟨hl, hs, hi⟩
    · rw [hother b hne]
      exact h.own t i b hin
  · intro t i b hb
    rcases (hmem b _).mp hb with ⟨rfl, hk⟩ | ⟨hne, hin⟩
    · obtain ⟨-, -, -, hp⟩ := hqueued t i hk.symm
      exact hp
    · rw [hother b hne]
      exact h.pool t i b hin

omit [DecidableEq T] in
theorem Places.head_mem {s : State T n} {ring : Key T → List (Fin n)} (h : Places s ring)
    {k : Key T} {a : Fin n} (hhead : s.header k = some a) : a ∈ ring k := by
  have hring := (h.family.isRing k).header_eq
  rw [hhead] at hring
  exact List.mem_of_mem_head? hring.symm

def queues (s : State T n) (ring : Key T → List (Fin n)) (t : T) (wait : Option Nat) : SigCtx where
  mask := (s.ctx t).mask
  pending := (s.ctx t).pending
  kill := (s.ctx t).kill
  action := (s.ctx t).action
  sigQ := fun i => (ring (some (t, i))).map fun a => (s.node a).info
  sigwait := wait

theorem queues_taken {ring : Key T → List (Fin n)} {t : T} {i : Nat} {a : Fin n}
    {rest : List (Fin n)} (hlist : ring (some (t, i)) = a :: rest) (f : Fin n → SigInfo) :
    (fun j => (update ring (some (t, i)) ((ring (some (t, i))).erase a)
        (some (t, j))).map f) =
      update (fun j => (ring (some (t, j))).map f) i (rest.map f) := by
  funext j
  rw [hlist, List.erase_cons_head]
  by_cases hj : j = i
  · rw [hj, update_self, update_self]
  · have hne : some (t, j) ≠ some (t, i) := by simp [hj]
    rw [update_of_ne hne, update_of_ne hj]

theorem Filed.sigPendGet {s : State T n} {ring : Key T → List (Fin n)} (h : Filed s ring) (t : T)
    (sigset : SigSet) (wait : Option Nat) :
    ∃ ring', Filed (SignalPend.sigPendGet s t sigset).2 ring' ∧
      SignalLib.sigPendGet (queues s ring t wait) sigset =
        ((SignalPend.sigPendGet s t sigset).1,
          queues (SignalPend.sigPendGet s t sigset).2 ring' t wait) := by
  unfold SignalPend.sigPendGet SignalLib.sigPendGet
  have hmask : (queues s ring t wait).pending = (s.ctx t).pending := rfl
  have hkill : (queues s ring t wait).kill = (s.ctx t).kill := rfl
  dsimp only
  rw [hmask, hkill]
  split
  · exact ⟨ring, h, rfl⟩
  · split
    · refine ⟨ring, h.setCtx t rfl, ?_⟩
      simp [queues, State.setCtx]
    · generalize hi : sigindex (sigGetLsb (sigset &&& (s.ctx t).pending &&&
        -(sigset &&& (s.ctx t).pending))) = i
      have hring := h.family.isRing (some (t, i))
      split
      · next a hhead =>
        have hmem : a ∈ ring (some (t, i)) := h.head_mem hhead
        obtain ⟨hpool, htimes⟩ := h.pool t i a hmem
        obtain ⟨rest, hlist⟩ : ∃ rest, ring (some (t, i)) = a :: rest := by
          have hq : some a = (ring (some (t, i))).head? := hhead.symm.trans hring.header_eq
          exact ⟨_, (List.cons_head?_tail hq.symm).symm⟩
        rw [if_pos htimes, if_pos htimes, if_pos hpool]
        obtain ⟨hcut, -⟩ := listRingDel_spec hring hmem
        refine ⟨_, h.move none hmem (by simp) rfl ?_ rfl (fun b _ => rfl) ?_, ?_⟩
        · apply header_update _
          intro u
          by_cases hu : u = t <;> simp [State.setCtx, State.header, sigPendFree, hu, hhead]
        · exact fun u j hk => absurd hk (by simp)
        · have hempty : (listRingDel s.links a ((s.ctx t).sigQ i)).2 = none ↔
              rest.map (fun a => (s.node a).info) = [] := by
            have hheader := hcut.header_eq
            rw [hlist, List.erase_cons_head] at hheader
            rw [List.map_eq_nil_iff, ← List.head?_eq_none_iff, ← hheader]
            rfl
          have htaken := queues_taken hlist fun a => (s.node a).info
          have hq : (queues s ring t wait).sigQ i =
              (s.node a).info :: (rest.map fun a => (s.node a).info) := by
            show (ring (some (t, i))).map _ = _
            rw [hlist]
            rfl
          rw [hq]
          simp [queues, State.setCtx, sigPendFree, hempty, htaken]
      · next hhead =>
        have hq : none = (ring (some (t, i))).head? := hhead.symm.trans hring.header_eq
        have hnil := List.head?_eq_none_iff.mp hq.symm
        refine ⟨ring, h, ?_⟩
        simp [queues, hnil]

theorem Filed.blockSignal {s : State T n} {ring : Key T → List (Fin n)} (h : Filed s ring) (t : T)
    (hlive : s.live t = true) {sigpend : PendNode} (hsig : issig sigpend.info.signo)
    (htimes : sigpend.times = 0) :
    ∃ ring', Filed (SignalPend.blockSignal s t sigpend).2 ring' := by
  unfold SignalPend.blockSignal
  dsimp only
  split
  · exact ⟨ring, h.setCtx t rfl⟩
  · next hcode =>
    split
    · next hnotify =>
      unfold sigPendAlloc
      cases hfree : s.free with
      | none => exact ⟨ring, h⟩
      | some a =>
        dsimp only
        have hmem : a ∈ ring none := h.head_mem (k := none) hfree
        refine ⟨_, h.move (some (t, sigindex sigpend.info.signo)) hmem (by simp) ?_ ?_ rfl ?_
          ?_⟩
        · simp [State.setCtx, State.header, hfree]
        · rw [update_comm (by simp)]
          rw [header_update (s := s) (t := t) (i := sigindex sigpend.info.signo)
            (listRingAddLast (listRingDel s.links a (some a)).1 a
              ((s.ctx t).sigQ (sigindex sigpend.info.signo))).2]
          · simp [State.setCtx, State.header, hfree]
          · intro u
            by_cases hu : u = t <;> simp [State.setCtx, hu]
        · intro b hb
          simp [State.setCtx, hb]
        · intro u i hk
          simp only [Option.some.injEq, Prod.mk.injEq] at hk
          obtain ⟨rfl, rfl⟩ := hk
          simp [State.setCtx, hlive, hsig, fromPool, hcode, hnotify, htimes]
    · exact ⟨ring, h⟩

theorem Filed.doSignal {s : State T n} {ring : Key T → List (Fin n)} (h : Filed s ring) (t : T)
    (hlive : s.live t = true) {sigpend : PendNode} (hsig : issig sigpend.info.signo)
    (htimes : sigpend.times = 0) : ∃ ring', Filed (SignalPend.doSignal s t sigpend).2 ring' := by
  unfold SignalPend.doSignal
  dsimp only
  split
  · exact ⟨ring, h⟩
  · split
    · exact ⟨ring, h.setCtx t rfl⟩
    · split
      · exact ⟨ring, h⟩
      · split
        · exact h.blockSignal t hlive hsig htimes
        · exact ⟨ring, h.setCtx t rfl⟩

theorem Filed.create {s : State T n} {ring : Key T → List (Fin n)} (h : Filed s ring) (t : T)
    (hdead : s.live t = false) (mask : SigSet) (action : Nat → SigAction) :
    Filed { sigTaskCreateHook s t mask action with live := update s.live t true } ring := by
  have hempty : ∀ i, (s.ctx t).sigQ i = none := by
    intro i
    cases hq : (s.ctx t).sigQ i with
    | none => rfl
    | some a =>
      have hmem := h.head_mem (k := some (t, i)) hq
      rw [(h.own t i a hmem).1] at hdead
      exact absurd hdead (by decide)
  have hctx : Filed (sigTaskCreateHook s t mask action) ring :=
    h.setCtx t (funext fun i => (hempty i).symm)
  refine ⟨⟨hctx.family, hctx.total, ?_⟩, hctx.pool⟩
  intro u i a ha
  obtain ⟨hl, hs⟩ := hctx.own u i a ha
  refine ⟨?_, hs⟩
  by_cases hu : u = t
  · rw [hu]
    exact update_self t true s.live
  · show update s.live t true u = true
    rw [update_of_ne hu]
    exact hl

structure Walk (s : State T n) (head : Fin n) (old : List (Fin n)) (p : Fin n)
    (todo : List (Fin n)) : Prop where
  free : IsRing s.links s.free old
  path : IsPath s.links.next (some p) (p :: todo) (some head)
  nodup : (old ++ p :: todo).Nodup
  headNot : head ∉ todo
  pool : ∀ a ∈ p :: todo, fromPool (s.node a)

omit [DecidableEq T] in
theorem Walk.round {s : State T n} {head p : Fin n} {old todo : List (Fin n)}
    (w : Walk s head old p todo) :
    IsRing (sigPendFree s p).links (sigPendFree s p).free (old ++ [p]) ∧
      ∀ x, x ∉ old ++ [p] → (sigPendFree s p).links.next x = s.links.next x ∧
        (sigPendFree s p).links.prev x = s.links.prev x := by
  apply listRingAddLast_spec w.free
  exact fun hin => (List.nodup_append.mp w.nodup).2.2 p hin p (by simp) rfl

omit [DecidableEq T] in
theorem Walk.next {s : State T n} {head p q : Fin n} {old todo : List (Fin n)}
    (w : Walk s head old p (q :: todo)) : Walk (sigPendFree s p) head (old ++ [p]) q todo := by
  obtain ⟨hring, hframe⟩ := w.round
  have hnodup : ((old ++ [p]) ++ q :: todo).Nodup := by simpa using w.nodup
  refine ⟨hring, ?_, hnodup, ?_, ?_⟩
  · have hpath : IsPath s.links.next (some q) (q :: todo) (some head) := by
      obtain ⟨-, hnext, hrest⟩ := w.path
      exact ⟨rfl, hrest⟩
    apply hpath.congr
    intro x hx
    refine (hframe x fun hin => ?_).1
    exact (List.nodup_append.mp hnodup).2.2 x hin x hx rfl
  · exact fun hin => w.headNot (List.mem_cons_of_mem q hin)
  · exact fun a ha => w.pool a (List.mem_cons_of_mem p ha)

omit [DecidableEq T] in
theorem Walk.freeRing {head : Fin n} {todo : List (Fin n)} {fuel : Nat}
    (enough : todo.length < fuel) {s : State T n} {old : List (Fin n)} {p : Fin n}
    (w : Walk s head old p todo) :
    ∃ L f, SignalPend.freeRing s head fuel p = some { s with links := L, free := f } ∧
      IsRing L f (old ++ p :: todo) ∧
      ∀ x, x ∉ old ++ p :: todo → L.next x = s.links.next x ∧ L.prev x = s.links.prev x := by
  induction todo generalizing fuel s old p with
  | nil =>
    obtain ⟨fuel, rfl⟩ : ∃ m, fuel = m + 1 := ⟨fuel - 1, by omega⟩
    obtain ⟨hring, hframe⟩ := w.round
    have hnext : s.links.next p = some head := w.path.2
    refine ⟨_, _, ?_, hring, hframe⟩
    simp only [SignalPend.freeRing, if_pos (w.pool p (by simp)), hnext, if_true]
    rfl
  | cons q todo ih =>
    obtain ⟨fuel, rfl⟩ : ∃ m, fuel = m + 1 := ⟨fuel - 1, by omega⟩
    have hlt : todo.length < fuel := by simpa using enough
    obtain ⟨-, hframe⟩ := w.round
    obtain ⟨L, f, hrun, hring, hrest⟩ := ih hlt w.next
    have hnext : s.links.next p = some q := w.path.2.1
    have hne : q ≠ head := fun e => w.headNot (by simp [e])
    refine ⟨L, f, ?_, ?_, ?_⟩
    · simp only [SignalPend.freeRing, if_pos (w.pool p (by simp)), hnext, if_neg hne]
      exact hrun
    · simpa using hring
    · intro x hx
      obtain ⟨hn, hp⟩ := hrest x (by simpa using hx)
      obtain ⟨hn', hp'⟩ := hframe x (by
        intro hin
        apply hx
        rcases List.mem_append.mp hin with hin | hin
        · exact List.mem_append_left _ hin
        · simp_all)
      exact ⟨hn.trans hn', hp.trans hp'⟩

omit [DecidableEq T] in
theorem ring_path {L : Links (Fin n)} {head : Fin n} {t : List (Fin n)}
    (ring : IsRing L (some head) (head :: t)) :
    IsPath L.next (some head) (head :: t) (some head) := by
  have walk : ∀ (l : List (Fin n)) (p : Option (Fin n)), Linked L p l (some head) →
      IsPath L.next (l.head?.or (some head)) l (some head) := by
    intro l
    induction l with
    | nil => exact fun p _ => rfl
    | cons a l ih => exact fun p linked => ⟨rfl, linked.2.1 ▸ ih _ linked.2.2⟩
  exact walk _ _ ring.linked

omit [DecidableEq T] in
theorem Filed.freeRing {s : State T n} {ring : Key T → List (Fin n)} (h : Filed s ring) {t : T}
    {i : Nat} {head : Fin n} (hhead : (s.ctx t).sigQ i = some head) :
    ∃ L f, SignalPend.freeRing s head n head = some { s with links := L, free := f } ∧
      IsRing L f (ring none ++ ring (some (t, i))) ∧
      ∀ x, x ∉ ring none ++ ring (some (t, i)) →
        L.next x = s.links.next x ∧ L.prev x = s.links.prev x := by
  have hfree := h.family.isRing none
  have hring := h.family.isRing (some (t, i))
  have hlist : ∃ todo, ring (some (t, i)) = head :: todo := by
    have hq : some head = (ring (some (t, i))).head? := hhead.symm.trans hring.header_eq
    exact ⟨_, (List.cons_head?_tail hq.symm).symm⟩
  obtain ⟨todo, htodo⟩ := hlist
  have hnodup := hring.nodup
  rw [htodo] at hnodup ⊢
  have hw : Walk s head (ring none) head todo := by
    refine ⟨hfree, ?_, ?_, (List.nodup_cons.mp hnodup).1, ?_⟩
    · apply ring_path
      rw [← htodo]
      exact hhead ▸ hring
    · refine List.nodup_append.mpr ⟨hfree.nodup, hnodup, ?_⟩
      rintro a ha b hb rfl
      rw [← htodo] at hb
      exact absurd (h.family.disjoint ha hb) (by simp)
    · intro a ha
      rw [← htodo] at ha
      exact (h.pool t i a ha).1
  apply hw.freeRing
  have hcard := hnodup.length_le_card
  rw [List.length_cons, Fintype.card_fin] at hcard
  omega

def emptied (ring : Key T → List (Fin n)) (t : T) (i : Nat) : Key T → List (Fin n) :=
  update (update ring (some (t, i)) []) none (ring none ++ ring (some (t, i)))

theorem mem_emptied {ring : Key T → List (Fin n)} {t : T} {i : Nat} {b : Fin n} {k : Key T} :
    b ∈ emptied ring t i k ↔
      (k = none ∧ (b ∈ ring none ∨ b ∈ ring (some (t, i)))) ∨
        (k ≠ none ∧ k ≠ some (t, i) ∧ b ∈ ring k) := by
  unfold emptied
  by_cases hk : k = none
  · rw [hk, update_self]
    simp
  · rw [update_of_ne hk]
    by_cases hkt : k = some (t, i)
    · rw [hkt, update_self]
      simp
    · rw [update_of_ne hkt]
      simp [hk, hkt]

theorem Filed.deleteQueue {s : State T n} {ring : Key T → List (Fin n)} (h : Filed s ring) (t : T)
    (i : Nat) : ∃ s' ring', SignalPend.deleteQueue s t i = some s' ∧ Filed s' ring' ∧
      s'.live = s.live ∧ ring' (some (t, i)) = [] ∧
      ∀ j, ring (some (t, j)) = [] → ring' (some (t, j)) = [] := by
  unfold SignalPend.deleteQueue
  cases hhead : (s.ctx t).sigQ i with
  | none =>
    refine ⟨s, ring, rfl, h, rfl, ?_, fun j hj => hj⟩
    have hq : none = (ring (some (t, i))).head? :=
      hhead.symm.trans (h.family.isRing (some (t, i))).header_eq
    exact List.head?_eq_none_iff.mp hq.symm
  | some head =>
    obtain ⟨L, f, hrun, hring, hframe⟩ := h.freeRing hhead
    simp only [hrun, Option.map_some, Option.some.injEq, exists_and_left, exists_eq_left']
    have hcleared : emptied ring t i (some (t, i)) = [] := by
      apply List.eq_nil_iff_forall_not_mem.mpr
      intro b hb
      simp [mem_emptied] at hb
    have hcut : RingFamily L (update (update s.header (some (t, i)) none) none f)
        (emptied ring t i) := by
      refine ⟨?_, ?_⟩
      · intro k
        by_cases hk : k = none
        · rw [hk, update_self, emptied, update_self]
          exact hring
        · rw [update_of_ne hk]
          by_cases hkt : k = some (t, i)
          · rw [hkt, update_self, hcleared]
            exact ⟨rfl, List.nodup_nil, trivial⟩
          · rw [update_of_ne hkt, emptied, update_of_ne hk,
              update_of_ne hkt]
            apply (h.family.isRing k).congr
            intro x hx
            apply hframe x
            intro hin
            rcases List.mem_append.mp hin with hin | hin
            · exact hk (h.family.disjoint hx hin)
            · exact hkt (h.family.disjoint hx hin)
      · intro k k' a ha ha'
        rcases mem_emptied.mp ha with ⟨rfl, hin⟩ | ⟨hk, hkt, hin⟩
        · rcases mem_emptied.mp ha' with ⟨rfl, -⟩ | ⟨hk', hkt', hin'⟩
          · rfl
          · rcases hin with hin | hin
            · exact absurd (h.family.disjoint hin' hin) hk'
            · exact absurd (h.family.disjoint hin' hin) hkt'
        · rcases mem_emptied.mp ha' with ⟨rfl, hin'⟩ | ⟨hk', hkt', hin'⟩
          · rcases hin' with hin' | hin'
            · exact absurd (h.family.disjoint hin hin') hk
            · exact absurd (h.family.disjoint hin hin') hkt
          · exact h.family.disjoint hin hin'
    refine ⟨emptied ring t i, ⟨⟨?_, ?_, ?_⟩, ?_⟩, rfl, hcleared, ?_⟩
    · have hheader : (State.setCtx { s with links := L, free := f } t
          { s.ctx t with sigQ := update (s.ctx t).sigQ i none }).header =
          update (update s.header (some (t, i)) none) none f := by
        apply header_update _
        intro u
        by_cases hu : u = t <;> simp [State.setCtx, hu]
      rw [hheader]
      exact hcut
    · intro b
      obtain ⟨k, hk⟩ := h.total b
      by_cases hkn : k = none
      · exact ⟨none, mem_emptied.mpr (Or.inl ⟨rfl, Or.inl (hkn ▸ hk)⟩)⟩
      · by_cases hkt : k = some (t, i)
        · exact ⟨none, mem_emptied.mpr (Or.inl ⟨rfl, Or.inr (hkt ▸ hk)⟩)⟩
        · exact ⟨k, mem_emptied.mpr (Or.inr ⟨hkn, hkt, hk⟩)⟩
    · intro u j b hb
      rcases mem_emptied.mp hb with ⟨hk, -⟩ | ⟨-, -, hin⟩
      · exact absurd hk (by simp)
      · exact h.own u j b hin
    · intro u j b hb
      rcases mem_emptied.mp hb with ⟨hk, -⟩ | ⟨-, -, hin⟩
      · exact absurd hk (by simp)
      · exact h.pool u j b hin
    · intro j hj
      apply List.eq_nil_iff_forall_not_mem.mpr
      intro b hb
      rcases mem_emptied.mp hb with ⟨hk, -⟩ | ⟨-, -, hin⟩
      · exact absurd hk (by simp)
      · simp [hj] at hin

theorem Filed.deleteQueues {s : State T n} {ring : Key T → List (Fin n)} (h : Filed s ring) (t : T)
    (is : List Nat) : ∃ s' ring',
      is.foldlM (fun s i => SignalPend.deleteQueue s t i) s = some s' ∧ Filed s' ring' ∧
      s'.live = s.live ∧ (∀ i ∈ is, ring' (some (t, i)) = []) ∧
      ∀ j, ring (some (t, j)) = [] → ring' (some (t, j)) = [] := by
  induction is generalizing s ring with
  | nil => exact ⟨s, ring, rfl, h, rfl, by simp, fun j hj => hj⟩
  | cons i is ih =>
    obtain ⟨m, ring₁, hm, h₁, hlive₁, hi, hkeep₁⟩ := h.deleteQueue t i
    obtain ⟨s', ring', hrun, h', hlive', his, hkeep'⟩ := ih h₁
    refine ⟨s', ring', ?_, h', hlive'.trans hlive₁, ?_, fun j hj => hkeep' j (hkeep₁ j hj)⟩
    · rw [List.foldlM_cons, hm]
      exact hrun
    · intro j hj
      rcases List.mem_cons.mp hj with rfl | hj
      · exact hkeep' j hi
      · exact his j hj

theorem Filed.delete {s s' : State T n} {ring : Key T → List (Fin n)} (h : Filed s ring) (t : T)
    (hdel : sigTaskDeleteHook s t = some s') :
    ∃ ring', Filed { s' with live := update s'.live t false } ring' := by
  obtain ⟨m, ring', hrun, h', -, hall, -⟩ := h.deleteQueues t (List.range 63)
  obtain rfl : m = s' := Option.some.inj (hrun.symm.trans hdel)
  refine ⟨ring', ⟨⟨h'.family, h'.total, ?_⟩, h'.pool⟩⟩
  intro u i a ha
  obtain ⟨hl, hs, hi⟩ := h'.own u i a ha
  refine ⟨?_, hs, hi⟩
  have hu : u ≠ t := by
    rintro rfl
    have hlt : i < 63 := by
      have hbound := hs.2
      have hlow := hs.1
      unfold sigindex at hi
      omega
    rw [hall i (List.mem_range.mpr hlt)] at ha
    simp at ha
  show update m.live t false u = true
  rw [update_of_ne hu]
  exact hl

/-- `sigaction` finds no queue behind the signal that it sets to `SIG_IGN`. -/
def NoQueueIgnored (s : State T n) (a : Act T) : Prop :=
  match a with
  | .sigaction t signo act _ => act.handler = .sigIgn → (s.ctx t).sigQ (sigindex signo) = none
  | _ => True

theorem setAction_sigQ (s : State T n) (t : T) (signo : Nat) (act : SigAction) (peers : T → Bool)
    (u : T) : ((setAction s t signo act peers).ctx u).sigQ = (s.ctx u).sigQ := by
  unfold setAction
  dsimp only
  by_cases hu : u = t <;> by_cases hp : peers u = true <;> split <;>
    simp [State.setCtx, PendCtx.setAction, hu, hp]

theorem setAction_rest (s : State T n) (t : T) (signo : Nat) (act : SigAction) (peers : T → Bool) :
    (setAction s t signo act peers).links = s.links ∧
      (setAction s t signo act peers).free = s.free ∧
      (setAction s t signo act peers).node = s.node ∧
      (setAction s t signo act peers).live = s.live := by
  unfold setAction
  dsimp only
  split <;> exact ⟨rfl, rfl, rfl, rfl⟩

theorem Filed.setAction {s : State T n} {ring : Key T → List (Fin n)} (h : Filed s ring) (t : T)
    (signo : Nat) (act : SigAction) (peers : T → Bool) :
    Filed (SignalPend.setAction s t signo act peers) ring := by
  obtain ⟨hlinks, hfree, hnode, hlive⟩ := setAction_rest s t signo act peers
  apply h.congr hlinks ?_ hnode hlive
  funext k
  cases k with
  | none => exact hfree
  | some k => exact congrFun (setAction_sigQ s t signo act peers k.1) k.2

omit [DecidableEq T] in
theorem foldl_sigPendFree (l : List (Fin n)) (old : List (Fin n)) (s : State T n)
    (nodup : (old ++ l).Nodup) (ring : IsRing s.links s.free old) :
    IsRing (l.foldl sigPendFree s).links (l.foldl sigPendFree s).free (old ++ l) ∧
      (l.foldl sigPendFree s).ctx = s.ctx := by
  induction l generalizing old s with
  | nil =>
    rw [List.append_nil]
    exact ⟨ring, rfl⟩
  | cons a l ih =>
    have hfresh : a ∉ old := fun hin => (List.nodup_append.mp nodup).2.2 a hin a (by simp) rfl
    obtain ⟨hadd, -⟩ := listRingAddLast_spec ring hfresh
    have hnodup : ((old ++ [a]) ++ l).Nodup := by simpa using nodup
    have hrest := ih (old ++ [a]) (sigPendFree s a) hnodup hadd
    rw [List.append_assoc, List.singleton_append] at hrest
    exact hrest

omit [DecidableEq T] in
theorem filed_signalInit (node : Fin n → PendNode) :
    Filed (signalInit T node) fun k => if k = none then List.finRange n else [] := by
  have hempty : IsRing (α := Fin n) ⟨fun _ => none, fun _ => none⟩ none [] :=
    ⟨rfl, List.nodup_nil, trivial⟩
  obtain ⟨hring, hctx⟩ := foldl_sigPendFree (T := T) (List.finRange n) []
    ⟨⟨fun _ => none, fun _ => none⟩, none, node, _, fun _ => false⟩
    (by simpa using List.nodup_finRange n) hempty
  have hqueue : ∀ t i, ((signalInit T node).ctx t).sigQ i = none := by
    intro t i
    unfold signalInit
    rw [hctx]
  refine ⟨⟨⟨?_, ?_⟩, ?_, ?_⟩, ?_⟩
  · intro k
    cases k with
    | none => exact hring
    | some k =>
      have hnone : (signalInit T node).header (some k) = none := hqueue k.1 k.2
      rw [hnone]
      exact ⟨rfl, List.nodup_nil, trivial⟩
  · intro k k' a ha ha'
    by_cases hk : k = none
    · by_cases hk' : k' = none
      · rw [hk, hk']
      · simp [hk'] at ha'
    · simp [hk] at ha
  · exact fun a => ⟨none, by simp⟩
  · exact fun t i a ha => absurd ha (by simp)
  · exact fun t i a ha => absurd ha (by simp)

theorem Filed.step {s s' : State T n} {ring : Key T → List (Fin n)} (h : Filed s ring) {a : Act T}
    (hc : NoQueueIgnored s a) (hstep : SignalPend.step s a = some s') :
    ∃ ring', Filed s' ring' := by
  cases a with
  | create t mask action =>
    cases hlive : s.live t with
    | true => simp [SignalPend.step, hlive] at hstep
    | false =>
      simp only [SignalPend.step, hlive, Bool.false_eq_true, if_false, Option.some.injEq] at hstep
      rw [← hstep]
      exact ⟨ring, h.create t hlive mask action⟩
  | kill t signo =>
    simp only [SignalPend.step, Option.ite_none_right_eq_some, Option.some.injEq, Bool.and_eq_true,
      decide_eq_true_eq] at hstep
    obtain ⟨⟨hlive, hsig⟩, rfl⟩ := hstep
    exact h.doSignal t hlive hsig rfl
  | sigqueue t signo value =>
    simp only [SignalPend.step, Option.ite_none_right_eq_some, Option.some.injEq, Bool.and_eq_true,
      decide_eq_true_eq] at hstep
    obtain ⟨⟨hlive, hsig⟩, rfl⟩ := hstep
    exact h.doSignal t hlive hsig rfl
  | setMask t mask =>
    simp only [SignalPend.step, Option.ite_none_right_eq_some, Option.some.injEq] at hstep
    obtain ⟨-, rfl⟩ := hstep
    exact ⟨ring, h.setCtx t rfl⟩
  | pendGet t sigset =>
    simp only [SignalPend.step, Option.ite_none_right_eq_some, Option.some.injEq] at hstep
    obtain ⟨-, rfl⟩ := hstep
    obtain ⟨ring', hfiled, -⟩ := h.sigPendGet t sigset none
    exact ⟨ring', hfiled⟩
  | wait t sigwait =>
    simp only [SignalPend.step, Option.ite_none_right_eq_some, Option.some.injEq] at hstep
    obtain ⟨-, rfl⟩ := hstep
    exact ⟨ring, h.setCtx t rfl⟩
  | sigaction t signo act peers =>
    simp only [SignalPend.step, Option.ite_none_right_eq_some] at hstep
    obtain ⟨-, hstep⟩ := hstep
    unfold sigaction at hstep
    dsimp only at hstep
    rw [setAction_sigQ] at hstep
    have hset := h.setAction t signo act peers
    split at hstep
    · next hign =>
      rw [hc hign] at hstep
      obtain rfl := Option.some.inj hstep
      exact ⟨ring, hset⟩
    · obtain rfl := Option.some.inj hstep
      exact ⟨ring, hset⟩
  | delete t =>
    simp only [SignalPend.step, Option.ite_none_right_eq_some, Option.map_eq_some_iff] at hstep
    obtain ⟨-, m, hdel, rfl⟩ := hstep
    exact h.delete t hdel

theorem Filed.ignored_queue {s s' : State T n} {ring : Key T → List (Fin n)} (h : Filed s ring)
    {t : T} {signo : Nat} {act : SigAction} {peers : T → Bool} {head : Fin n}
    (hign : act.handler = .sigIgn) (hhead : (s.ctx t).sigQ (sigindex signo) = some head)
    (hact : sigaction s t signo act peers = some s') : ¬ Conserved s' := by
  have hset := h.setAction t signo act peers
  have hq : ((SignalPend.setAction s t signo act peers).ctx t).sigQ (sigindex signo) = some head := by
    rw [setAction_sigQ]
    exact hhead
  obtain ⟨L, f, hrun, hring, -⟩ := hset.freeRing hq
  unfold sigaction at hact
  simp only [hign, if_true, hq, hrun, Option.some.injEq] at hact
  rintro ⟨ring', hp⟩
  have hqueued : head ∈ ring' (some (t, sigindex signo)) := by
    apply hp.head_mem
    rw [← hact]
    exact hq
  have hfree : head ∈ ring' none := by
    have hring' := hp.family.isRing none
    rw [← hact] at hring'
    apply hring.subset hring'
    exact List.mem_append_right _ (hset.head_mem hq)
  exact absurd (hp.family.disjoint hfree hqueued) (by simp)

/-- The nodes of queued signals are conserved along a run exactly when no `sigaction` of the run
sets a signal to `SIG_IGN` while instances of it are queued for the caller. -/
theorem nodes_conserved_iff (node : Fin n → PendNode) (acts : List (Act T)) :
    Visits step Conserved (signalInit T node) acts ↔
      Obeys step NoQueueIgnored (signalInit T node) acts := by
  apply visits_iff_obeys (I := fun s => ∃ ring, Filed s ring)
  · rintro s a s' ⟨ring, h⟩ hc hstep
    exact h.step hc hstep
  · rintro s ⟨ring, h⟩
    exact ⟨ring, h.toPlaces⟩
  · rintro s a s' ⟨ring, h⟩ hstep hcons
    cases a with
    | sigaction t signo act peers =>
      intro hign
      simp only [step, Option.ite_none_right_eq_some] at hstep
      cases hhead : (s.ctx t).sigQ (sigindex signo) with
      | none => rfl
      | some head => exact absurd hcons (h.ignored_queue hign hhead hstep.2)
    | _ => trivial
  · exact ⟨_, filed_signalInit node⟩

/-- A queued instance of a signal outlives `SIG_IGN`: its node is free and still heads the queue. -/
theorem ignored_queue_shares_node :
    ¬ Visits step Conserved (signalInit (n := 2) Unit fun _ => ⟨⟨0, .kill, 0⟩, 0, .none⟩)
      [.create () (sigmask 48) fun _ => ⟨.sigDfl, 0#64, false, false⟩, .sigqueue () 48 7,
        .sigaction () 48 ⟨.sigIgn, 0#64, false, false⟩ fun _ => false] := by
  intro h
  obtain ⟨ring, hp⟩ := h.last rfl
  have hqueued : (0 : Fin 2) ∈ ring (some ((), 47)) := hp.head_mem rfl
  have hfirst : (1 : Fin 2) ∈ ring none := hp.head_mem rfl
  have hfree : (0 : Fin 2) ∈ ring none := (hp.family.isRing none).next_mem hfirst rfl
  exact absurd (hp.family.disjoint hfree hqueued) (by simp)

end SylixOS.SignalPend
