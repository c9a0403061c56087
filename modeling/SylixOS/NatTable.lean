import SylixOS.NatLib
import SylixOS.StepRuns

/-! The session tables and the ports of the address translation. -/

namespace SylixOS.NatLib
open StepRuns Function

variable {n : MaxSession}

theorem ntohs_htons {k : Nat} (h : k < 65536) : ntohs (htons k) = k := by
  have hhigh : k / 256 < 256 := by omega
  have hlow : k % 256 < 256 := Nat.mod_lt k (by omega)
  have hsplit := Nat.div_add_mod k 256
  unfold ntohs htons
  rw [BitVec.toNat_ofNat, Nat.mod_eq_of_lt hhigh]
  generalize k / 256 = y at *
  generalize k % 256 = x at *
  have hlt : x * 256 + y < 2 ^ 16 := by omega
  have hmod : (x * 256 + y) % 256 = y := by omega
  have hdiv : (x * 256 + y) / 256 = x := by omega
  rw [Nat.mod_eq_of_lt hlt, hmod, hdiv]
  omega

theorem ntohs_poolPort (a : Fin n.val) : ntohs (poolPort a) = n.minPort + a.val := by
  have hlow := n.low
  have hhigh := n.high
  have ha := a.isLt
  apply ntohs_htons
  unfold MaxSession.minPort
  omega

theorem poolPort_injective {a b : Fin n.val} (h : poolPort a = poolPort b) : a = b := by
  have hport := congrArg ntohs h
  rw [ntohs_poolPort, ntohs_poolPort] at hport
  exact Fin.ext (by omega)

theorem poolPort_ne_zero (a : Fin n.val) : poolPort a ≠ 0#16 := by
  intro h
  have hport := congrArg ntohs h
  rw [ntohs_poolPort] at hport
  have hhigh := n.high
  have hzero : ntohs 0#16 = 0 := rfl
  unfold MaxSession.minPort at hport
  omega

def Outside (n : MaxSession) (port : Port) : Prop :=
  ¬ (n.minPort ≤ ntohs port ∧ ntohs port ≤ maxPort)

theorem Outside.ne_poolPort {port : Port} (h : Outside n port) (a : Fin n.val) :
    port ≠ poolPort a := by
  rintro rfl
  apply h
  rw [ntohs_poolPort]
  have hhigh := n.high
  have ha := a.isLt
  unfold MaxSession.minPort maxPort
  omega

def IsFree (s : State n) (a : Fin n.val) : Prop :=
  a ∈ s.free ∧ (∀ k, a ∉ s.session k) ∧ ∀ k, a ∉ s.assHash k

def IsLive (s : State n) (a : Fin n.val) : Prop :=
  a ∉ s.free ∧ ∃ proto, (s.cb a).proto = some proto ∧
    (∀ k, a ∈ s.session k ↔ k = (proto, natHash (s.cb a).localPort)) ∧
    ∀ k, a ∈ s.assHash k ↔ k = (proto, natHash (s.cb a).assPort)

structure Lists (s : State n) : Prop where
  free : s.free.Nodup
  session : ∀ k, (s.session k).Nodup
  assHash : ∀ k, (s.assHash k).Nodup

def heldPort (s : State n) (a : Fin n.val) : Port :=
  if a ∉ s.free ∧ s.viaMap a = true then (s.cb a).assPortSave else (s.cb a).assPort

structure Kept (s : State n) : Prop where
  lists : Lists s
  placed : ∀ a, IsFree s a ∨ IsLive s a
  outbound : ∀ a, a ∉ s.free → s.viaMap a = false → ∃ b : Fin n.val, (s.cb a).assPort = poolPort b
  ports : ((List.finRange n.val).map (heldPort s)).Perm ((List.finRange n.val).map poolPort)

def Owns (s : State n) (a : Fin n.val) : Prop :=
  if s.viaMap a then (s.cb a).assPortSave = poolPort a ∧ Outside n (s.cb a).assPort
  else (s.cb a).assPortSave = 0#16 ∧ (s.cb a).assPort = poolPort a

def Block (s : State n) (a : Fin n.val) : Prop :=
  (IsFree s a ∧ (s.cb a).assPort = poolPort a) ∨
    (IsLive s a ∧ (s.cb a).inAssHash = true ∧ Owns s a)

structure Table (s : State n) : Prop where
  lists : Lists s
  block : ∀ a, Block s a
  maps : ∀ map ∈ s.maps, Outside n map.assPort

theorem Block.isLive {s : State n} {a : Fin n.val} (h : Block s a) (hfree : a ∉ s.free) :
    IsLive s a ∧ (s.cb a).inAssHash = true ∧ Owns s a := by
  obtain ⟨⟨hin, -⟩, -⟩ | hlive := h
  · exact absurd hin hfree
  · exact hlive

theorem Block.not_free {s : State n} {a : Fin n.val} (h : Block s a) {k : Proto × Nat}
    (hmem : a ∈ s.session k) : a ∉ s.free := by
  obtain ⟨⟨-, hnone, -⟩, -⟩ | ⟨⟨hfree, -⟩, -⟩ := h
  · exact absurd hmem (hnone k)
  · exact hfree

theorem Table.heldPort_eq {s : State n} (h : Table s) (a : Fin n.val) :
    heldPort s a = poolPort a := by
  unfold heldPort
  obtain ⟨⟨hin, -⟩, hport⟩ | ⟨⟨hfree, -⟩, -, hown⟩ := h.block a
  · simpa [hin] using hport
  · unfold Owns at hown
    cases hvia : s.viaMap a with
    | true =>
      rw [hvia] at hown
      simpa [hfree] using hown.1
    | false =>
      rw [hvia] at hown
      simpa using hown.2

theorem Table.kept {s : State n} (h : Table s) : Kept s := by
  refine ⟨h.lists, ?_, ?_, ?_⟩
  · intro a
    exact (h.block a).imp And.left And.left
  · intro a hfree hvia
    have hown := ((h.block a).isLive hfree).2.2
    unfold Owns at hown
    rw [hvia] at hown
    exact ⟨a, hown.2⟩
  · rw [funext h.heldPort_eq]

structure Same (s s' : State n) (b : Fin n.val) : Prop where
  free : b ∈ s'.free ↔ b ∈ s.free
  session : ∀ k, b ∈ s'.session k ↔ b ∈ s.session k
  assHash : ∀ k, b ∈ s'.assHash k ↔ b ∈ s.assHash k
  cb : s'.cb b = s.cb b
  viaMap : s'.viaMap b = s.viaMap b

theorem Same.rfl' {s : State n} {b : Fin n.val} : Same s s b :=
  ⟨Iff.rfl, fun _ => Iff.rfl, fun _ => Iff.rfl, rfl, rfl⟩

theorem Same.trans {s s' s'' : State n} {b : Fin n.val} (h : Same s s' b) (h' : Same s' s'' b) :
    Same s s'' b :=
  ⟨h'.free.trans h.free, fun k => (h'.session k).trans (h.session k),
    fun k => (h'.assHash k).trans (h.assHash k), h'.cb.trans h.cb, h'.viaMap.trans h.viaMap⟩

theorem Same.block {s s' : State n} {b : Fin n.val} (h : Same s s' b) (hb : Block s b) :
    Block s' b := by
  unfold Block IsFree IsLive Owns at hb ⊢
  simpa only [h.free, h.session, h.assHash, h.cb, h.viaMap] using hb

theorem mem_update_erase {κ : Type*} [DecidableEq κ] {lists : κ → List (Fin n.val)} {a b : Fin n.val}
    (hne : b ≠ a) (key k : κ) :
    b ∈ update lists key ((lists key).erase a) k ↔ b ∈ lists k := by
  by_cases hk : k = key
  · rw [hk, update_self, List.mem_erase_of_ne hne]
  · rw [update_of_ne hk]

theorem mem_update_cons {κ : Type*} [DecidableEq κ] {lists : κ → List (Fin n.val)} {a b : Fin n.val}
    (hne : b ≠ a) (key k : κ) :
    b ∈ update lists key (a :: lists key) k ↔ b ∈ lists k := by
  by_cases hk : k = key
  · rw [hk, update_self, List.mem_cons]
    simp [hne]
  · rw [update_of_ne hk]

theorem setCb_cb_of_ne (s : State n) {a b : Fin n.val} (hne : b ≠ a) (cb : NatCb) :
    (s.setCb a cb).cb b = s.cb b := by
  unfold State.setCb
  exact update_of_ne hne cb s.cb

@[simp] theorem setCb_cb_self (s : State n) (a : Fin n.val) (cb : NatCb) :
    (s.setCb a cb).cb a = cb := by
  unfold State.setCb
  exact update_self a cb s.cb

theorem same_setCb (s : State n) {a b : Fin n.val} (hne : b ≠ a) (cb : NatCb) :
    Same s (s.setCb a cb) b :=
  ⟨Iff.rfl, fun _ => Iff.rfl, fun _ => Iff.rfl, setCb_cb_of_ne s hne cb, rfl⟩

theorem same_viaMap (s : State n) {a b : Fin n.val} (hne : b ≠ a) (via : Bool) :
    Same s { s with viaMap := update s.viaMap a via } b :=
  ⟨Iff.rfl, fun _ => Iff.rfl, fun _ => Iff.rfl, rfl, update_of_ne hne via s.viaMap⟩

theorem same_natPoolFree (s : State n) {a b : Fin n.val} (hne : b ≠ a) :
    Same s (natPoolFree s a) b := by
  refine ⟨?_, fun _ => Iff.rfl, fun _ => Iff.rfl, setCb_cb_of_ne _ hne _, rfl⟩
  show b ∈ s.free ++ [a] ↔ b ∈ s.free
  simp [hne]

theorem same_natAssHashAdd (s : State n) {a b : Fin n.val} (hne : b ≠ a) :
    Same s (natAssHashAdd s a) b := by
  unfold natAssHashAdd
  dsimp only
  split
  · exact Same.rfl'
  · split
    · exact ⟨Iff.rfl, fun _ => Iff.rfl, mem_update_cons hne _, setCb_cb_of_ne _ hne _, rfl⟩
    · exact same_setCb s hne _

theorem same_natAssHashDelete (s : State n) {a b : Fin n.val} (hne : b ≠ a) :
    Same s (natAssHashDelete s a) b := by
  unfold natAssHashDelete
  dsimp only
  split
  · split
    · exact ⟨Iff.rfl, fun _ => Iff.rfl, mem_update_erase hne _, setCb_cb_of_ne _ hne _, rfl⟩
    · exact same_setCb s hne _
  · exact Same.rfl'

theorem same_natUnlink (s : State n) {a b : Fin n.val} (hne : b ≠ a) :
    Same s (natUnlink s a) b := by
  apply (same_natAssHashDelete s hne).trans
  unfold natUnlink
  dsimp only
  split
  · exact ⟨Iff.rfl, mem_update_erase hne _, fun _ => Iff.rfl, rfl, rfl⟩
  · exact Same.rfl'

theorem same_natSetUp (s : State n) {a b : Fin n.val} (hne : b ≠ a) (ipaddr : Addr) (port : Port)
    (proto : Proto) : Same s (natSetUp s a ipaddr port proto) b :=
  ⟨Iff.rfl, mem_update_cons hne _, fun _ => Iff.rfl, setCb_cb_of_ne _ hne _, rfl⟩

structure SameKeys (cb cb' : NatCb) : Prop where
  inAssHash : cb'.inAssHash = cb.inAssHash
  proto : cb'.proto = cb.proto
  ipaddrLocal : cb'.ipaddrLocal = cb.ipaddrLocal
  localPort : cb'.localPort = cb.localPort
  assPort : cb'.assPort = cb.assPort
  assPortSave : cb'.assPortSave = cb.assPortSave

theorem Table.touch {s : State n} (h : Table s) {a : Fin n.val} {cb : NatCb}
    (keys : SameKeys (s.cb a) cb) : Table (s.setCb a cb) := by
  refine ⟨⟨h.lists.free, h.lists.session, h.lists.assHash⟩, ?_, h.maps⟩
  intro b
  by_cases hb : b = a
  · subst hb
    have hblock := h.block b
    unfold Block IsFree IsLive Owns at hblock ⊢
    rw [setCb_cb_self, keys.inAssHash, keys.proto, keys.localPort, keys.assPort, keys.assPortSave]
    exact hblock
  · exact (same_setCb s hb cb).block (h.block b)

theorem sameKeys_afterOut (cb : NatCb) (q : Payload) : SameKeys cb (cb.afterOut q) := by
  cases q <;> exact ⟨rfl, rfl, rfl, rfl, rfl, rfl⟩

theorem sameKeys_afterIn (cb : NatCb) (q : Payload) : SameKeys cb (cb.afterIn q) := by
  cases q with
  | tcp src dest seqno ackno flags chksum =>
    unfold NatCb.afterIn
    dsimp only
    split
    · split <;> exact ⟨rfl, rfl, rfl, rfl, rfl, rfl⟩
    · exact ⟨rfl, rfl, rfl, rfl, rfl, rfl⟩
  | _ => exact ⟨rfl, rfl, rfl, rfl, rfl, rfl⟩

structure Taken (s : State n) (a : Fin n.val) : Prop where
  lists : Lists s
  notFree : a ∉ s.free
  noSession : ∀ k, a ∉ s.session k
  noAssHash : ∀ k, a ∉ s.assHash k
  unhashed : (s.cb a).inAssHash = false
  others : ∀ b, b ≠ a → Block s b
  maps : ∀ map ∈ s.maps, Outside n map.assPort

theorem Lists.update_erase {κ : Type*} [DecidableEq κ] {lists : κ → List (Fin n.val)}
    (h : ∀ k, (lists k).Nodup) (key : κ) (a : Fin n.val) (k : κ) :
    (update lists key ((lists key).erase a) k).Nodup := by
  by_cases hk : k = key
  · rw [hk, update_self]
    exact (h key).erase a
  · rw [update_of_ne hk]
    exact h k

theorem Lists.update_cons {κ : Type*} [DecidableEq κ] {lists : κ → List (Fin n.val)}
    (h : ∀ k, (lists k).Nodup) (key : κ) {a : Fin n.val} (fresh : a ∉ lists key) (k : κ) :
    (update lists key (a :: lists key) k).Nodup := by
  by_cases hk : k = key
  · rw [hk, update_self]
    exact List.nodup_cons.mpr ⟨fresh, h key⟩
  · rw [update_of_ne hk]
    exact h k

theorem not_mem_update_erase {κ : Type*} [DecidableEq κ] {lists : κ → List (Fin n.val)}
    (h : ∀ k, (lists k).Nodup) {key : κ} {a : Fin n.val} (only : ∀ k, a ∈ lists k ↔ k = key)
    (k : κ) : a ∉ update lists key ((lists key).erase a) k := by
  by_cases hk : k = key
  · rw [hk, update_self]
    exact (h key).not_mem_erase
  · rw [update_of_ne hk]
    exact fun hin => hk ((only k).mp hin)

theorem natUnlink_eq {s : State n} {a : Fin n.val} {proto : Proto}
    (hin : (s.cb a).inAssHash = true) (hproto : (s.cb a).proto = some proto) :
    natUnlink s a =
      let ass := (proto, natHash (s.cb a).assPort)
      let key := (proto, natHash (s.cb a).localPort)
      { s.setCb a { s.cb a with inAssHash := false } with
        assHash := update s.assHash ass ((s.assHash ass).erase a)
        session := update s.session key ((s.session key).erase a) } := by
  unfold natUnlink natAssHashDelete
  simp only [hin, if_true, hproto, setCb_cb_self]
  rfl

theorem Table.unlink {s : State n} (h : Table s) {a : Fin n.val} (hfree : a ∉ s.free) :
    Taken (natUnlink s a) a ∧
      (natUnlink s a).cb a = { s.cb a with inAssHash := false } := by
  obtain ⟨⟨-, proto, hproto, hsession, hass⟩, hin, -⟩ := (h.block a).isLive hfree
  have hothers : ∀ b, b ≠ a → Block (natUnlink s a) b :=
    fun b hb => (same_natUnlink s hb).block (h.block b)
  rw [natUnlink_eq hin hproto] at hothers ⊢
  refine ⟨⟨⟨h.lists.free, ?_, ?_⟩, hfree, ?_, ?_, ?_, hothers, h.maps⟩, ?_⟩
  · exact Lists.update_erase h.lists.session _ a
  · exact Lists.update_erase h.lists.assHash _ a
  · exact not_mem_update_erase h.lists.session hsession
  · exact not_mem_update_erase h.lists.assHash hass
  · exact congrArg NatCb.inAssHash (setCb_cb_self s a _)
  · exact setCb_cb_self s a _

theorem Table.alloc {s : State n} (h : Table s) {a : Fin n.val} {s₁ : State n}
    (halloc : natPoolAlloc s = some (a, s₁)) :
    Taken s₁ a ∧ (s₁.cb a).assPort = poolPort a ∧ (s₁.cb a).assPortSave = 0#16 := by
  unfold natPoolAlloc at halloc
  split at halloc
  · exact absurd halloc (by simp)
  · next b rest hfree =>
    simp only [Option.some.injEq, Prod.mk.injEq] at halloc
    obtain ⟨rfl, rfl⟩ := halloc
    have hnodup := h.lists.free
    rw [hfree] at hnodup
    obtain ⟨hfresh, hrest⟩ := List.nodup_cons.mp hnodup
    obtain ⟨⟨hin, hsession, hass⟩, hport⟩ : IsFree s b ∧ (s.cb b).assPort = poolPort b := by
      obtain hfreeb | ⟨⟨hnot, -⟩, -⟩ := h.block b
      · exact hfreeb
      · exact absurd (hfree ▸ List.mem_cons_self) hnot
    refine ⟨⟨⟨hrest, h.lists.session, h.lists.assHash⟩, hfresh, hsession, hass, ?_, ?_, h.maps⟩,
      ?_, ?_⟩
    · simp
    · intro c hc
      have hsame : Same s ({ s with free := rest }.setCb b { s.cb b with
          inAssHash := false, proto := none, mapHash := 0, ipaddrLocal := 0#32
          assPortSave := 0#16, localPort := 0#16, localSequence := 0#32, localRcvNext := 0#32
          idleTimer := 0, status := .open }) c := by
        refine ⟨?_, fun _ => Iff.rfl, fun _ => Iff.rfl, setCb_cb_of_ne _ hc _, rfl⟩
        show c ∈ rest ↔ c ∈ s.free
        rw [hfree, List.mem_cons]
        simp [hc]
      exact hsame.block (h.block c)
    · simpa using hport
    · simp

theorem Taken.free {s : State n} {a : Fin n.val} (h : Taken s a)
    (hport : (if (s.cb a).assPortSave ≠ 0#16 then (s.cb a).assPortSave else (s.cb a).assPort) =
      poolPort a) : Table (natPoolFree s a) := by
  refine ⟨⟨?_, h.lists.session, h.lists.assHash⟩, ?_, h.maps⟩
  · show (s.free ++ [a]).Nodup
    exact List.nodup_append.mpr ⟨h.lists.free, by simp, by
      intro b hb c hc heq
      rw [List.mem_singleton.mp hc] at heq
      exact h.notFree (heq ▸ hb)⟩
  · intro b
    by_cases hb : b = a
    · subst hb
      left
      refine ⟨⟨?_, h.noSession, h.noAssHash⟩, ?_⟩
      · show b ∈ s.free ++ [b]
        simp
      · unfold natPoolFree
        simpa using hport
    · exact (same_natPoolFree s hb).block (h.others b hb)

theorem Table.close {s : State n} (h : Table s) {a : Fin n.val} (hfree : a ∉ s.free) :
    Table (natClose s a) := by
  obtain ⟨htaken, hcb⟩ := h.unlink hfree
  apply htaken.free
  rw [hcb]
  have hown := ((h.block a).isLive hfree).2.2
  unfold Owns at hown
  cases hvia : s.viaMap a with
  | true =>
    rw [hvia] at hown
    have hsave : (s.cb a).assPortSave ≠ 0#16 := by
      rw [hown.1]
      exact poolPort_ne_zero a
    simpa [hsave] using hown.1
  | false =>
    rw [hvia] at hown
    simpa [hown.1] using hown.2

structure Entered (s : State n) (a : Fin n.val) (proto : Proto) : Prop where
  lists : Lists s
  notFree : a ∉ s.free
  has : (s.cb a).proto = some proto
  session : ∀ k, a ∈ s.session k ↔ k = (proto, natHash (s.cb a).localPort)
  noAssHash : ∀ k, a ∉ s.assHash k
  unhashed : (s.cb a).inAssHash = false
  others : ∀ b, b ≠ a → Block s b
  maps : ∀ map ∈ s.maps, Outside n map.assPort

theorem mem_update_cons_self {κ : Type*} [DecidableEq κ] {lists : κ → List (Fin n.val)}
    {a : Fin n.val} (none : ∀ k, a ∉ lists k) (key k : κ) :
    a ∈ update lists key (a :: lists key) k ↔ k = key := by
  by_cases hk : k = key
  · rw [hk, update_self]
    simp
  · rw [update_of_ne hk]
    exact ⟨fun hin => absurd hin (none k), fun heq => absurd heq hk⟩

theorem Taken.setUp {s : State n} {a : Fin n.val} (h : Taken s a) (ipaddr : Addr) (port : Port)
    (proto : Proto) : Entered (natSetUp s a ipaddr port proto) a proto := by
  have hcb : ((natSetUp s a ipaddr port proto).cb a).localPort = port := by
    unfold natSetUp
    simp
  refine ⟨⟨h.lists.free, ?_, h.lists.assHash⟩, h.notFree, ?_, ?_, h.noAssHash, ?_, ?_, h.maps⟩
  · exact Lists.update_cons h.lists.session _ (h.noSession _)
  · unfold natSetUp
    simp
  · rw [hcb]
    exact mem_update_cons_self h.noSession _
  · unfold natSetUp
    simpa using h.unhashed
  · exact fun b hb => (same_natSetUp s hb ipaddr port proto).block (h.others b hb)

theorem Entered.setCb {s : State n} {a : Fin n.val} {proto : Proto} (h : Entered s a proto)
    {cb : NatCb} (hproto : cb.proto = (s.cb a).proto) (hport : cb.localPort = (s.cb a).localPort)
    (hin : cb.inAssHash = (s.cb a).inAssHash) : Entered (s.setCb a cb) a proto := by
  refine ⟨⟨h.lists.free, h.lists.session, h.lists.assHash⟩, h.notFree, ?_, ?_, h.noAssHash, ?_, ?_,
    h.maps⟩
  · rw [setCb_cb_self, hproto]
    exact h.has
  · rw [setCb_cb_self, hport]
    exact h.session
  · rw [setCb_cb_self, hin]
    exact h.unhashed
  · exact fun b hb => (same_setCb s hb cb).block (h.others b hb)

theorem natAssHashAdd_eq {s : State n} {a : Fin n.val} {proto : Proto}
    (hin : (s.cb a).inAssHash = false) (hproto : (s.cb a).proto = some proto) :
    natAssHashAdd s a =
      let key := (proto, natHash (s.cb a).assPort)
      { s with assHash := update s.assHash key (a :: s.assHash key) }.setCb a
        { s.cb a with inAssHash := true } := by
  unfold natAssHashAdd
  simp [hin, hproto]

theorem Entered.hashed {s : State n} {a : Fin n.val} {proto : Proto} (h : Entered s a proto)
    (via : Bool)
    (hown : if via then (s.cb a).assPortSave = poolPort a ∧ Outside n (s.cb a).assPort
      else (s.cb a).assPortSave = 0#16 ∧ (s.cb a).assPort = poolPort a) :
    Table { natAssHashAdd s a with viaMap := update (natAssHashAdd s a).viaMap a via } := by
  have hothers : ∀ b, b ≠ a → Block { natAssHashAdd s a with
      viaMap := update (natAssHashAdd s a).viaMap a via } b := fun b hb =>
    ((same_natAssHashAdd s hb).trans (same_viaMap _ hb via)).block (h.others b hb)
  rw [natAssHashAdd_eq h.unhashed h.has] at hothers ⊢
  refine ⟨⟨h.lists.free, h.lists.session, ?_⟩, ?_, h.maps⟩
  · exact Lists.update_cons h.lists.assHash _ (h.noAssHash _)
  · intro b
    by_cases hb : b = a
    · subst hb
      right
      refine ⟨⟨h.notFree, proto, ?_, ?_, ?_⟩, ?_, ?_⟩
      · simpa using h.has
      · simpa [State.setCb] using h.session
      · have hmem := mem_update_cons_self h.noAssHash (proto, natHash (s.cb b).assPort)
        simpa [State.setCb] using hmem
      · simp [State.setCb]
      · unfold Owns
        simpa [State.setCb] using hown
    · exact hothers b hb

theorem mem_sessions {s : State n} {proto : Proto} {a : Fin n.val} (h : a ∈ sessions s proto) :
    ∃ k, a ∈ s.session k := by
  obtain ⟨i, -, hi⟩ := List.mem_flatMap.mp h
  exact ⟨(proto, i), hi⟩

theorem natFirst_mem {s : State n} {proto : Proto} {a : Fin n.val}
    (h : natFirst s proto = some a) : ∃ k, a ∈ s.session k := by
  obtain ⟨i, -, hi⟩ := List.exists_of_findSome?_eq_some h
  exact ⟨(proto, i), List.mem_of_mem_head? hi⟩

theorem foldl_older_mem {s : State n} (l : List (Fin n.val)) (first : Fin n.val) :
    l.foldl (older s) first = first ∨ l.foldl (older s) first ∈ l := by
  induction l generalizing first with
  | nil => exact Or.inl rfl
  | cons a l ih =>
    have hpick : older s first a = first ∨ older s first a = a := by
      unfold older
      split
      · exact Or.inr rfl
      · exact Or.inl rfl
    rw [List.foldl_cons]
    obtain hih | hih := ih (older s first a)
    · obtain hfirst | ha := hpick
      · exact Or.inl (hih.trans hfirst)
      · exact Or.inr (by rw [hih, ha]; exact List.mem_cons_self)
    · exact Or.inr (List.mem_cons_of_mem a hih)

structure TcpScan.Within (scan : TcpScan n) (P : Fin n.val → Prop) : Prop where
  oldest : P scan.oldest
  syn : ∀ a, scan.syn = some a → P a
  closing : ∀ a, scan.closing = some a → P a

theorem longest_within {s : State n} {P : Fin n.val → Prop} {found : Option (Fin n.val)}
    {a : Fin n.val} (ha : P a) (hfound : ∀ b, found = some b → P b) {b : Fin n.val}
    (h : longest s found a = some b) : P b := by
  unfold longest at h
  split at h
  · split at h
    · exact Option.some.inj h ▸ ha
    · exact hfound b h
  · exact Option.some.inj h ▸ ha

theorem TcpScan.Within.next {s : State n} {scan : TcpScan n} {P : Fin n.val → Prop}
    (h : scan.Within P) {a : Fin n.val} (ha : P a) : (scanTcp s scan a).Within P := by
  have hold : ∀ b, P b → P (older s b a) := by
    intro b hb
    unfold older
    split
    · exact ha
    · exact hb
  unfold scanTcp
  dsimp only
  split
  · exact ⟨hold _ h.oldest, fun b hb => longest_within ha h.syn hb, h.closing⟩
  · split
    · exact ⟨hold _ h.oldest, h.syn, fun b hb => longest_within ha h.closing hb⟩
    · exact ⟨hold _ h.oldest, h.syn, h.closing⟩

theorem foldl_scanTcp_within {s : State n} {P : Fin n.val → Prop} (l : List (Fin n.val))
    (hl : ∀ a ∈ l, P a) {scan : TcpScan n} (h : scan.Within P) :
    (l.foldl (scanTcp s) scan).Within P := by
  induction l generalizing scan with
  | nil => exact h
  | cons a l ih =>
    apply ih
    · exact fun b hb => hl b (List.mem_cons_of_mem a hb)
    · exact h.next (hl a List.mem_cons_self)

theorem natOldest_mem {s : State n} {a : Fin n.val} (h : natOldest s = some a) :
    ∃ k, a ∈ s.session k := by
  have hwalk : ∀ proto first, (∃ k, first ∈ s.session k) →
      ∃ k, (sessions s proto).foldl (older s) first ∈ s.session k := by
    intro proto first hfirst
    obtain heq | hin := foldl_older_mem (s := s) (sessions s proto) first
    · rw [heq]
      exact hfirst
    · exact mem_sessions hin
  unfold natOldest at h
  split at h
  · next first hfirst =>
    rw [← Option.some.inj h]
    exact hwalk .icmp first (natFirst_mem hfirst)
  · split at h
    · exact absurd h (by simp)
    · next first hfirst =>
      have hin : ∃ k, first ∈ s.session k := by
        rw [Option.or_eq_some_iff] at hfirst
        obtain htcp | ⟨-, hudp⟩ := hfirst
        · exact natFirst_mem htcp
        · exact natFirst_mem hudp
      have hscan : ((sessions s .tcp).foldl (scanTcp s) ⟨first, none, none⟩).Within
          fun b => ∃ k, b ∈ s.session k := by
        apply foldl_scanTcp_within
        · exact fun b hb => mem_sessions hb
        · exact ⟨hin, by simp, by simp⟩
      dsimp only at h
      split at h
      · next b hclosing =>
        rw [← Option.some.inj h]
        exact hscan.closing b hclosing
      · next b _ hsyn =>
        rw [← Option.some.inj h]
        exact hscan.syn b hsyn
      · rw [← Option.some.inj h]
        exact hwalk .udp _ hscan.oldest

end SylixOS.NatLib
