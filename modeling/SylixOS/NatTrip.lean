import SylixOS.NatRuns

/-! Packets that are translated on the way out, and the answers to them. -/

namespace SylixOS.NatLib
open StepRuns Function

variable {n : MaxSession}

structure Sent where
  orig : Packet
  trans : Packet
  netif : Addr

/-- The translation with what was sent out through the session that a control block stands for,
and the answers that went astray. The code reads neither. -/
structure Trip (n : MaxSession) where
  nat : State n
  sent : Fin n.val → List Sent
  astray : List Packet

def Packet.sender (p : Packet) : Option Proto × Addr × Port :=
  (p.payload.proto, p.src, p.payload.srcPort)

def Payload.answers (q p : Payload) : Bool :=
  match q, p with
  | .tcp src dest .., .tcp src' dest' .. => src = dest' ∧ dest = src'
  | .udp src dest _, .udp src' dest' _ => src = dest' ∧ dest = src'
  | .icmp type code id _, .icmp type' _ id' _ => type = 0#8 ∧ code = 0#8 ∧ type' = 8#8 ∧ id = id'
  | _, _ => false

def Packet.answers (q p : Packet) : Bool :=
  q.whole && decide (q.src = p.dest ∧ q.dest = p.src) && q.payload.answers p.payload

def delivered (v : Verdict) (orig : Packet) : Bool :=
  match v with
  | some q => q.dest = orig.src ∧ q.payload.destPort = orig.payload.srcPort
  | none => false

def Trip.goesAstray (t : Trip n) (q : Packet) (netifIn : Addr) (v : Verdict) : Bool :=
  (List.finRange n.val).any fun a => !t.nat.free.contains a &&
    (t.sent a).any fun r => decide (r.netif = netifIn) && q.answers r.trans && !delivered v r.orig

def Trip.sentAfter (t : Trip n) (p : Packet) (forwarded : Bool) (netifOut : Addr) (v : Verdict) :
    Fin n.val → List Sent :=
  match p.payload.proto, v with
  | some proto, some q =>
    if !forwarded && p.payload.dhcpOut then t.sent
    else
      match outThrough t.nat p proto with
      | some ((a, new), _) =>
        update t.sent a (⟨p, q, netifOut⟩ :: if new then [] else t.sent a)
      | none => t.sent
  | _, _ => t.sent

inductive TripAct where
  | output (p : Packet) (forwarded : Bool) (netifOut : Addr)
  | input (q : Packet) (netifIn : Addr)
  | aliasAdd (entry : NatAlias)
  | aliasDelete (ipaddr : Addr)
  | timer (period : Nat)

def tripStep (idlTo : Nat) (t : Trip n) (a : TripAct) : Option (Trip n) :=
  match a with
  | .output p forwarded netifOut =>
    (natApOutput t.nat p forwarded netifOut).map fun out =>
      { t with nat := out.2, sent := t.sentAfter p forwarded netifOut out.1 }
  | .input q netifIn =>
    (natIpInput t.nat q netifIn).map fun out =>
      { t with
        nat := out.2
        astray := if t.goesAstray q netifIn out.1 then q :: t.astray else t.astray }
  | .aliasAdd entry => some { t with nat := natAliasAdd t.nat entry }
  | .aliasDelete ipaddr => some { t with nat := (natAliasDelete t.nat ipaddr).2 }
  | .timer period => some { t with nat := natTimer idlTo t.nat period }

def tripInit (heap : Fin n.val → NatCb) : Trip n := ⟨natPoolInit heap, fun _ => [], []⟩

structure RoundTrip (t : Trip n) : Prop where
  distinct : ∀ a b, a ∉ t.nat.free → b ∉ t.nat.free → ∀ r ∈ t.sent a, ∀ r' ∈ t.sent b,
    r.orig.sender ≠ r'.orig.sender → r.trans.sender ≠ r'.trans.sender
  returned : t.astray = []

def Payload.checked : Payload → Bool
  | .udp _ _ chksum => chksum ≠ 0#16
  | _ => true

/-- A packet that is translated carries a checksum when it is a UDP packet, and no alias gives it
an address that the interface does not have. -/
def Carries (t : Trip n) (a : TripAct) : Prop :=
  match a with
  | .output p forwarded netifOut =>
    p.whole = true → (forwarded || !p.payload.dhcpOut) = true → p.payload.checked = true ∧
      (externalAddr t.nat p.src netifOut = netifOut ∨ netifOut = 0#32)
  | .input q _ =>
    ∀ proto a, q.payload.proto = some proto →
      inSession t.nat q.payload.destPort proto = some a → q.payload.checked = true
  | _ => True

def Kin (s s' : State n) (b : Fin n.val) : Prop :=
  b ∉ s'.free → b ∉ s.free ∧ SameKeys (s.cb b) (s'.cb b) ∧ s'.viaMap b = s.viaMap b

theorem SameKeys.refl (cb : NatCb) : SameKeys cb cb := ⟨rfl, rfl, rfl, rfl, rfl, rfl⟩

theorem SameKeys.trans {cb cb' cb'' : NatCb} (h : SameKeys cb cb') (h' : SameKeys cb' cb'') :
    SameKeys cb cb'' :=
  ⟨h'.inAssHash.trans h.inAssHash, h'.proto.trans h.proto, h'.ipaddrLocal.trans h.ipaddrLocal,
    h'.localPort.trans h.localPort, h'.assPort.trans h.assPort,
    h'.assPortSave.trans h.assPortSave⟩

theorem Same.kin {s s' : State n} {b : Fin n.val} (h : Same s s' b) : Kin s s' b := by
  intro hfree
  refine ⟨fun hin => hfree (h.free.mpr hin), ?_, h.viaMap⟩
  rw [h.cb]
  exact SameKeys.refl _

theorem Kin.trans {s s' s'' : State n} {b : Fin n.val} (h : Kin s s' b) (h' : Kin s' s'' b) :
    Kin s s'' b := by
  intro hfree
  obtain ⟨hfree', hkeys', hvia'⟩ := h' hfree
  obtain ⟨hfree₀, hkeys, hvia⟩ := h hfree'
  exact ⟨hfree₀, hkeys.trans hkeys', hvia'.trans hvia⟩

theorem kin_setCb {s : State n} {a : Fin n.val} {cb : NatCb} (keys : SameKeys (s.cb a) cb)
    (b : Fin n.val) : Kin s (s.setCb a cb) b := by
  by_cases hb : b = a
  · subst hb
    intro hfree
    refine ⟨hfree, ?_, rfl⟩
    rw [setCb_cb_self]
    exact keys
  · exact (same_setCb s hb cb).kin

theorem kin_natClose (s : State n) (a b : Fin n.val) : Kin s (natClose s a) b := by
  by_cases hb : b = a
  · subst hb
    intro hfree
    refine absurd ?_ hfree
    show b ∈ (natUnlink s b).free ++ [b]
    simp
  · exact ((same_natUnlink s hb).trans (same_natPoolFree _ hb)).kin

theorem kin_timerSession (idlTo period : Nat) (proto : Proto) (s : State n) (a b : Fin n.val) :
    Kin s (timerSession idlTo period proto s a) b := by
  have htouch : Kin s (s.setCb a { s.cb a with idleTimer := (s.cb a).idleTimer + period }) b := by
    apply kin_setCb
    exact ⟨rfl, rfl, rfl, rfl, rfl, rfl⟩
  unfold timerSession
  dsimp only
  split
  · exact htouch.trans (kin_natClose _ a b)
  · split
    · exact htouch.trans (kin_natClose _ a b)
    · exact htouch

theorem foldl_rel {σ β : Type*} {f : σ → β → σ} {R : σ → σ → Prop} (hrefl : ∀ s, R s s)
    (htrans : ∀ s s' s'', R s s' → R s' s'' → R s s'') (hf : ∀ s x, R s (f s x)) (l : List β)
    (s : σ) : R s (l.foldl f s) := by
  induction l generalizing s with
  | nil => exact hrefl s
  | cons x l ih => exact htrans s (f s x) _ (hf s x) (ih (f s x))

theorem natTimer_rel {R : State n → State n → Prop} (hrefl : ∀ s, R s s)
    (htrans : ∀ s s' s'', R s s' → R s' s'' → R s s'') {idlTo period : Nat}
    (hf : ∀ proto s a, R s (timerSession idlTo period proto s a)) (s : State n) :
    R s (natTimer idlTo s period) := by
  have hloop : ∀ (proto : Proto) (s : State n), R s ((List.range 128).foldl
      (fun s i => timerList idlTo period s (proto, i)) s) := by
    intro proto s
    apply foldl_rel hrefl htrans
    intro s i
    exact foldl_rel hrefl htrans (hf proto) _ s
  unfold natTimer
  exact htrans _ _ _ (htrans _ _ _ (hloop .tcp s) (hloop .udp _)) (hloop .icmp _)

theorem kin_natTimer (idlTo period : Nat) (s : State n) (b : Fin n.val) :
    Kin s (natTimer idlTo s period) b := by
  apply natTimer_rel (R := fun s s' => Kin s s' b)
  · exact fun s => Same.rfl'.kin
  · exact fun s s' s'' h h' => h.trans h'
  · exact fun proto s a => kin_timerSession idlTo period proto s a b

theorem same_natPoolAlloc {s s₁ : State n} {a b : Fin n.val}
    (halloc : natPoolAlloc s = some (a, s₁)) (hne : b ≠ a) : Same s s₁ b := by
  unfold natPoolAlloc at halloc
  split at halloc
  · exact absurd halloc (by simp)
  · next c rest hfree =>
    simp only [Option.some.injEq, Prod.mk.injEq] at halloc
    obtain ⟨rfl, rfl⟩ := halloc
    refine ⟨?_, fun _ => Iff.rfl, fun _ => Iff.rfl, setCb_cb_of_ne _ hne _, rfl⟩
    show b ∈ rest ↔ b ∈ s.free
    rw [hfree, List.mem_cons]
    simp [hne]

theorem same_natNew {s s₁ : State n} {a b : Fin n.val} {ipaddr : Addr} {port : Port} {proto : Proto}
    (hnew : natNew s ipaddr port proto = some (a, s₁)) (hne : b ≠ a) : Same s s₁ b := by
  unfold natNew natTake at hnew
  obtain ⟨⟨c, s₀⟩, htake, heq⟩ := Option.map_eq_some_iff.mp hnew
  simp only [Prod.mk.injEq] at heq
  obtain ⟨rfl, rfl⟩ := heq
  refine Same.trans ?_ (same_natSetUp s₀ hne ipaddr port proto)
  split at htake
  · next halloc =>
    rw [htake] at halloc
    exact same_natPoolAlloc halloc hne
  · obtain ⟨d, -, hd⟩ := Option.map_eq_some_iff.mp htake
    simp only [Prod.mk.injEq] at hd
    obtain ⟨rfl, rfl⟩ := hd
    exact same_natUnlink s hne

theorem natNew_ends {s s₁ : State n} {a : Fin n.val} {ipaddr : Addr} {port : Port} {proto : Proto}
    (hnew : natNew s ipaddr port proto = some (a, s₁)) :
    (s₁.cb a).ipaddrLocal = ipaddr ∧ (s₁.cb a).localPort = port := by
  unfold natNew at hnew
  obtain ⟨⟨c, s₀⟩, -, heq⟩ := Option.map_eq_some_iff.mp hnew
  simp only [Prod.mk.injEq] at heq
  obtain ⟨rfl, rfl⟩ := heq
  unfold natSetUp
  simp

theorem natAssHashAdd_ends (s : State n) (a : Fin n.val) :
    ((natAssHashAdd s a).cb a).proto = (s.cb a).proto ∧
      ((natAssHashAdd s a).cb a).ipaddrLocal = (s.cb a).ipaddrLocal ∧
      ((natAssHashAdd s a).cb a).localPort = (s.cb a).localPort := by
  unfold natAssHashAdd
  dsimp only
  split
  · exact ⟨rfl, rfl, rfl⟩
  · split
    · simp [State.setCb]
    · simp [State.setCb]

def SameLists (s s' : State n) : Prop := s'.maps = s.maps ∧ s'.aliases = s.aliases

theorem natAssHashAdd_lists (s : State n) (a : Fin n.val) : SameLists s (natAssHashAdd s a) := by
  unfold natAssHashAdd
  dsimp only
  split
  · exact ⟨rfl, rfl⟩
  · split <;> exact ⟨rfl, rfl⟩

theorem natUnlink_lists (s : State n) (a : Fin n.val) : SameLists s (natUnlink s a) := by
  have hdelete : SameLists s (natAssHashDelete s a) := by
    unfold natAssHashDelete
    dsimp only
    split
    · split <;> exact ⟨rfl, rfl⟩
    · exact ⟨rfl, rfl⟩
  unfold natUnlink
  dsimp only
  split
  · exact hdelete
  · exact hdelete

theorem natNew_lists {s s₁ : State n} {a : Fin n.val} {ipaddr : Addr} {port : Port} {proto : Proto}
    (hnew : natNew s ipaddr port proto = some (a, s₁)) : SameLists s s₁ := by
  unfold natNew natTake at hnew
  obtain ⟨⟨c, s₀⟩, htake, heq⟩ := Option.map_eq_some_iff.mp hnew
  simp only [Prod.mk.injEq] at heq
  obtain ⟨rfl, rfl⟩ := heq
  show SameLists s s₀
  split at htake
  · next halloc =>
    rw [htake] at halloc
    unfold natPoolAlloc at halloc
    split at halloc
    · exact absurd halloc (by simp)
    · simp only [Option.some.injEq, Prod.mk.injEq] at halloc
      rw [← halloc.2]
      exact ⟨rfl, rfl⟩
  · obtain ⟨d, -, hd⟩ := Option.map_eq_some_iff.mp htake
    simp only [Prod.mk.injEq] at hd
    rw [← hd.2]
    exact natUnlink_lists s d

theorem natTimer_maps (idlTo period : Nat) (s : State n) :
    (natTimer idlTo s period).maps = s.maps := by
  apply natTimer_rel (R := fun s s' => s'.maps = s.maps)
  · exact fun s => rfl
  · exact fun s s' s'' h h' => h'.trans h
  · intro proto s a
    unfold timerSession natClose
    dsimp only
    split
    · exact (natUnlink_lists _ a).1
    · split
      · exact (natUnlink_lists _ a).1
      · rfl

structure Through (s s₁ : State n) (p : Packet) (proto : Proto) (a : Fin n.val) : Prop where
  notFree : a ∉ s₁.free
  proto : (s₁.cb a).proto = some proto
  ipaddrLocal : (s₁.cb a).ipaddrLocal = p.src
  localPort : (s₁.cb a).localPort = p.payload.srcPort
  others : ∀ b, b ≠ a → Same s s₁ b

theorem Table.through {s s₁ : State n} (h : Table s) {p : Packet} {proto : Proto} {a : Fin n.val}
    {new : Bool} (hthrough : NatLib.outThrough s p proto = some ((a, new), s₁)) :
    Through s s₁ p proto a ∧ (new = false → s₁ = s) ∧ (new = true → s₁.viaMap a = false) ∧
      SameLists s s₁ := by
  unfold NatLib.outThrough at hthrough
  split at hthrough
  · next b hfound =>
    simp only [Option.some.injEq, Prod.mk.injEq] at hthrough
    obtain ⟨⟨rfl, rfl⟩, rfl⟩ := hthrough
    have hmem := List.mem_of_find?_eq_some hfound
    have hends := List.find?_some hfound
    simp only [decide_eq_true_eq] at hends
    obtain ⟨haddr, hport, hproto⟩ := hends
    refine ⟨⟨(h.block b).not_free hmem, hproto, haddr, hport, fun _ _ => Same.rfl'⟩,
      fun _ => rfl, by simp, rfl, rfl⟩
  · obtain ⟨⟨b, s₀⟩, hnew, heq⟩ := Option.map_eq_some_iff.mp hthrough
    simp only [Prod.mk.injEq] at heq
    obtain ⟨⟨rfl, rfl⟩, rfl⟩ := heq
    obtain ⟨hentered, -⟩ := h.new hnew
    obtain ⟨haddr, hport⟩ := natNew_ends hnew
    obtain ⟨hproto', haddr', hport'⟩ := natAssHashAdd_ends s₀ b
    refine ⟨⟨?_, hproto'.trans hentered.has, haddr'.trans haddr, hport'.trans hport, ?_⟩, by simp,
      fun _ => ?_, ?_⟩
    · show b ∉ (natAssHashAdd s₀ b).free
      rw [(natAssHashAdd_assPort s₀ b).2.2]
      exact hentered.notFree
    · intro c hc
      exact ((same_natNew hnew hc).trans (same_natAssHashAdd s₀ hc)).trans (same_viaMap _ hc false)
    · show update (natAssHashAdd s₀ b).viaMap b false b = false
      rw [update_self]
    · obtain ⟨hmaps, haliases⟩ := natNew_lists hnew
      obtain ⟨hmaps', haliases'⟩ := natAssHashAdd_lists s₀ b
      exact ⟨hmaps'.trans hmaps, haliases'.trans haliases⟩

structure SentThrough (cb : NatCb) (r : Sent) : Prop where
  orig : r.orig.sender = (cb.proto, cb.ipaddrLocal, cb.localPort)
  proto : r.trans.payload.proto = cb.proto
  port : r.trans.payload.srcPort = cb.assPort
  addr : r.trans.src = r.netif ∨ r.netif = 0#32

theorem SentThrough.keys {cb cb' : NatCb} {r : Sent} (h : SentThrough cb r)
    (keys : SameKeys cb cb') : SentThrough cb' r := by
  obtain ⟨horig, hproto, hport, haddr⟩ := h
  rw [← keys.proto, ← keys.ipaddrLocal, ← keys.localPort] at horig
  rw [← keys.proto] at hproto
  rw [← keys.assPort] at hport
  exact ⟨horig, hproto, hport, haddr⟩

structure Tracked (t : Trip n) : Prop where
  table : Table t.nat
  maps : t.nat.maps = []
  outbound : ∀ a, a ∉ t.nat.free → t.nat.viaMap a = false
  sent : ∀ a, a ∉ t.nat.free → ∀ r ∈ t.sent a, SentThrough (t.nat.cb a) r
  returned : t.astray = []

theorem Tracked.assPort {t : Trip n} (h : Tracked t) {a : Fin n.val} (hfree : a ∉ t.nat.free) :
    (t.nat.cb a).assPortSave = 0#16 ∧ (t.nat.cb a).assPort = poolPort a := by
  have hown := ((h.table.block a).isLive hfree).2.2
  unfold Owns at hown
  rw [h.outbound a hfree] at hown
  exact hown

theorem Tracked.roundTrip {t : Trip n} (h : Tracked t) : RoundTrip t := by
  refine ⟨?_, h.returned⟩
  intro a b ha hb r hr r' hr' hne heq
  apply hne
  have hsent := h.sent a ha r hr
  have hsent' := h.sent b hb r' hr'
  have hports : r.trans.payload.srcPort = r'.trans.payload.srcPort :=
    congrArg (fun sender => sender.2.2) heq
  rw [hsent.port, hsent'.port, (h.assPort ha).2, (h.assPort hb).2] at hports
  obtain rfl := poolPort_injective hports
  rw [hsent.orig, hsent'.orig]

theorem Tracked.kin {t : Trip n} (h : Tracked t) {s : State n} (htable : Table s)
    (hmaps : s.maps = []) (hkin : ∀ b, Kin t.nat s b) : Tracked { t with nat := s } := by
  refine ⟨htable, hmaps, ?_, ?_, h.returned⟩
  · intro a hfree
    obtain ⟨hfree', -, hvia⟩ := hkin a hfree
    exact hvia.trans (h.outbound a hfree')
  · intro a hfree r hr
    obtain ⟨hfree', hkeys, -⟩ := hkin a hfree
    exact (h.sent a hfree' r hr).keys hkeys

theorem Payload.translateOut_spec {q : Payload} {proto : Proto} (hproto : q.proto = some proto)
    (hchecked : q.checked = true) (old new : Addr) (port : Port) :
    (q.translateOut old new port).proto = some proto ∧
      (q.translateOut old new port).srcPort = port := by
  cases q with
  | tcp src dest seqno ackno flags chksum => exact ⟨hproto, rfl⟩
  | udp src dest chksum =>
    have hne : chksum ≠ 0#16 := by simpa [Payload.checked] using hchecked
    unfold Payload.translateOut
    dsimp only
    rw [if_pos hne]
    exact ⟨hproto, rfl⟩
  | icmp type code id chksum => exact ⟨hproto, rfl⟩
  | other => exact absurd hproto (by simp [Payload.proto])

theorem Tracked.sendOut {t : Trip n} (h : Tracked t) {s : State n} {p : Packet} {proto : Proto}
    {a : Fin n.val} {new : Bool} {netifOut : Addr}
    (hproto : p.payload.proto = some proto) (hchecked : p.payload.checked = true)
    (haddr : externalAddr t.nat p.src netifOut = netifOut ∨ netifOut = 0#32)
    (hthrough : outThrough t.nat p proto = some ((a, new), s))
    (htable : Table (NatLib.translateOut s a p netifOut).2) :
    Tracked { t with
      nat := (NatLib.translateOut s a p netifOut).2
      sent := update t.sent a
        (⟨p, (NatLib.translateOut s a p netifOut).1, netifOut⟩ :: if new then [] else t.sent a) } := by
  obtain ⟨hends, hold, hnew, hmaps, haliases⟩ := h.table.through hthrough
  have hfree : ∀ b, b ∉ (NatLib.translateOut s a p netifOut).2.free → b ∉ s.free := fun b hb => hb
  have hkeys : SameKeys (s.cb a) ((NatLib.translateOut s a p netifOut).2.cb a) := by
    unfold NatLib.translateOut
    dsimp only
    rw [setCb_cb_self]
    exact sameKeys_afterOut _ _
  have hkin : ∀ b, b ≠ a → Kin t.nat (NatLib.translateOut s a p netifOut).2 b := fun b hb =>
    (hends.others b hb).kin.trans (kin_setCb (sameKeys_afterOut _ _) b)
  refine ⟨htable, hmaps.trans h.maps, ?_, ?_, h.returned⟩
  · intro b hb
    by_cases hba : b = a
    · subst hba
      cases new with
      | true => exact hnew rfl
      | false =>
        obtain rfl := hold rfl
        exact h.outbound b (hfree b hb)
    · obtain ⟨hb', -, hvia⟩ := hkin b hba hb
      exact hvia.trans (h.outbound b hb')
  · intro b hb r hr
    by_cases hba : b = a
    · subst hba
      dsimp only at hr
      rw [update_self] at hr
      obtain rfl | hbefore := List.mem_cons.mp hr
      · apply SentThrough.keys _ hkeys
        obtain ⟨hp, hport⟩ := Payload.translateOut_spec hproto hchecked p.src
          (externalAddr s p.src netifOut) (s.cb b).assPort
        refine ⟨?_, hp.trans hends.proto.symm, hport, ?_⟩
        · show (p.payload.proto, p.src, p.payload.srcPort) = _
          rw [hproto, hends.proto, hends.ipaddrLocal, hends.localPort]
        · show externalAddr s p.src netifOut = netifOut ∨ netifOut = 0#32
          unfold externalAddr at haddr ⊢
          rw [haliases]
          exact haddr
      · cases new with
        | true => exact absurd hbefore (by simp)
        | false =>
          obtain rfl := hold rfl
          exact (h.sent b (hfree b hb) r hbefore).keys hkeys
    · dsimp only at hr
      rw [update_of_ne hba] at hr
      obtain ⟨hb', hkeys', -⟩ := hkin b hba hb
      exact (h.sent b hb' r hr).keys hkeys'

theorem Tracked.output {t t' : Trip n} (h : Tracked t) {idlTo : Nat} {p : Packet} {forwarded : Bool}
    {netifOut : Addr} (hc : Carries t (.output p forwarded netifOut))
    (hstep : tripStep idlTo t (.output p forwarded netifOut) = some t') : Tracked t' := by
  obtain ⟨⟨v, s'⟩, hout, rfl⟩ := Option.map_eq_some_iff.mp hstep
  have hcond : NoMappedRecycled t.nat (.output p forwarded netifOut) := by
    intro _ _ b hold
    obtain ⟨k, hk⟩ := natOldest_mem hold
    exact (h.assPort ((h.table.block b).not_free hk)).1
  have htable := h.table.output hcond hout
  unfold natApOutput at hout
  cases hproto : p.payload.proto with
  | none =>
    simp only [hproto, Option.some.injEq, Prod.mk.injEq] at hout
    obtain ⟨rfl, rfl⟩ := hout
    have hsent : t.sentAfter p forwarded netifOut none = t.sent := by
      simp [Trip.sentAfter, hproto]
    rw [hsent]
    exact h
  | some proto =>
    simp only [hproto] at hout
    split at hout
    · next hwhole =>
      split at hout
      · next hdhcp =>
        simp only [Option.some.injEq, Prod.mk.injEq] at hout
        obtain ⟨rfl, rfl⟩ := hout
        have hsent : t.sentAfter p forwarded netifOut (some p) = t.sent := by
          simp only [Trip.sentAfter, hproto, if_pos hdhcp]
        rw [hsent]
        exact h
      · next hdhcp =>
        obtain ⟨⟨⟨a, new⟩, s₁⟩, hthrough, heq⟩ := Option.map_eq_some_iff.mp hout
        simp only [Prod.mk.injEq] at heq
        obtain ⟨rfl, rfl⟩ := heq
        have hgo : (forwarded || !p.payload.dhcpOut) = true := by
          cases forwarded <;> simp_all
        obtain ⟨hchecked, haddr⟩ := hc hwhole hgo
        have hsent : ∀ q, t.sentAfter p forwarded netifOut (some q) =
            update t.sent a (⟨p, q, netifOut⟩ :: if new then [] else t.sent a) := by
          intro q
          simp only [Trip.sentAfter, hproto, if_neg hdhcp, hthrough]
        rw [hsent]
        exact h.sendOut hproto hchecked haddr hthrough htable
    · simp only [Option.some.injEq, Prod.mk.injEq] at hout
      obtain ⟨rfl, rfl⟩ := hout
      have hsent : t.sentAfter p forwarded netifOut none = t.sent := by
        simp [Trip.sentAfter, hproto]
      rw [hsent]
      exact h

theorem Tracked.inSession_eq {t : Trip n} (h : Tracked t) {a : Fin n.val} (hfree : a ∉ t.nat.free)
    {proto : Proto} (hproto : (t.nat.cb a).proto = some proto) :
    inSession t.nat (t.nat.cb a).assPort proto = some a := by
  obtain ⟨⟨-, proto', hproto', -, hass⟩, -⟩ := (h.table.block a).isLive hfree
  obtain rfl : proto = proto' := Option.some.inj (hproto.symm.trans hproto')
  have hmem := (hass (proto, natHash (t.nat.cb a).assPort)).mpr rfl
  unfold inSession
  cases hfind : (t.nat.assHash (proto, natHash (t.nat.cb a).assPort)).find? fun b =>
      decide ((t.nat.cb a).assPort = (t.nat.cb b).assPort ∧ some proto = (t.nat.cb b).proto) with
  | none =>
    have hnot := List.find?_eq_none.mp hfind a hmem
    simp [hproto] at hnot
  | some b =>
    have hport := List.find?_some hfind
    simp only [decide_eq_true_eq] at hport
    have hin := List.mem_of_find?_eq_some hfind
    have hfreeb : b ∉ t.nat.free := by
      obtain ⟨⟨-, -, hnone⟩, -⟩ | ⟨⟨hnot, -⟩, -⟩ := h.table.block b
      · exact absurd hin (hnone _)
      · exact hnot
    have heq := hport.1
    rw [(h.assPort hfree).2, (h.assPort hfreeb).2] at heq
    rw [poolPort_injective heq]

theorem Payload.answers_ports {q p : Payload} (h : q.answers p = true) :
    q.proto = p.proto ∧ q.destPort = p.srcPort := by
  cases q <;> cases p <;> simp_all [Payload.answers, Payload.proto, Payload.destPort,
    Payload.srcPort]

theorem Payload.translateIn_destPort {q p : Payload} (h : q.answers p = true)
    (hchecked : q.checked = true) (old new : Addr) (port : Port) :
    (q.translateIn old new port).destPort = port := by
  cases q with
  | tcp src dest seqno ackno flags chksum => rfl
  | udp src dest chksum =>
    have hne : chksum ≠ 0#16 := by simpa [Payload.checked] using hchecked
    unfold Payload.translateIn
    dsimp only
    rw [if_pos hne]
    rfl
  | icmp type code id chksum =>
    have hcode : code = 0#8 := by
      cases p <;> simp_all [Payload.answers]
    unfold Payload.translateIn
    dsimp only
    rw [if_pos (Or.inr hcode)]
    rfl
  | other => exact absurd h (by cases p <;> simp [Payload.answers])

theorem Tracked.delivered {t : Trip n} (h : Tracked t) {q : Packet} {netifIn : Addr} {v : Verdict}
    {s' : State n} (hc : Carries t (.input q netifIn))
    (hin : natIpInput t.nat q netifIn = some (v, s')) {a : Fin n.val} (hfree : a ∉ t.nat.free)
    {r : Sent} (hr : r ∈ t.sent a) (hnetif : r.netif = netifIn)
    (hanswers : q.answers r.trans = true) : NatLib.delivered v r.orig = true := by
  have hsent := h.sent a hfree r hr
  unfold Packet.answers at hanswers
  simp only [Bool.and_eq_true, decide_eq_true_eq] at hanswers
  obtain ⟨⟨hwhole, -, hdest⟩, hpayload⟩ := hanswers
  obtain ⟨hprotos, hport⟩ := Payload.answers_ports hpayload
  obtain ⟨⟨-, proto, hproto, -, -⟩, -⟩ := (h.table.block a).isLive hfree
  have hq : q.payload.proto = some proto := by
    rw [hprotos, hsent.proto]
    exact hproto
  have hass : q.payload.destPort = (t.nat.cb a).assPort := hport.trans hsent.port
  have hfound := h.inSession_eq hfree hproto
  rw [← hass] at hfound
  have hpass : ¬ (netifIn ≠ 0#32 ∧ q.dest ≠ netifIn) := by
    rintro ⟨hany, hother⟩
    obtain haddr | haddr := hsent.addr
    · exact hother (hdest.trans (haddr.trans hnetif))
    · exact hany (hnetif.symm.trans haddr)
  have hpool : inPool n proto q.payload.destPort = true := by
    unfold inPool
    rw [hass, (h.assPort hfree).2, ntohs_poolPort]
    have hhigh := n.high
    have ha := a.isLt
    unfold MaxSession.minPort maxPort
    simp only [decide_eq_true_eq]
    right
    omega
  unfold natIpInput natApInput at hin
  rw [if_neg hpass] at hin
  simp only [hq, if_pos hwhole, hpool, if_true, hfound, Option.some.injEq, Prod.mk.injEq] at hin
  rw [← hin.1]
  have hsender := hsent.orig
  unfold Packet.sender at hsender
  simp only [Prod.mk.injEq] at hsender
  have hlocal := Payload.translateIn_destPort hpayload (hc proto a hq hfound) q.dest
    (t.nat.cb a).ipaddrLocal (t.nat.cb a).localPort
  unfold NatLib.delivered Packet.translateIn
  simp only [decide_eq_true_eq]
  exact ⟨hsender.2.1.symm, hlocal.trans hsender.2.2.symm⟩

theorem natApInput_kin {s s' : State n} {q : Packet} {netifIn : Addr} {v : Verdict}
    (hmaps : s.maps = []) (hin : natApInput s q netifIn = some (v, s')) :
    s' = s ∨ ∃ a, s' = s.setCb a ((s.cb a).afterIn q.payload) := by
  unfold natApInput at hin
  have hnone : ∀ port proto, inMap s port proto = none := by
    intro port proto
    unfold inMap
    rw [hmaps]
    rfl
  have hkeep : ∀ {v' : Verdict}, some (v', s) = some (v, s') → s' = s := by
    intro v' heq
    simp only [Option.some.injEq, Prod.mk.injEq] at heq
    exact heq.2.symm
  split at hin
  · exact Or.inl (hkeep hin)
  · split at hin
    · split at hin
      · split at hin
        · next a _ =>
          simp only [Option.some.injEq, Prod.mk.injEq] at hin
          exact Or.inr ⟨a, hin.2.symm⟩
        · split at hin
          · exact Or.inl (hkeep hin)
          · exact Or.inl (hkeep hin)
      · split at hin
        · exact Or.inl (hkeep hin)
        · rw [hnone] at hin
          exact Or.inl (hkeep hin)
    · exact Or.inl (hkeep hin)

theorem Tracked.input {t t' : Trip n} (h : Tracked t) {idlTo : Nat} {q : Packet} {netifIn : Addr}
    (hc : Carries t (.input q netifIn)) (hstep : tripStep idlTo t (.input q netifIn) = some t') :
    Tracked t' := by
  obtain ⟨⟨v, s'⟩, hin, rfl⟩ := Option.map_eq_some_iff.mp hstep
  have hastray : t.goesAstray q netifIn v = false := by
    by_contra hgo
    rw [Bool.not_eq_false] at hgo
    unfold Trip.goesAstray at hgo
    simp only [List.any_eq_true, Bool.and_eq_true, decide_eq_true_eq, Bool.not_eq_true',
      List.contains_eq_mem, decide_eq_false_iff_not] at hgo
    obtain ⟨a, -, hfree, r, hr, ⟨hnetif, hanswers⟩, hnot⟩ := hgo
    rw [h.delivered hc hin hfree hr hnetif hanswers] at hnot
    exact absurd hnot (by decide)
  have hstate : s' = t.nat ∨ ∃ a, s' = t.nat.setCb a ((t.nat.cb a).afterIn q.payload) := by
    unfold natIpInput at hin
    split at hin
    · simp only [Option.some.injEq, Prod.mk.injEq] at hin
      exact Or.inl hin.2.symm
    · exact natApInput_kin h.maps hin
  have htracked : Tracked { t with nat := s' } := by
    obtain rfl | ⟨a, rfl⟩ := hstate
    · exact h
    · exact h.kin (h.table.touch (sameKeys_afterIn _ _)) h.maps (kin_setCb (sameKeys_afterIn _ _))
  simp only [hastray, Bool.false_eq_true, if_false]
  exact htracked

theorem Tracked.step {t t' : Trip n} (h : Tracked t) {idlTo : Nat} {a : TripAct}
    (hc : Carries t a) (hstep : tripStep idlTo t a = some t') : Tracked t' := by
  cases a with
  | output p forwarded netifOut => exact h.output hc hstep
  | input q netifIn => exact h.input hc hstep
  | aliasAdd entry =>
    obtain rfl := Option.some.inj hstep
    exact ⟨h.table.congr rfl rfl rfl rfl rfl h.table.maps, h.maps, h.outbound, h.sent, h.returned⟩
  | aliasDelete ipaddr =>
    obtain rfl := Option.some.inj hstep
    unfold natAliasDelete
    split
    · exact ⟨h.table.congr rfl rfl rfl rfl rfl h.table.maps, h.maps, h.outbound, h.sent, h.returned⟩
    · exact h
  | timer period =>
    obtain rfl := Option.some.inj hstep
    apply h.kin (h.table.timer idlTo period) _ (kin_natTimer idlTo period t.nat)
    exact (natTimer_maps idlTo period t.nat).trans h.maps

theorem tracked_tripInit (heap : Fin n.val → NatCb) : Tracked (tripInit heap) := by
  refine ⟨table_natPoolInit heap, rfl, fun a _ => rfl, ?_, rfl⟩
  exact fun a _ r hr => absurd hr List.not_mem_nil

/-- Without port maps, packets of different senders are told apart and their answers come back,
when translated UDP packets have a checksum and no alias is used that the interface does not
have. -/
theorem outbound_round_trip (n : MaxSession) (idlTo : Nat) (heap : Fin n.val → NatCb)
    (acts : List TripAct) (h : Obeys (tripStep idlTo) Carries (tripInit heap) acts) :
    Visits (tripStep idlTo) RoundTrip (tripInit heap) acts := by
  have htracked : Visits (tripStep idlTo) Tracked (tripInit heap) acts := by
    apply visits_of_obeys (C := Carries) _ (tracked_tripInit heap) h
    exact fun t a t' ht hc hstep => ht.step hc hstep
  exact htracked.mono fun t ht => ht.roundTrip

def answeredActs : List TripAct :=
  [.output ⟨28, 5, 0x0201a8c0#32, 0x08080808#32, 0#16, .udp (htons 53) (htons 53) 1#16⟩ true
      0x04030201#32,
    .input ⟨28, 5, 0x08080808#32, 0x04030201#32, 0#16,
      .udp (htons 53) (htons 65408) 1#16⟩ 0x04030201#32]

theorem outbound_round_trip_answered : Visits (tripStep 600) RoundTrip
    (tripInit (n := leastSession) fun _ => clearCb) answeredActs := by
  apply outbound_round_trip
  intro t₁ h₁
  refine ⟨fun _ _ => ⟨rfl, Or.inl rfl⟩, ?_⟩
  intro t₂ h₂
  exact ⟨fun _ _ _ _ => rfl, trivial⟩

/-! What breaks it: two hosts that send from one port without checksum, an answer without checksum,
and an alias. -/

def plainQuery (src : Addr) : TripAct :=
  .output ⟨28, 5, src, 0x08080808#32, 0#16, .udp (htons 1000) (htons 53) 0#16⟩ true 0x04030201#32

def plainActs : List TripAct := [plainQuery 0x0201a8c0#32, plainQuery 0x0301a8c0#32]

def uncheckedActs : List TripAct :=
  [.output ⟨28, 5, 0x0201a8c0#32, 0x08080808#32, 0#16, .udp (htons 1000) (htons 53) 1#16⟩ true
      0x04030201#32,
    .input ⟨28, 5, 0x08080808#32, 0x04030201#32, 0#16,
      .udp (htons 53) (htons 65408) 0#16⟩ 0x04030201#32]

def aliasActs : List TripAct :=
  [.aliasAdd ⟨0x05030201#32, 0x0201a8c0#32, 0x0201a8c0#32⟩,
    .output ⟨40, 5, 0x0201a8c0#32, 0x08080808#32, 0#16,
      .tcp (htons 1000) (htons 80) 0#32 0#32 synOnly 0#16⟩ true 0x04030201#32,
    .input ⟨40, 5, 0x08080808#32, 0x05030201#32, 0#16,
      .tcp (htons 80) (htons 65408) 0#32 0#32 synOnly 0#16⟩ 0x04030201#32]

theorem outbound_astray :
    ¬ Visits (tripStep 600) RoundTrip (tripInit (n := leastSession) fun _ => clearCb) plainActs ∧
    ¬ Visits (tripStep 600) RoundTrip (tripInit (n := leastSession) fun _ => clearCb)
        uncheckedActs ∧
    ¬ Visits (tripStep 600) RoundTrip (tripInit (n := leastSession) fun _ => clearCb)
        aliasActs := by
  have hlost : ∀ acts, (run (tripStep 600) (tripInit (n := leastSession) fun _ => clearCb) acts).map
      (fun t => t.astray.length) = some 1 →
      ¬ Visits (tripStep 600) RoundTrip (tripInit (n := leastSession) fun _ => clearCb) acts := by
    intro acts hend hvisits
    obtain ⟨t, hrun, ht⟩ := Option.map_eq_some_iff.mp hend
    rw [(hvisits.last hrun).returned] at ht
    exact absurd ht (by decide)
  refine ⟨?_, hlost _ (by decide +kernel), hlost _ (by decide +kernel)⟩
  intro hvisits
  have hend : (run (tripStep 600) (tripInit (n := leastSession) fun _ => clearCb) plainActs).map
      (fun t => decide (⟨0, by decide⟩ ∉ t.nat.free ∧ ⟨1, by decide⟩ ∉ t.nat.free) &&
        (t.sent ⟨0, by decide⟩).any fun r => (t.sent ⟨1, by decide⟩).any fun r' =>
          decide (r.orig.sender ≠ r'.orig.sender ∧ r.trans.sender = r'.trans.sender)) =
      some true := by
    decide +kernel
  obtain ⟨t, hrun, ht⟩ := Option.map_eq_some_iff.mp hend
  simp only [Bool.and_eq_true, List.any_eq_true, decide_eq_true_eq] at ht
  obtain ⟨⟨hfree, hfree'⟩, r, hr, r', hr', hne, heq⟩ := ht
  exact (hvisits.last hrun).distinct _ _ hfree hfree' r hr r' hr' hne heq

end SylixOS.NatLib
