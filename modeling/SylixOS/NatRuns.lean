import SylixOS.NatTable

/-! Runs of the address translation: packets in both directions, maps, aliases and
the timer. -/

namespace SylixOS.NatLib
open StepRuns

variable {n : MaxSession}

inductive Act where
  | output (p : Packet) (forwarded : Bool) (netifOut : Addr)
  | input (p : Packet) (netifIn : Addr)
  | mapAdd (map : NatMap)
  | mapDelete (ipaddr : Addr) (port assPort : Port) (proto : Option Proto)
  | aliasAdd (entry : NatAlias)
  | aliasDelete (ipaddr : Addr)
  | timer (period : Nat)

def step (idlTo : Nat) (s : State n) (a : Act) : Option (State n) :=
  match a with
  | .output p forwarded netifOut => (natApOutput s p forwarded netifOut).map Prod.snd
  | .input p netifIn => (natApInput s p netifIn).map Prod.snd
  | .mapAdd map => some (natMapAdd s map).2
  | .mapDelete ipaddr port assPort proto => some (natMapDelete s ipaddr port assPort proto).2
  | .aliasAdd entry => some (natAliasAdd s entry)
  | .aliasDelete ipaddr => some (natAliasDelete s ipaddr).2
  | .timer period => some (natTimer idlTo s period)

def creates (s : State n) : Act → Bool
  | .output p forwarded _ =>
    match p.payload.proto with
    | some proto =>
      p.whole && (forwarded || !p.payload.dhcpOut) && (outSession s p proto).isNone
    | none => false
  | .input p _ =>
    match p.payload.proto with
    | some proto =>
      p.whole && !inPool n proto p.payload.destPort && !p.payload.dhcpIn &&
        (inMap s p.payload.destPort proto).any fun map =>
          (mapSession s p.payload.destPort proto (map.hash p.src)).isNone
    | none => false
  | _ => false

/-- A new session does not take the control block of a session that was created through a map. -/
def NoMappedRecycled (s : State n) (a : Act) : Prop :=
  creates s a = true → s.free = [] → ∀ b, natOldest s = some b → (s.cb b).assPortSave = 0#16

theorem natPoolAlloc_eq_none_iff {s : State n} : natPoolAlloc s = none ↔ s.free = [] := by
  unfold natPoolAlloc
  split
  · next h => simp [h]
  · next h => simp [h]

theorem Table.take {s s₁ : State n} (h : Table s) {a : Fin n.val}
    (htake : natTake s = some (a, s₁)) : Taken s₁ a ∧
      ((s.free = [] → natOldest s = some a → (s.cb a).assPortSave = 0#16) →
        (s₁.cb a).assPort = poolPort a ∧ (s₁.cb a).assPortSave = 0#16) := by
  unfold natTake at htake
  split at htake
  · next taken halloc =>
    obtain rfl := Option.some.inj htake
    obtain ⟨htaken, hport⟩ := h.alloc halloc
    exact ⟨htaken, fun _ => hport⟩
  · next halloc =>
    obtain ⟨b, hold, hb⟩ := Option.map_eq_some_iff.mp htake
    simp only [Prod.mk.injEq] at hb
    obtain ⟨rfl, rfl⟩ := hb
    obtain ⟨k, hk⟩ := natOldest_mem hold
    have hfree := (h.block b).not_free hk
    obtain ⟨htaken, hcb⟩ := h.unlink hfree
    refine ⟨htaken, fun hsave => ?_⟩
    have hzero := hsave (natPoolAlloc_eq_none_iff.mp halloc) hold
    have hown := ((h.block b).isLive hfree).2.2
    unfold Owns at hown
    rw [hcb]
    cases hvia : s.viaMap b with
    | true =>
      rw [hvia] at hown
      exact absurd (hown.1.symm.trans hzero) (poolPort_ne_zero b)
    | false =>
      rw [hvia] at hown
      exact ⟨hown.2, hown.1⟩

theorem Table.new {s s₁ : State n} (h : Table s) {a : Fin n.val} {ipaddr : Addr} {port : Port}
    {proto : Proto} (hnew : natNew s ipaddr port proto = some (a, s₁)) : Entered s₁ a proto ∧
      ((s.free = [] → natOldest s = some a → (s.cb a).assPortSave = 0#16) →
        (s₁.cb a).assPort = poolPort a ∧ (s₁.cb a).assPortSave = 0#16) := by
  unfold natNew at hnew
  obtain ⟨⟨b, s₀⟩, htake, heq⟩ := Option.map_eq_some_iff.mp hnew
  simp only [Prod.mk.injEq] at heq
  obtain ⟨rfl, rfl⟩ := heq
  obtain ⟨htaken, hport⟩ := h.take htake
  refine ⟨htaken.setUp ipaddr port proto, fun hsave => ?_⟩
  unfold natSetUp
  simpa using hport hsave

theorem Table.recycled {s s₁ : State n} (h : Table s) {a : Fin n.val} {ipaddr : Addr} {port : Port}
    {proto : Proto} (hnew : natNew s ipaddr port proto = some (a, s₁)) (hfree : s.free = []) :
    natOldest s = some a ∧ (s₁.cb a).assPort = (s.cb a).assPort ∧ s₁.free = [] := by
  unfold natNew natTake at hnew
  rw [natPoolAlloc_eq_none_iff.mpr hfree] at hnew
  obtain ⟨⟨b, s₀⟩, htake, heq⟩ := Option.map_eq_some_iff.mp hnew
  obtain ⟨c, hold, hc⟩ := Option.map_eq_some_iff.mp htake
  simp only [Prod.mk.injEq] at heq hc
  obtain ⟨rfl, rfl⟩ := hc
  obtain ⟨rfl, rfl⟩ := heq
  obtain ⟨k, hk⟩ := natOldest_mem hold
  have hnot := (h.block c).not_free hk
  obtain ⟨⟨-, proto', hproto, -, -⟩, hin, -⟩ := (h.block c).isLive hnot
  rw [natUnlink_eq hin hproto]
  unfold natSetUp
  refine ⟨hold, ?_, hfree⟩
  simp [State.setCb]

theorem Table.translateOut {s : State n} (h : Table s) (a : Fin n.val) (p : Packet)
    (netifOut : Addr) : Table (NatLib.translateOut s a p netifOut).2 :=
  h.touch (sameKeys_afterOut _ _)

theorem Table.outThrough {s s₁ : State n} (h : Table s) {p : Packet} {proto : Proto}
    {a : Fin n.val} {new : Bool}
    (hc : outSession s p proto = none → s.free = [] → ∀ b, natOldest s = some b →
      (s.cb b).assPortSave = 0#16)
    (hthrough : NatLib.outThrough s p proto = some ((a, new), s₁)) : Table s₁ := by
  unfold NatLib.outThrough at hthrough
  split at hthrough
  · simp only [Option.some.injEq, Prod.mk.injEq] at hthrough
    rw [← hthrough.2]
    exact h
  · next hnone =>
    obtain ⟨⟨b, s₀⟩, hnew, heq⟩ := Option.map_eq_some_iff.mp hthrough
    simp only [Prod.mk.injEq] at heq
    rw [← heq.2]
    obtain ⟨hentered, hport⟩ := h.new hnew
    have hfields := hport fun hfree hold => hc hnone hfree b hold
    apply hentered.hashed false
    exact ⟨hfields.2, hfields.1⟩

theorem Table.output {s s' : State n} (h : Table s) {p : Packet} {forwarded : Bool}
    {netifOut : Addr} {v : Verdict}
    (hc : NoMappedRecycled s (.output p forwarded netifOut))
    (hout : natApOutput s p forwarded netifOut = some (v, s')) : Table s' := by
  unfold natApOutput at hout
  unfold NoMappedRecycled creates at hc
  have hkeep : ∀ {v' : Verdict}, some (v', s) = some (v, s') → Table s' := by
    intro v' heq
    simp only [Option.some.injEq, Prod.mk.injEq] at heq
    rw [← heq.2]
    exact h
  cases hproto : p.payload.proto with
  | none =>
    simp only [hproto] at hout
    exact hkeep hout
  | some proto =>
    simp only [hproto] at hout hc
    split at hout
    · next hwhole =>
      split at hout
      · exact hkeep hout
      · next hdhcp =>
        obtain ⟨⟨⟨a, new⟩, s₁⟩, hthrough, heq⟩ := Option.map_eq_some_iff.mp hout
        simp only [Prod.mk.injEq] at heq
        rw [← heq.2]
        apply Table.translateOut
        have hgo : (forwarded || !p.payload.dhcpOut) = true := by
          cases forwarded <;> simp_all
        apply h.outThrough _ hthrough
        exact fun hnone => hc (by simp [hwhole, hgo, hnone])
    · exact hkeep hout

theorem Table.mapInput {s s' : State n} (h : Table s) {p : Packet} {proto : Proto} {map : NatMap}
    {netifIn : Addr} {v : Verdict} (hmap : map ∈ s.maps)
    (hc : mapSession s p.payload.destPort proto (map.hash p.src) = none → s.free = [] →
      ∀ b, natOldest s = some b → (s.cb b).assPortSave = 0#16)
    (hin : NatLib.mapInput s p proto map netifIn = some (v, s')) : Table s' := by
  unfold NatLib.mapInput at hin
  dsimp only at hin
  split at hin
  · next a _ =>
    simp only [Option.some.injEq, Prod.mk.injEq] at hin
    rw [← hin.2]
    exact h.touch ⟨rfl, rfl, rfl, rfl, rfl, rfl⟩
  · next hnone =>
    obtain ⟨⟨a, s₁⟩, hnew, heq⟩ := Option.map_eq_some_iff.mp hin
    simp only [Prod.mk.injEq] at heq
    rw [← heq.2]
    obtain ⟨hentered, hport⟩ := h.new hnew
    have hfields := hport fun hfree hold => hc hnone hfree a hold
    have hset : Entered (s₁.setCb a { s₁.cb a with
        mapHash := map.hash p.src, assPortSave := (s₁.cb a).assPort, assPort := map.assPort }) a
        proto := hentered.setCb rfl rfl rfl
    apply hset.hashed true
    rw [setCb_cb_self]
    exact ⟨hfields.1, h.maps map hmap⟩

theorem Table.input {s s' : State n} (h : Table s) {p : Packet} {netifIn : Addr} {v : Verdict}
    (hc : NoMappedRecycled s (.input p netifIn))
    (hin : natApInput s p netifIn = some (v, s')) : Table s' := by
  unfold natApInput at hin
  unfold NoMappedRecycled creates at hc
  have hkeep : ∀ {v' : Verdict}, some (v', s) = some (v, s') → Table s' := by
    intro v' heq
    simp only [Option.some.injEq, Prod.mk.injEq] at heq
    rw [← heq.2]
    exact h
  cases hproto : p.payload.proto with
  | none =>
    simp only [hproto] at hin
    exact hkeep hin
  | some proto =>
    simp only [hproto] at hin hc
    split at hin
    · next hwhole =>
      split at hin
      · split at hin
        · next a _ =>
          simp only [Option.some.injEq, Prod.mk.injEq] at hin
          rw [← hin.2]
          exact h.touch (sameKeys_afterIn _ _)
        · split at hin
          · exact hkeep hin
          · exact hkeep hin
      · next hpool =>
        split at hin
        · exact hkeep hin
        · next hdhcp =>
          split at hin
          · next map hmap =>
            apply h.mapInput (List.mem_of_find?_eq_some hmap) _ hin
            intro hnone
            apply hc
            simp [hwhole, hpool, hdhcp, hmap, hnone]
          · exact hkeep hin
    · exact hkeep hin

theorem Table.congr {s s' : State n} (h : Table s) (hfree : s'.free = s.free)
    (hsession : s'.session = s.session) (hass : s'.assHash = s.assHash) (hcb : s'.cb = s.cb)
    (hvia : s'.viaMap = s.viaMap) (hmaps : ∀ map ∈ s'.maps, Outside n map.assPort) : Table s' := by
  refine ⟨⟨?_, ?_, ?_⟩, ?_, hmaps⟩
  · rw [hfree]
    exact h.lists.free
  · rw [hsession]
    exact h.lists.session
  · rw [hass]
    exact h.lists.assHash
  · intro a
    apply Same.block _ (h.block a)
    exact ⟨by rw [hfree], by rw [hsession]; simp, by rw [hass]; simp, by rw [hcb], by rw [hvia]⟩

theorem Table.mapAdd {s : State n} (h : Table s) (map : NatMap) : Table (natMapAdd s map).2 := by
  unfold natMapAdd
  split
  · exact h
  · next hout =>
    refine h.congr rfl rfl rfl rfl rfl ?_
    intro m hm
    obtain rfl | hm := List.mem_cons.mp hm
    · exact hout
    · exact h.maps m hm

theorem Table.mapDelete {s : State n} (h : Table s) (ipaddr : Addr) (port assPort : Port)
    (proto : Option Proto) : Table (natMapDelete s ipaddr port assPort proto).2 := by
  unfold natMapDelete
  dsimp only
  split
  · refine h.congr rfl rfl rfl rfl rfl ?_
    exact fun m hm => h.maps m (List.mem_of_mem_erase hm)
  · exact h

theorem Table.aliasDelete {s : State n} (h : Table s) (ipaddr : Addr) :
    Table (natAliasDelete s ipaddr).2 := by
  unfold natAliasDelete
  split
  · exact h.congr rfl rfl rfl rfl rfl h.maps
  · exact h

theorem Table.timerSession {s : State n} (h : Table s) {a : Fin n.val} (hfree : a ∉ s.free)
    (idlTo period : Nat) (proto : Proto) :
    Table (NatLib.timerSession idlTo period proto s a) ∧
      ∀ b, b ≠ a → (b ∈ (NatLib.timerSession idlTo period proto s a).free ↔ b ∈ s.free) := by
  have htouch : Table (s.setCb a { s.cb a with idleTimer := (s.cb a).idleTimer + period }) :=
    h.touch ⟨rfl, rfl, rfl, rfl, rfl, rfl⟩
  have hclose : ∀ b, b ≠ a →
      (b ∈ (natClose (s.setCb a { s.cb a with idleTimer := (s.cb a).idleTimer + period }) a).free ↔
        b ∈ s.free) := by
    intro b hb
    exact ((same_natUnlink _ hb).trans (same_natPoolFree _ hb)).free
  unfold NatLib.timerSession
  dsimp only
  split
  · exact ⟨htouch.close hfree, hclose⟩
  · split
    · exact ⟨htouch.close hfree, hclose⟩
    · exact ⟨htouch, fun b _ => Iff.rfl⟩

theorem Table.timerSessions {s : State n} (h : Table s) (idlTo period : Nat) (proto : Proto)
    {l : List (Fin n.val)} (nodup : l.Nodup) (hl : ∀ a ∈ l, a ∉ s.free) :
    Table (l.foldl (NatLib.timerSession idlTo period proto) s) := by
  induction l generalizing s with
  | nil => exact h
  | cons a l ih =>
    obtain ⟨hfresh, hrest⟩ := List.nodup_cons.mp nodup
    obtain ⟨htable, hframe⟩ := h.timerSession (hl a List.mem_cons_self) idlTo period proto
    apply ih htable hrest
    intro b hb hin
    have hne : b ≠ a := fun e => hfresh (e ▸ hb)
    exact hl b (List.mem_cons_of_mem a hb) ((hframe b hne).mp hin)

theorem Table.timerList {s : State n} (h : Table s) (idlTo period : Nat) (key : Proto × Nat) :
    Table (NatLib.timerList idlTo period s key) :=
  h.timerSessions idlTo period key.1 (h.lists.session key) fun a ha => (h.block a).not_free ha

theorem Table.timer {s : State n} (h : Table s) (idlTo period : Nat) :
    Table (natTimer idlTo s period) := by
  have hloop : ∀ (proto : Proto) (is : List Nat) (s : State n), Table s →
      Table (is.foldl (fun s i => NatLib.timerList idlTo period s (proto, i)) s) := by
    intro proto is
    induction is with
    | nil => exact fun s hs => hs
    | cons i is ih => exact fun s hs => ih _ (hs.timerList idlTo period (proto, i))
  unfold natTimer
  exact hloop .icmp _ _ (hloop .udp _ _ (hloop .tcp _ _ h))

theorem Table.step {idlTo : Nat} {s s' : State n} (h : Table s) {a : Act}
    (hc : NoMappedRecycled s a) (hstep : NatLib.step idlTo s a = some s') : Table s' := by
  cases a with
  | output p forwarded netifOut =>
    obtain ⟨⟨v, s₁⟩, hout, rfl⟩ := Option.map_eq_some_iff.mp hstep
    exact h.output hc hout
  | input p netifIn =>
    obtain ⟨⟨v, s₁⟩, hin, rfl⟩ := Option.map_eq_some_iff.mp hstep
    exact h.input hc hin
  | mapAdd map =>
    obtain rfl := Option.some.inj hstep
    exact h.mapAdd map
  | mapDelete ipaddr port assPort proto =>
    obtain rfl := Option.some.inj hstep
    exact h.mapDelete ipaddr port assPort proto
  | aliasAdd entry =>
    obtain rfl := Option.some.inj hstep
    exact h.congr rfl rfl rfl rfl rfl h.maps
  | aliasDelete ipaddr =>
    obtain rfl := Option.some.inj hstep
    exact h.aliasDelete ipaddr
  | timer period =>
    obtain rfl := Option.some.inj hstep
    exact h.timer idlTo period

theorem table_natPoolInit (heap : Fin n.val → NatCb) : Table (natPoolInit heap) := by
  refine ⟨⟨List.nodup_finRange n.val, fun _ => List.nodup_nil, fun _ => List.nodup_nil⟩, ?_, ?_⟩
  · intro a
    exact Or.inl ⟨⟨List.mem_finRange a, fun _ => List.not_mem_nil, fun _ => List.not_mem_nil⟩, rfl⟩
  · exact fun map hmap => absurd hmap List.not_mem_nil

theorem Kept.held_mem {s : State n} (h : Kept s) (a : Fin n.val) :
    ∃ b : Fin n.val, heldPort s a = poolPort b := by
  have hmem : heldPort s a ∈ (List.finRange n.val).map (heldPort s) :=
    List.mem_map_of_mem (List.mem_finRange a)
  obtain ⟨b, -, hb⟩ := List.mem_map.mp (h.ports.mem_iff.mp hmem)
  exact ⟨b, hb.symm⟩

theorem Table.mapped {s : State n} (h : Table s) {a : Fin n.val} (hold : natOldest s = some a)
    (hsave : (s.cb a).assPortSave ≠ 0#16) : Outside n (s.cb a).assPort := by
  obtain ⟨k, hk⟩ := natOldest_mem hold
  have hown := ((h.block a).isLive ((h.block a).not_free hk)).2.2
  unfold Owns at hown
  cases hvia : s.viaMap a with
  | true =>
    rw [hvia] at hown
    exact hown.2
  | false =>
    rw [hvia] at hown
    exact absurd hown.1 hsave

theorem natAssHashAdd_assPort (s : State n) (a : Fin n.val) :
    ((natAssHashAdd s a).cb a).assPort = (s.cb a).assPort ∧
      ((natAssHashAdd s a).cb a).assPortSave = (s.cb a).assPortSave ∧
      (natAssHashAdd s a).free = s.free := by
  unfold natAssHashAdd
  dsimp only
  split
  · exact ⟨rfl, rfl, rfl⟩
  · split
    · simp [State.setCb]
    · simp [State.setCb]

theorem Table.output_exact {s s' : State n} (h : Table s) {p : Packet} {forwarded : Bool}
    {netifOut : Addr} {v : Verdict} (hout : natApOutput s p forwarded netifOut = some (v, s'))
    (hkept : Kept s') : NoMappedRecycled s (.output p forwarded netifOut) := by
  intro hcreates hfree b hold
  by_contra hsave
  have houtside := h.mapped hold hsave
  unfold natApOutput at hout
  unfold creates at hcreates
  cases hproto : p.payload.proto with
  | none => simp [hproto] at hcreates
  | some proto =>
    simp only [hproto, Bool.and_eq_true, Option.isNone_iff_eq_none] at hout hcreates
    obtain ⟨⟨hwhole, hgo⟩, hnone⟩ := hcreates
    have hdhcp : ¬ ((!forwarded) = true ∧ p.payload.dhcpOut = true) := by
      cases forwarded <;> simp_all
    rw [if_pos hwhole, if_neg hdhcp] at hout
    unfold NatLib.outThrough at hout
    rw [hnone] at hout
    obtain ⟨through, hthrough, heq⟩ := Option.map_eq_some_iff.mp hout
    obtain ⟨⟨a, s₁⟩, hnew, rfl⟩ := Option.map_eq_some_iff.mp hthrough
    obtain ⟨hold', hport, hfree₁⟩ := h.recycled hnew hfree
    obtain rfl := Option.some.inj (hold.symm.trans hold')
    obtain ⟨hass, -, hfree₂⟩ := natAssHashAdd_assPort s₁ b
    simp only [Prod.mk.injEq] at heq
    obtain ⟨-, heq⟩ := heq
    have hfree' : s'.free = [] := by
      rw [← heq]
      exact hfree₂.trans hfree₁
    have hvia : s'.viaMap b = false := by
      rw [← heq]
      show Function.update (natAssHashAdd s₁ b).viaMap b false b = false
      rw [Function.update_self]
    have hport' : (s'.cb b).assPort = (s.cb b).assPort := by
      rw [← heq]
      unfold NatLib.translateOut
      dsimp only
      rw [setCb_cb_self, (sameKeys_afterOut _ _).assPort]
      exact hass.trans hport
    obtain ⟨c, hc⟩ := hkept.outbound b (by rw [hfree']; exact List.not_mem_nil) hvia
    exact houtside.ne_poolPort c (hport'.symm.trans hc)

theorem Table.input_exact {s s' : State n} (h : Table s) {p : Packet} {netifIn : Addr} {v : Verdict}
    (hin : natApInput s p netifIn = some (v, s')) (hkept : Kept s') :
    NoMappedRecycled s (.input p netifIn) := by
  intro hcreates hfree b hold
  by_contra hsave
  have houtside := h.mapped hold hsave
  unfold natApInput at hin
  unfold creates at hcreates
  cases hproto : p.payload.proto with
  | none => simp [hproto] at hcreates
  | some proto =>
    simp only [hproto, Bool.and_eq_true, Bool.not_eq_true', Option.any_eq_true] at hin hcreates
    obtain ⟨⟨⟨hwhole, hpool⟩, hdhcp⟩, map, hmap, hnone⟩ := hcreates
    rw [Option.isNone_iff_eq_none] at hnone
    rw [if_pos hwhole, hpool, hdhcp, hmap] at hin
    simp only [Bool.false_eq_true, if_false] at hin
    unfold NatLib.mapInput at hin
    dsimp only at hin
    rw [hnone] at hin
    obtain ⟨⟨a, s₁⟩, hnew, heq⟩ := Option.map_eq_some_iff.mp hin
    obtain ⟨hold', hport, hfree₁⟩ := h.recycled hnew hfree
    obtain rfl := Option.some.inj (hold.symm.trans hold')
    simp only [Prod.mk.injEq] at heq
    obtain ⟨-, heq⟩ := heq
    have hheld : heldPort s' b = (s.cb b).assPort := by
      rw [← heq]
      unfold heldPort
      obtain ⟨-, hsave', hfree₂⟩ := natAssHashAdd_assPort (s₁.setCb b { s₁.cb b with
        mapHash := map.hash p.src, assPortSave := (s₁.cb b).assPort, assPort := map.assPort }) b
      rw [if_pos]
      · dsimp only
        rw [hsave', setCb_cb_self]
        exact hport
      · dsimp only
        refine ⟨?_, by rw [Function.update_self]⟩
        rw [hfree₂]
        show b ∉ s₁.free
        rw [hfree₁]
        exact List.not_mem_nil
    obtain ⟨c, hc⟩ := hkept.held_mem b
    exact houtside.ne_poolPort c (hheld.symm.trans hc)

/-- The tables and the ports are kept along a run exactly when no new session of the run takes the
control block of a session that was created through a map. -/
theorem sessions_kept_iff (n : MaxSession) (idlTo : Nat) (heap : Fin n.val → NatCb)
    (acts : List Act) :
    Visits (step idlTo) Kept (natPoolInit heap) acts ↔
      Obeys (step idlTo) NoMappedRecycled (natPoolInit heap) acts := by
  apply visits_iff_obeys (I := Table)
  · exact fun s a s' h hc hstep => h.step hc hstep
  · exact fun s h => h.kept
  · intro s a s' h hstep hkept
    cases a with
    | output p forwarded netifOut =>
      obtain ⟨⟨v, s₁⟩, hout, rfl⟩ := Option.map_eq_some_iff.mp hstep
      exact h.output_exact hout hkept
    | input p netifIn =>
      obtain ⟨⟨v, s₁⟩, hin, rfl⟩ := Option.map_eq_some_iff.mp hstep
      exact h.input_exact hin hkept
    | _ => exact fun hcreates => absurd hcreates (by simp [creates])
  · exact table_natPoolInit heap

/-! A web server behind a map gets one connection. Then 128 local connections use up the pool, and
the last of them is given the control block of the server. -/

def leastSession : MaxSession := ⟨128, Nat.le_refl 128, by decide⟩

def clearCb : NatCb :=
  ⟨false, none, 0, 0#32, 0#16, 0#16, 0#16, 0#32, 0#32, 0, .open⟩

def synOnly : TcpFlags := ⟨false, true, false, false⟩

def fromRemote : Packet :=
  ⟨40, 5, 0x08080808#32, 0x04030201#32, 0#16,
    .tcp (htons 5000) (htons 8080) 0#32 0#32 synOnly 0#16⟩

def fromLocal (i : Nat) : Packet :=
  ⟨40, 5, 0x0201a8c0#32, 0x08080808#32, 0#16,
    .tcp (htons (256 * i)) (htons 80) 0#32 0#32 synOnly 0#16⟩

def recycleActs : List Act :=
  [.mapAdd ⟨some .tcp, 0x0101a8c0#32, 1, htons 80, htons 8080⟩,
    .input fromRemote 0x04030201#32, .timer 5] ++
    (List.range 128).map fun i => .output (fromLocal i) true 0x04030201#32

/-- The last connection goes out under the port of the map. -/
theorem mapped_session_recycled :
    ¬ Visits (step 600) Kept (natPoolInit (n := leastSession) fun _ => clearCb) recycleActs := by
  intro hvisits
  have hend : (run (step 600) (natPoolInit (n := leastSession) fun _ => clearCb) recycleActs).map
      (fun s => (s.free, s.viaMap ⟨0, by decide⟩, (s.cb ⟨0, by decide⟩).assPort)) =
        some ([], false, htons 8080) := by
    decide +kernel
  obtain ⟨s, hrun, hs⟩ := Option.map_eq_some_iff.mp hend
  simp only [Prod.mk.injEq] at hs
  obtain ⟨hfree, hvia, hport⟩ := hs
  obtain ⟨b, hb⟩ := (hvisits.last hrun).outbound ⟨0, by decide⟩ (by simp [hfree]) hvia
  have houtside : Outside leastSession (htons 8080) := by
    unfold Outside
    decide
  exact houtside.ne_poolPort b (hport.symm.trans hb)

end SylixOS.NatLib
