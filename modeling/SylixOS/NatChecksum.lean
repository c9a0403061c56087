import SylixOS.NatRuns
import SylixOS.OnesSum

/-! The checksums of the packets that the address translation lets through. The sum of a header is
brought up to date from the words that were exchanged. -/

namespace SylixOS.NatLib
open OnesSum Function

variable {n : MaxSession}

theorem ntohs_le (p : Port) : ntohs p ≤ 65535 := by
  have hlt := p.isLt
  unfold ntohs
  omega

theorem ntohs_eq_zero_iff (p : Port) : ntohs p = 0 ↔ p = 0#16 := by
  rw [BitVec.toNat_eq]
  have hzero : (0#16).toNat = 0 := rfl
  rw [hzero]
  have hlt := p.isLt
  unfold ntohs
  omega

theorem halves_le (a : Addr) : ∀ w ∈ halves a, w ≤ 65535 := by
  intro w hw
  rcases List.mem_cons.mp hw with rfl | hw
  · exact ntohs_le _
  · rw [List.mem_singleton.mp hw]
    exact ntohs_le _

theorem subtract_words (old : List ℕ) : ∀ x : ℤ, (∀ o ∈ old, o ≤ 65535) → 0 ≤ x → x ≤ 65535 →
    ∃ y : ℤ, old.foldl (fun (x : ℤ) (o : ℕ) =>
        if x - o ≤ 0 then (x - o - 1) % 65536 else x - o) x = y ∧
      0 ≤ y ∧ y ≤ 65535 ∧ (y + old.sum) % 65535 = x % 65535 ∧
      (y = 0 ↔ x = 0 ∧ ∀ o ∈ old, o = 65535) := by
  induction old with
  | nil => exact fun x _ h0 h1 => ⟨x, rfl, h0, h1, by simp, by simp⟩
  | cons o old ih =>
    intro x hold h0 h1
    have ho := hold o List.mem_cons_self
    obtain ⟨x', hx', hstep⟩ : ∃ x' : ℤ,
        (if x - o ≤ 0 then (x - o - 1) % 65536 else x - o) = x' ∧ 0 ≤ x' ∧ x' ≤ 65535 ∧
          (x' + o) % 65535 = x % 65535 ∧ (x' = 0 ↔ x = 0 ∧ o = 65535) := by
      refine ⟨_, rfl, ?_⟩
      split_ifs <;> omega
    obtain ⟨hge, hle, hmod, hzero⟩ := hstep
    obtain ⟨y, hy, hge', hle', hmod', hzero'⟩ :=
      ih x' (fun w hw => hold w (List.mem_cons_of_mem o hw)) hge hle
    refine ⟨y, by rw [List.foldl_cons, hx', hy], hge', hle', ?_, ?_⟩
    · rw [List.sum_cons]
      omega
    · rw [hzero', hzero, List.forall_mem_cons, and_assoc]

theorem add_words (new : List ℕ) : ∀ x : ℤ, (∀ w ∈ new, w ≤ 65535) → 0 ≤ x → x ≤ 65535 →
    ∃ y : ℤ, new.foldl (fun (x : ℤ) (w : ℕ) =>
        if 65536 ≤ x + w then (x + w + 1) % 65536 else x + w) x = y ∧
      0 ≤ y ∧ y ≤ 65535 ∧ y % 65535 = (x + new.sum) % 65535 ∧
      (y = 0 ↔ x = 0 ∧ ∀ w ∈ new, w = 0) := by
  induction new with
  | nil => exact fun x _ h0 h1 => ⟨x, rfl, h0, h1, by simp, by simp⟩
  | cons w new ih =>
    intro x hnew h0 h1
    have hw := hnew w List.mem_cons_self
    obtain ⟨x', hx', hstep⟩ : ∃ x' : ℤ,
        (if 65536 ≤ x + w then (x + w + 1) % 65536 else x + w) = x' ∧ 0 ≤ x' ∧ x' ≤ 65535 ∧
          x' % 65535 = (x + w) % 65535 ∧ (x' = 0 ↔ x = 0 ∧ w = 0) := by
      refine ⟨_, rfl, ?_⟩
      split_ifs <;> omega
    obtain ⟨hge, hle, hmod, hzero⟩ := hstep
    obtain ⟨y, hy, hge', hle', hmod', hzero'⟩ :=
      ih x' (fun v hv => hnew v (List.mem_cons_of_mem w hv)) hge hle
    refine ⟨y, by rw [List.foldl_cons, hx', hy], hge', hle', ?_, ?_⟩
    · rw [List.sum_cons]
      omega
    · rw [hzero', hzero, List.forall_mem_cons, and_assoc]

def AllOnes (chksum : Port) (old new : List ℕ) : Prop :=
  ntohs chksum = 65535 ∧ (∀ o ∈ old, o = 65535) ∧ ∀ w ∈ new, w = 0

instance (chksum : Port) (old new : List ℕ) : Decidable (AllOnes chksum old new) :=
  inferInstanceAs (Decidable (_ ∧ _))

theorem inetChksumAdjust_spec (chksum : Port) {old new : List ℕ} (hold : ∀ o ∈ old, o ≤ 65535)
    (hnew : ∀ w ∈ new, w ≤ 65535) :
    (ntohs (inetChksumAdjust chksum old new) + new.sum) % 65535 =
        (ntohs chksum + old.sum) % 65535 ∧
      (ntohs (inetChksumAdjust chksum old new) = 65535 ↔ AllOnes chksum old new) := by
  have hfield := ntohs_le chksum
  obtain ⟨y, hy, hge, hle, hmod, hzero⟩ :=
    subtract_words old (65535 - ntohs chksum) hold (by omega) (by omega)
  obtain ⟨z, hz, hge', hle', hmod', hzero'⟩ := add_words new y hnew hge hle
  have hnew : ntohs (inetChksumAdjust chksum old new) = (65535 - z).toNat := by
    have hvalue : inetChksumAdjust chksum old new = htons (65535 - z).toNat := by
      unfold inetChksumAdjust
      dsimp only
      rw [hy, hz, Int.emod_eq_of_lt hge' (by omega)]
    rw [hvalue, ntohs_htons (by omega)]
  rw [hnew]
  refine ⟨by omega, ?_⟩
  have hfirst : (65535 - z).toNat = 65535 ↔ z = 0 := by omega
  have hlast : (65535 - (ntohs chksum : ℤ) = 0) ↔ ntohs chksum = 65535 := by omega
  rw [hfirst, hzero', hzero, hlast, AllOnes, and_assoc]

def Payload.others : Payload → List ℕ
  | .tcp src dest seqno ackno _ _ =>
    [ntohs src, ntohs dest] ++ (halves seqno ++ halves ackno)
  | .udp src dest _ => [ntohs src, ntohs dest]
  | .icmp type code id _ => [type.toNat * 256 + code.toNat, ntohs id]
  | .other => []

def Payload.chksum : Payload → Port
  | .tcp _ _ _ _ _ chksum => chksum
  | .udp _ _ chksum => chksum
  | .icmp _ _ _ chksum => chksum
  | .other => 0#16

def Payload.carries : Payload → Bool
  | .udp _ _ chksum => chksum ≠ 0#16
  | .other => false
  | _ => true

/-- A packet with the words that have no field in `Packet`: the first word of the IP header and
those of its rest, the length of what is behind it, and what is there besides the fields of the
payload, with a zero byte behind an odd number of bytes. -/
structure Datagram where
  packet : Packet
  version : Port
  version_four : ntohs version / 4096 = 4
  header : List Port
  length : Port
  rest : List Port
  /-- an ICMP packet is an echo or its reply -/
  echo : ∀ type code id chksum, packet.payload = .icmp type code id chksum →
    (type = 8#8 ∨ type = 0#8) ∧ code = 0#8

def Datagram.ipWords (d : Datagram) (p : Packet) : List ℕ :=
  ntohs p.chksum :: ntohs d.version :: (d.header.map ntohs ++ (halves p.src ++ halves p.dest))

def Datagram.pseudo (d : Datagram) (p : Packet) : List ℕ :=
  match p.payload with
  | .tcp .. => [6, ntohs d.length] ++ (halves p.src ++ halves p.dest)
  | .udp .. => [17, ntohs d.length] ++ (halves p.src ++ halves p.dest)
  | _ => []

def Datagram.others (d : Datagram) (p : Packet) : List ℕ :=
  d.pseudo p ++ (p.payload.others ++ d.rest.map ntohs)

def Datagram.Valid (d : Datagram) (p : Packet) : Prop :=
  total 65535 (d.ipWords p) = 65535 ∧
    (p.payload.carries = true → total 65535 (ntohs p.payload.chksum :: d.others p) = 65535)

/-- The checksums are valid behind the translation, and none has been lost. -/
def Datagram.Kept (d : Datagram) (p : Packet) : Prop :=
  d.Valid p ∧ (d.packet.payload.carries = true → p.payload.carries = true)

def Payload.withSrc (q : Payload) (port : Port) : Payload :=
  match q with
  | .tcp _ dest seqno ackno flags chksum => .tcp port dest seqno ackno flags chksum
  | .udp _ dest chksum => .udp port dest chksum
  | .icmp type code _ chksum => .icmp type code port chksum
  | .other => .other

def Payload.withDest (q : Payload) (port : Port) : Payload :=
  match q with
  | .tcp src _ seqno ackno flags chksum => .tcp src port seqno ackno flags chksum
  | .udp src _ chksum => .udp src port chksum
  | .icmp type code _ chksum => .icmp type code port chksum
  | .other => .other

def Packet.withSrc (p : Packet) (e : Addr × Port) : Packet :=
  { p with src := e.1, payload := p.payload.withSrc e.2 }

def Packet.withDest (p : Packet) (e : Addr × Port) : Packet :=
  { p with dest := e.1, payload := p.payload.withDest e.2 }

def Payload.exchanged (q : Payload) (e : Addr × Port) : List ℕ :=
  match q with
  | .tcp .. => halves e.1 ++ [ntohs e.2]
  | .udp .. => halves e.1 ++ [ntohs e.2]
  | .icmp .. => [ntohs e.2]
  | .other => []

def outEnd (s : State n) (p : Packet) (forwarded : Bool) (netifOut : Addr) : Option (Addr × Port) :=
  match p.payload.proto with
  | none => none
  | some proto =>
    if p.whole then
      if !forwarded && p.payload.dhcpOut then none
      else
        (outThrough s p proto).map fun through =>
          (externalAddr through.2 p.src netifOut, (through.2.cb through.1.1).assPort)
    else none

def inEnd (s : State n) (p : Packet) (netifIn : Addr) : Option (Addr × Port) :=
  match p.payload.proto with
  | none => none
  | some proto =>
    if p.whole then
      if inPool n proto p.payload.destPort then
        (inSession s p.payload.destPort proto).map fun a =>
          ((s.cb a).ipaddrLocal, (s.cb a).localPort)
      else if p.payload.dhcpIn then none
      else
        (inMap s p.payload.destPort proto).map fun map =>
          (match mapSession s p.payload.destPort proto (map.hash p.src) with
            | some a => (s.cb a).ipaddrLocal
            | none => map.target (map.hash p.src) netifIn, map.localPort)
    else none

/-- A checksum that comes out as 0 where it may not: a UDP packet whose other words, with the new
end, have the sum zero, or an ICMP packet whose other words are all zero; but not when everything
was all ones before. -/
def Datagram.Vanishes (d : Datagram) (p : Packet) (old new : Addr × Port) : Prop :=
  d.packet.payload.carries = true ∧
    (match d.packet.payload with
      | .udp .. => 65535 ∣ (d.others p).sum
      | _ => (d.others p).sum = 0) ∧
    ¬AllOnes d.packet.payload.chksum (d.packet.payload.exchanged old)
      (d.packet.payload.exchanged new)

def Payload.adjusted (q : Payload) (old new : Addr × Port) : Port :=
  match q with
  | .icmp .. => adjustPort q.chksum old.2 new.2
  | _ => adjustPort (adjustAddr q.chksum old.1 new.1) old.2 new.2

def Payload.withChksum (q : Payload) (chksum : Port) : Payload :=
  match q with
  | .tcp src dest seqno ackno flags _ => .tcp src dest seqno ackno flags chksum
  | .udp src dest _ => .udp src dest chksum
  | .icmp type code id _ => .icmp type code id chksum
  | .other => .other

section Translation

variable {q : Payload} {old new : Addr × Port}

theorem adjustAddr_spec (chksum : Port) (a b : Addr) :
    (ntohs (adjustAddr chksum a b) + (halves b).sum) % 65535 =
        (ntohs chksum + (halves a).sum) % 65535 ∧
      (ntohs (adjustAddr chksum a b) = 65535 ↔ AllOnes chksum (halves a) (halves b)) :=
  inetChksumAdjust_spec chksum (halves_le a) (halves_le b)

theorem adjustPort_spec (chksum a b : Port) :
    (ntohs (adjustPort chksum a b) + ntohs b) % 65535 = (ntohs chksum + ntohs a) % 65535 ∧
      (ntohs (adjustPort chksum a b) = 65535 ↔ AllOnes chksum [ntohs a] [ntohs b]) := by
  have hle : ∀ p : Port, ∀ w ∈ [ntohs p], w ≤ 65535 := fun p w hw => by
    rw [List.mem_singleton.mp hw]
    exact ntohs_le p
  have hspec := inetChksumAdjust_spec chksum (hle a) (hle b)
  simp only [List.sum_cons, List.sum_nil, Nat.add_zero] at hspec
  exact hspec

theorem adjustEnd_spec (chksum : Port) (old new : Addr × Port) :
    (ntohs (adjustPort (adjustAddr chksum old.1 new.1) old.2 new.2) +
          (halves new.1 ++ [ntohs new.2]).sum) % 65535 =
        (ntohs chksum + (halves old.1 ++ [ntohs old.2]).sum) % 65535 ∧
      (ntohs (adjustPort (adjustAddr chksum old.1 new.1) old.2 new.2) = 65535 ↔
        AllOnes chksum (halves old.1 ++ [ntohs old.2]) (halves new.1 ++ [ntohs new.2])) := by
  obtain ⟨hsum, hones⟩ := adjustAddr_spec chksum old.1 new.1
  obtain ⟨hsum', hones'⟩ := adjustPort_spec (adjustAddr chksum old.1 new.1) old.2 new.2
  refine ⟨?_, ?_⟩
  · simp only [List.sum_append, List.sum_singleton]
    omega
  · rw [hones', AllOnes, hones, AllOnes, AllOnes]
    simp only [List.forall_mem_append]
    constructor
    · rintro ⟨⟨hfield, hold, hnew⟩, hold', hnew'⟩
      exact ⟨hfield, ⟨hold, hold'⟩, hnew, hnew'⟩
    · rintro ⟨hfield, ⟨hold, hold'⟩, hnew, hnew'⟩
      exact ⟨⟨hfield, hold, hnew⟩, hold', hnew'⟩

theorem adjusted_spec (hcarries : q.carries = true) :
    (ntohs (q.adjusted old new) + (q.exchanged new).sum) % 65535 =
        (ntohs q.chksum + (q.exchanged old).sum) % 65535 ∧
      (ntohs (q.adjusted old new) = 65535 ↔
        AllOnes q.chksum (q.exchanged old) (q.exchanged new)) := by
  cases q with
  | tcp | udp => exact adjustEnd_spec _ old new
  | icmp type code id chksum =>
    have hspec := adjustPort_spec chksum old.2 new.2
    simp only [Payload.adjusted, Payload.exchanged, Payload.chksum, List.sum_singleton]
    exact hspec
  | other => cases hcarries

theorem translateOut_eq (old : Addr) (new : Addr × Port) (hcarries : q.carries = true) :
    q.translateOut old new.1 new.2 =
      (q.withSrc new.2).withChksum (q.adjusted (old, q.srcPort) new) := by
  cases q with
  | tcp | icmp | other => rfl
  | udp src dest chksum =>
    have hne : chksum ≠ 0#16 := of_decide_eq_true hcarries
    rw [Payload.translateOut, if_pos hne]
    rfl

theorem translateIn_eq (old : Addr) (new : Addr × Port) (hcarries : q.carries = true)
    (hecho : ∀ type code id chksum, q = .icmp type code id chksum → code = 0#8) :
    q.translateIn old new.1 new.2 =
      (q.withDest new.2).withChksum (q.adjusted (old, q.destPort) new) := by
  cases q with
  | tcp | other => rfl
  | udp src dest chksum =>
    have hne : chksum ≠ 0#16 := of_decide_eq_true hcarries
    rw [Payload.translateIn, if_pos hne]
    rfl
  | icmp type code id chksum =>
    rw [Payload.translateIn, if_pos (Or.inr (hecho type code id chksum rfl))]
    rfl

theorem translateOut_plain (old : Addr) (new : Addr × Port) (hcarries : q.carries = false) :
    q.translateOut old new.1 new.2 = q := by
  cases q with
  | tcp | icmp => cases hcarries
  | other => rfl
  | udp src dest chksum =>
    rw [Payload.translateOut, if_neg (of_decide_eq_false hcarries)]

theorem translateIn_plain (old : Addr) (new : Addr × Port) (hcarries : q.carries = false) :
    q.translateIn old new.1 new.2 = q := by
  cases q with
  | tcp | icmp => cases hcarries
  | other => rfl
  | udp src dest chksum =>
    rw [Payload.translateIn, if_neg (of_decide_eq_false hcarries)]

end Translation

section Kept

variable {d : Datagram} {p : Packet} {old new : Addr × Port}

theorem map_ntohs_le (l : List Port) : ∀ w ∈ l.map ntohs, w ≤ 65535 := by
  intro w hw
  obtain ⟨p, -, rfl⟩ := List.mem_map.mp hw
  exact ntohs_le p

theorem pair_le {a b : ℕ} (ha : a ≤ 65535) (hb : b ≤ 65535) : ∀ w ∈ [a, b], w ≤ 65535 := by
  intro w hw
  rcases List.mem_cons.mp hw with rfl | hw
  · exact ha
  · rwa [List.mem_singleton.mp hw]

theorem append_le {l l' : List ℕ} (h : ∀ w ∈ l, w ≤ 65535) (h' : ∀ w ∈ l', w ≤ 65535) :
    ∀ w ∈ l ++ l', w ≤ 65535 :=
  List.forall_mem_append.mpr ⟨h, h'⟩

theorem payload_others_le (q : Payload) : ∀ w ∈ q.others, w ≤ 65535 := by
  cases q with
  | tcp src dest seqno ackno _ _ =>
    exact append_le (pair_le (ntohs_le _) (ntohs_le _)) (append_le (halves_le _) (halves_le _))
  | udp src dest _ => exact pair_le (ntohs_le _) (ntohs_le _)
  | icmp type code id _ =>
    have htype := type.isLt
    have hcode := code.isLt
    exact pair_le (by omega) (ntohs_le _)
  | other => exact fun w hw => absurd hw List.not_mem_nil

theorem others_le (d : Datagram) (p : Packet) : ∀ w ∈ d.others p, w ≤ 65535 := by
  refine append_le ?_ (append_le (payload_others_le _) (map_ntohs_le _))
  unfold Datagram.pseudo
  cases p.payload with
  | tcp | udp =>
    exact append_le (pair_le (by decide) (ntohs_le _)) (append_le (halves_le _) (halves_le _))
  | icmp | other => exact fun w hw => absurd hw List.not_mem_nil

theorem ipRest_le (d : Datagram) (p : Packet) : ∀ w ∈ ntohs d.version ::
    (d.header.map ntohs ++ (halves p.src ++ halves p.dest)), w ≤ 65535 :=
  List.forall_mem_cons.mpr ⟨ntohs_le _,
    append_le (map_ntohs_le _) (append_le (halves_le _) (halves_le _))⟩

theorem total_of_sum {c c' : ℕ} {ws ws' : List ℕ} (hc : c ≤ 65535) (hws : ∀ w ∈ ws, w ≤ 65535)
    (hc' : c' ≤ 65535) (hws' : ∀ w ∈ ws', w ≤ 65535) (hvalid : total 65535 (c :: ws) = 65535)
    (hsum : (c' + ws'.sum) % 65535 = (c + ws.sum) % 65535) :
    total 65535 (c' :: ws') = 65535 ↔ c' + ws'.sum ≠ 0 := by
  have hm : 0 < 65535 := by decide
  have hdvd := ((total_eq_max_iff hm (List.forall_mem_cons.mpr ⟨hc, hws⟩)).mp hvalid).1
  rw [List.sum_cons] at hdvd
  rw [total_eq_max_iff hm (List.forall_mem_cons.mpr ⟨hc', hws'⟩), List.sum_cons]
  constructor
  · exact fun h => h.2
  · exact fun h => ⟨by omega, h⟩

structure Datagram.Moves (d : Datagram) (p : Packet) (old new : Addr × Port) : Prop where
  payload : p.payload = d.packet.payload.withSrc new.2 ∨
    p.payload = d.packet.payload.withDest new.2
  ip : (halves p.src).sum + (halves p.dest).sum + (halves old.1).sum =
    (halves d.packet.src).sum + (halves d.packet.dest).sum + (halves new.1).sum
  others : (d.others p).sum + (d.packet.payload.exchanged old).sum =
    (d.others d.packet).sum + (d.packet.payload.exchanged new).sum

theorem moves_withSrc (d : Datagram) (new : Addr × Port) :
    d.Moves (d.packet.withSrc new) (d.packet.src, d.packet.payload.srcPort) new := by
  refine ⟨Or.inl rfl, ?_, ?_⟩
  · simp only [Packet.withSrc]
    omega
  · unfold Datagram.others Datagram.pseudo Packet.withSrc
    cases d.packet.payload with
    | tcp | udp | icmp =>
      simp only [Payload.withSrc, Payload.others, Payload.exchanged, Payload.srcPort,
        List.sum_append, List.sum_cons, List.sum_nil]
      omega
    | other => rfl

theorem moves_withDest (d : Datagram) (new : Addr × Port) :
    d.Moves (d.packet.withDest new) (d.packet.dest, d.packet.payload.destPort) new := by
  refine ⟨Or.inr rfl, ?_, ?_⟩
  · simp only [Packet.withDest]
    omega
  · unfold Datagram.others Datagram.pseudo Packet.withDest
    cases d.packet.payload with
    | tcp | udp | icmp =>
      simp only [Payload.withDest, Payload.others, Payload.exchanged, Payload.destPort,
        List.sum_append, List.sum_cons, List.sum_nil]
      omega
    | other => rfl

theorem Datagram.Moves.ip_valid (h : d.Moves p old new) (hvalid : d.Valid d.packet)
    (payload : Payload) : total 65535 (d.ipWords
      { p with chksum := adjustAddr d.packet.chksum old.1 new.1, payload := payload }) = 65535 := by
  have hip := h.ip
  have hspec := (adjustAddr_spec d.packet.chksum old.1 new.1).1
  have hversion := d.version_four
  refine (total_of_sum (ntohs_le _) (ipRest_le d _) (ntohs_le _) (ipRest_le d _) hvalid.1 ?_).mpr ?_
  · simp only [List.sum_cons, List.sum_append]
    omega
  · simp only [List.sum_cons]
    omega

theorem others_withChksum (d : Datagram) (p : Packet) (chksum c : Port) :
    d.others { p with chksum := chksum, payload := p.payload.withChksum c } = d.others p := by
  unfold Datagram.others Datagram.pseudo
  cases p.payload <;> rfl

theorem Datagram.Moves.kept_iff (h : d.Moves p old new) (hvalid : d.Valid d.packet)
    (hcarries : d.packet.payload.carries = true) :
    d.Kept { p with
      chksum := adjustAddr d.packet.chksum old.1 new.1
      payload := p.payload.withChksum (d.packet.payload.adjusted old new) } ↔
    ¬d.Vanishes p old new := by
  obtain ⟨hsum, hones⟩ := @adjusted_spec _ old new hcarries
  have hothers := h.others
  have hip := h.ip_valid hvalid
  have hold := hvalid.2 hcarries
  have hdvd : 65535 ∣ ntohs d.packet.payload.chksum + (d.others d.packet).sum := by
    rw [← List.sum_cons]
    exact ((total_eq_max_iff (by decide)
      (List.forall_mem_cons.mpr ⟨ntohs_le _, others_le d _⟩)).mp hold).1
  generalize hc : d.packet.payload.adjusted old new = c at *
  have hle := ntohs_le c
  have hnew := total_of_sum (ntohs_le _) (others_le d d.packet) hle (others_le d p) hold (by omega)
  -- the parts of the statement that do not depend on the protocol
  have hvalid' : d.Valid { p with
      chksum := adjustAddr d.packet.chksum old.1 new.1
      payload := p.payload.withChksum c } ↔
      ((p.payload.withChksum c).carries = true →
        total 65535 (ntohs (p.payload.withChksum c).chksum :: d.others p) = 65535) := by
    rw [Datagram.Valid, others_withChksum]
    exact ⟨fun hboth => hboth.2, fun hright => ⟨hip _, hright⟩⟩
  rw [Datagram.Kept, hvalid', Datagram.Vanishes, ← hones]
  have hkind := h.payload
  have hpseudo : d.others p = d.pseudo p ++ (p.payload.others ++ d.rest.map ntohs) := rfl
  cases hq : d.packet.payload with
  | other =>
    rw [hq] at hcarries
    cases hcarries
  | tcp src dest seqno ackno flags chksum =>
    obtain ⟨src', dest', hp⟩ : ∃ src' dest', p.payload =
        .tcp src' dest' seqno ackno flags chksum := by
      rw [hq] at hkind
      rcases hkind with hkind | hkind
      · exact ⟨_, _, hkind⟩
      · exact ⟨_, _, hkind⟩
    have hpos : 6 ≤ (d.others p).sum := by
      rw [hpseudo, Datagram.pseudo, hp]
      simp only [List.cons_append, List.sum_cons]
      omega
    have hchksum : (p.payload.withChksum c).chksum = c := by rw [hp]; rfl
    have hcarries' : (p.payload.withChksum c).carries = true := by rw [hp]; rfl
    rw [hchksum, hnew, hcarries']
    simp only [Payload.carries, true_and, imp_self, and_true, forall_const]
    exact iff_of_true (by omega) (by omega)
  | udp src dest chksum =>
    obtain ⟨src', dest', hp⟩ : ∃ src' dest', p.payload = .udp src' dest' chksum := by
      rw [hq] at hkind
      rcases hkind with hkind | hkind
      · exact ⟨_, _, hkind⟩
      · exact ⟨_, _, hkind⟩
    have hpos : 17 ≤ (d.others p).sum := by
      rw [hpseudo, Datagram.pseudo, hp]
      simp only [List.cons_append, List.sum_cons]
      omega
    have hchksum : (p.payload.withChksum c).chksum = c := by rw [hp]; rfl
    have hcarries' : (p.payload.withChksum c).carries = true ↔ ntohs c ≠ 0 := by
      rw [hp, Ne, ntohs_eq_zero_iff]
      exact decide_eq_true_iff
    rw [hq] at hcarries
    rw [hchksum, hnew, hcarries', hcarries]
    simp only [true_and, forall_const]
    omega
  | icmp type code id chksum =>
    obtain ⟨id', hp⟩ : ∃ id', p.payload = .icmp type code id' chksum := by
      rw [hq] at hkind
      rcases hkind with hkind | hkind
      · exact ⟨_, hkind⟩
      · exact ⟨_, hkind⟩
    have hchksum : (p.payload.withChksum c).chksum = c := by rw [hp]; rfl
    have hcarries' : (p.payload.withChksum c).carries = true := by rw [hp]; rfl
    rw [hchksum, hnew, hcarries']
    simp only [Payload.carries, true_and, imp_self, and_true, forall_const]
    omega

theorem Datagram.Moves.kept_plain (h : d.Moves p old new) (hvalid : d.Valid d.packet)
    (hcarries : d.packet.payload.carries = false) :
    d.Kept { p with
      chksum := adjustAddr d.packet.chksum old.1 new.1
      payload := d.packet.payload } ↔ ¬d.Vanishes p old new := by
  have hno : ¬d.packet.payload.carries = true := by simp [hcarries]
  exact iff_of_true ⟨⟨h.ip_valid hvalid _, fun hyes => absurd hyes hno⟩, fun hyes => absurd hyes hno⟩
    fun hlost => hno hlost.1

theorem kept_out_iff (hvalid : d.Valid d.packet) (new : Addr × Port) :
    d.Kept { d.packet with
      src := new.1
      chksum := adjustAddr d.packet.chksum d.packet.src new.1
      payload := d.packet.payload.translateOut d.packet.src new.1 new.2 } ↔
    ¬d.Vanishes (d.packet.withSrc new) (d.packet.src, d.packet.payload.srcPort) new := by
  have hmoves := moves_withSrc d new
  cases hcarries : d.packet.payload.carries with
  | true =>
    rw [translateOut_eq _ new hcarries]
    exact hmoves.kept_iff hvalid hcarries
  | false =>
    rw [translateOut_plain _ new hcarries]
    exact hmoves.kept_plain hvalid hcarries

theorem kept_in_iff (hvalid : d.Valid d.packet) (new : Addr × Port) :
    d.Kept (d.packet.translateIn new.1 new.2) ↔
      ¬d.Vanishes (d.packet.withDest new) (d.packet.dest, d.packet.payload.destPort) new := by
  have hmoves := moves_withDest d new
  rw [Packet.translateIn]
  cases hcarries : d.packet.payload.carries with
  | true =>
    rw [translateIn_eq _ new hcarries fun type code id chksum hq => (d.echo type code id chksum hq).2]
    exact hmoves.kept_iff hvalid hcarries
  | false =>
    rw [translateIn_plain _ new hcarries]
    exact hmoves.kept_plain hvalid hcarries

end Kept

section Directions

variable {s s' : State n} {p p' : Packet}

theorem passed_eq (h : (some (some p, s) : Option (Verdict × State n)) = some (some p', s')) :
    p' = p :=
  (Option.some.inj (Prod.mk.inj (Option.some.inj h)).1).symm

theorem natApOutput_cases {forwarded : Bool} {netifOut : Addr}
    (h : natApOutput s p forwarded netifOut = some (some p', s')) :
    outEnd s p forwarded netifOut = none ∧ p' = p ∨
      ∃ e, outEnd s p forwarded netifOut = some e ∧ p' = { p with
        src := e.1
        chksum := adjustAddr p.chksum p.src e.1
        payload := p.payload.translateOut p.src e.1 e.2 } := by
  unfold natApOutput at h
  unfold outEnd
  cases hproto : p.payload.proto with
  | none =>
    rw [hproto] at h
    cases h
  | some proto =>
    rw [hproto] at h
    dsimp only at h ⊢
    by_cases hwhole : p.whole = true
    · rw [if_pos hwhole] at h ⊢
      by_cases hdhcp : (!forwarded && p.payload.dhcpOut) = true
      · rw [if_pos hdhcp] at h ⊢
        exact Or.inl ⟨rfl, passed_eq h⟩
      · rw [if_neg hdhcp] at h ⊢
        obtain ⟨through, hthrough, hout⟩ := Option.map_eq_some_iff.mp h
        have hpacket := Option.some.inj (Prod.mk.inj hout).1
        rw [hthrough, Option.map_some]
        exact Or.inr ⟨_, rfl, hpacket.symm⟩
    · rw [if_neg hwhole] at h
      cases h

theorem mapInput_cases {proto : Proto} {map : NatMap} {netifIn : Addr}
    (h : mapInput s p proto map netifIn = some (some p', s')) :
    p' = p.translateIn
      (match mapSession s p.payload.destPort proto (map.hash p.src) with
        | some a => (s.cb a).ipaddrLocal
        | none => map.target (map.hash p.src) netifIn) map.localPort := by
  dsimp only [mapInput] at h
  cases hsession : mapSession s p.payload.destPort proto (map.hash p.src) with
  | some a =>
    rw [hsession] at h
    exact passed_eq h
  | none =>
    rw [hsession] at h
    obtain ⟨new, -, hin⟩ := Option.map_eq_some_iff.mp h
    exact (Option.some.inj (Prod.mk.inj hin).1).symm

theorem natApInput_cases {netifIn : Addr}
    (h : natApInput s p netifIn = some (some p', s')) :
    inEnd s p netifIn = none ∧ p' = p ∨
      ∃ e, inEnd s p netifIn = some e ∧ p' = p.translateIn e.1 e.2 := by
  unfold natApInput at h
  unfold inEnd
  cases hproto : p.payload.proto with
  | none =>
    rw [hproto] at h
    cases h
  | some proto =>
    rw [hproto] at h
    dsimp only at h ⊢
    by_cases hwhole : p.whole = true
    · rw [if_pos hwhole] at h ⊢
      by_cases hpool : inPool n proto p.payload.destPort = true
      · rw [if_pos hpool] at h ⊢
        cases hsession : inSession s p.payload.destPort proto with
        | none =>
          rw [hsession] at h
          dsimp only at h
          split_ifs at h with hping
          · exact Or.inl ⟨rfl, passed_eq h⟩
          · cases h
        | some a =>
          rw [hsession] at h
          exact Or.inr ⟨_, rfl, passed_eq h⟩
      · rw [if_neg hpool] at h ⊢
        by_cases hdhcp : p.payload.dhcpIn = true
        · rw [if_pos hdhcp] at h ⊢
          exact Or.inl ⟨rfl, passed_eq h⟩
        · rw [if_neg hdhcp] at h ⊢
          cases hmap : inMap s p.payload.destPort proto with
          | none =>
            rw [hmap] at h
            cases h
          | some map =>
            rw [hmap] at h
            exact Or.inr ⟨_, rfl, mapInput_cases h⟩
    · rw [if_neg hwhole] at h
      cases h

end Directions

/-- A packet that the translation lets through keeps its checksums exactly when none comes out as
a zero that it may not be. The update itself keeps the sum of the field and the words. -/
theorem nat_checksums_kept_iff (s : State n) (d : Datagram) (hvalid : d.Valid d.packet) :
    (∀ forwarded netifOut p' s', natApOutput s d.packet forwarded netifOut = some (some p', s') →
      (d.Kept p' ↔ ∀ e, outEnd s d.packet forwarded netifOut = some e →
        ¬d.Vanishes (d.packet.withSrc e) (d.packet.src, d.packet.payload.srcPort) e)) ∧
    (∀ netifIn p' s', natApInput s d.packet netifIn = some (some p', s') →
      (d.Kept p' ↔ ∀ e, inEnd s d.packet netifIn = some e →
        ¬d.Vanishes (d.packet.withDest e) (d.packet.dest, d.packet.payload.destPort) e)) ∧
    ∀ (chksum : Port) (old new : List Port),
      (ntohs (inetChksumAdjust chksum (old.map ntohs) (new.map ntohs)) + (new.map ntohs).sum) %
          65535 = (ntohs chksum + (old.map ntohs).sum) % 65535 := by
  have hunchanged : d.Kept d.packet := ⟨hvalid, id⟩
  refine ⟨fun forwarded netifOut p' s' h => ?_, fun netifIn p' s' h => ?_, fun chksum old new =>
    (inetChksumAdjust_spec chksum (map_ntohs_le old) (map_ntohs_le new)).1⟩
  · rcases natApOutput_cases h with ⟨hnone, rfl⟩ | ⟨e, he, rfl⟩
    · rw [hnone]
      exact iff_of_true hunchanged fun e he => by cases he
    · rw [he, kept_out_iff hvalid e]
      exact ⟨fun hno e' he' => Option.some.inj he' ▸ hno, fun hall => hall e rfl⟩
  · rcases natApInput_cases h with ⟨hnone, rfl⟩ | ⟨e, he, rfl⟩
    · rw [hnone]
      exact iff_of_true hunchanged fun e he => by cases he
    · rw [he, kept_in_iff hvalid e]
      exact ⟨fun hno e' he' => Option.some.inj he' ▸ hno, fun hall => hall e rfl⟩

def query (data chksum : ℕ) : Datagram where
  packet := ⟨30, 5, 0x0201a8c0#32, 0x08080808#32, htons 43285,
    .udp (htons 53) (htons 53) (htons chksum)⟩
  version := htons 0x4500
  version_four := by decide
  header := [htons 30, htons 0, htons 0, htons 0x4011]
  length := htons 10
  rest := [htons 10, htons data]
  echo := by simp

theorem nat_checksums_kept_query : ∃ p' s',
    natApOutput (natPoolInit (n := leastSession) fun _ => clearCb) (query 60431 16806).packet
      true 0x04030201#32 = some (some p', s') ∧ (query 60431 16806).Kept p' := by
  have hvalid : (query 60431 16806).Valid (query 60431 16806).packet :=
    ⟨by decide, fun _ => by decide⟩
  have hpass : ∃ p' s', natApOutput (natPoolInit (n := leastSession) fun _ => clearCb)
      (query 60431 16806).packet true 0x04030201#32 = some (some p', s') := ⟨_, _, rfl⟩
  obtain ⟨p', s', hpass⟩ := hpass
  have hend : outEnd (natPoolInit (n := leastSession) fun _ => clearCb)
      (query 60431 16806).packet true 0x04030201#32 = some (0x04030201#32, htons 65408) := rfl
  refine ⟨p', s', hpass, ((nat_checksums_kept_iff _ _ hvalid).1 _ _ _ _ hpass).mpr fun e he => ?_⟩
  obtain rfl := Option.some.inj (hend.symm.trans he)
  rintro ⟨-, hzero, -⟩
  have hdvd : 65535 ∣ ((query 60431 16806).others
      ((query 60431 16806).packet.withSrc (0x04030201#32, htons 65408))).sum := hzero
  exact absurd hdvd (by decide)

/-- With one less in its data, the query has no checksum behind the first port of the pool. -/
theorem nat_loses_checksum :
    ¬∀ (s : State leastSession) (d : Datagram), d.Valid d.packet →
      ∀ forwarded netifOut p' s', natApOutput s d.packet forwarded netifOut = some (some p', s') →
        d.Kept p' := by
  intro h
  have hvalid : (query 60430 16807).Valid (query 60430 16807).packet :=
    ⟨by decide, fun _ => by decide⟩
  have hlost : ∃ p' s', natApOutput (natPoolInit (n := leastSession) fun _ => clearCb)
      (query 60430 16807).packet true 0x04030201#32 = some (some p', s') ∧
        p'.payload.carries = false :=
    ⟨_, _, rfl, by decide⟩
  obtain ⟨p', s', hpass, hlost⟩ := hlost
  have hkept := (h _ _ hvalid true 0x04030201#32 p' s' hpass).2 (by decide)
  exact absurd (hkept.symm.trans hlost) (by decide)

end SylixOS.NatLib
