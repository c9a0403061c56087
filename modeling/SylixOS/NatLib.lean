import Mathlib.Data.Fin.Basic
import Mathlib.Data.List.FinRange
import Mathlib.Logic.Function.Basic

/-! Network address translation (`lwip_natlib.c`). A session has a control block,
and a control block owns one external port of the dynamic pool. Sessions are
found by the local port on the way out and by the external port on the way in.
Addresses and ports are kept as they lie in memory, in network byte order. -/

namespace SylixOS.NatLib
open Function

abbrev Addr := BitVec 32
abbrev Port := BitVec 16

def ntohs (p : Port) : Nat := p.toNat % 256 * 256 + p.toNat / 256

def htons (n : Nat) : Port := BitVec.ofNat 16 (n % 256 * 256 + n / 256 % 256)

def swapBytes (a : Addr) : Addr :=
  (a &&& 0xff#32) <<< 24 ||| (a &&& 0xff00#32) <<< 8 ||| (a &&& 0xff0000#32) >>> 8 |||
    (a &&& 0xff000000#32) >>> 24

def natHash (p : Port) : Nat := p.toNat % 128

structure MaxSession where
  val : Nat
  low : 128 ≤ val
  high : val ≤ 24576

def MaxSession.minPort (n : MaxSession) : Nat := 0xffff - n.val + 1

def maxPort : Nat := 0xffff

inductive Proto where
  | tcp
  | udp
  | icmp
  deriving DecidableEq, Repr

structure TcpFlags where
  fin : Bool
  syn : Bool
  rst : Bool
  ack : Bool

inductive Payload where
  | tcp (src dest : Port) (seqno ackno : BitVec 32) (flags : TcpFlags) (chksum : Port)
  | udp (src dest chksum : Port)
  | icmp (type code : BitVec 8) (id chksum : Port)
  | other

structure Packet where
  len : Nat
  hl : Nat
  src : Addr
  dest : Addr
  chksum : Port
  payload : Payload

def Payload.proto : Payload → Option Proto
  | .tcp .. => some .tcp
  | .udp .. => some .udp
  | .icmp .. => some .icmp
  | .other => none

def Payload.hlen : Payload → Nat
  | .tcp .. => 20
  | .udp .. => 8
  | .icmp .. => 8
  | .other => 0

def Payload.srcPort : Payload → Port
  | .tcp src .. => src
  | .udp src .. => src
  | .icmp _ _ id _ => id
  | .other => 0#16

def Payload.destPort : Payload → Port
  | .tcp _ dest .. => dest
  | .udp _ dest _ => dest
  | .icmp _ _ id _ => id
  | .other => 0#16

def Packet.whole (p : Packet) : Bool :=
  decide (p.hl * 4 ≤ p.len) && decide (p.hl * 4 + p.payload.hlen ≤ p.len)

def halves (a : Addr) : List Nat := [ntohs (a.setWidth 16), ntohs ((a >>> 16).setWidth 16)]

def inetChksumAdjust (chksum : Port) (old new : List Nat) : Port :=
  let x : Int := 65535 - ntohs chksum
  let x := old.foldl (fun (x : Int) (o : Nat) => if x - o ≤ 0 then (x - o - 1) % 65536 else x - o) x
  let x := new.foldl (fun (x : Int) (w : Nat) => if 65536 ≤ x + w then (x + w + 1) % 65536 else x + w) x
  htons (65535 - x % 65536).toNat

def adjustAddr (chksum : Port) (old new : Addr) : Port :=
  inetChksumAdjust chksum (halves old) (halves new)

def adjustPort (chksum : Port) (old new : Port) : Port :=
  inetChksumAdjust chksum [ntohs old] [ntohs new]

inductive Status where
  | open
  | syn
  | fin
  | closing
  deriving DecidableEq, Repr

structure NatCb where
  inAssHash : Bool
  proto : Option Proto
  mapHash : Nat
  ipaddrLocal : Addr
  localPort : Port
  assPort : Port
  assPortSave : Port
  localSequence : BitVec 32
  localRcvNext : BitVec 32
  idleTimer : Nat
  status : Status

structure NatMap where
  proto : Option Proto
  ipaddrLocalIp : Addr
  localCnt : Nat
  localPort : Port
  assPort : Port
  deriving DecidableEq

structure NatAlias where
  ipaddrAliasIp : Addr
  ipaddrSLocalIp : Addr
  ipaddrELocalIp : Addr

/-- The tables. The lists of control blocks are in the order in which they are walked. `viaMap`
remembers which sessions were created through a map; the code does not read it. -/
structure State (n : MaxSession) where
  cb : Fin n.val → NatCb
  free : List (Fin n.val)
  session : Proto × Nat → List (Fin n.val)
  assHash : Proto × Nat → List (Fin n.val)
  maps : List NatMap
  aliases : List NatAlias
  viaMap : Fin n.val → Bool

variable {n : MaxSession}

def State.setCb (s : State n) (a : Fin n.val) (cb : NatCb) : State n :=
  { s with cb := update s.cb a cb }

def poolPort (a : Fin n.val) : Port := htons (n.minPort + a.val)

def natPoolInit (heap : Fin n.val → NatCb) : State n where
  cb := fun a => { heap a with assPort := poolPort a }
  free := List.finRange n.val
  session := fun _ => []
  assHash := fun _ => []
  maps := []
  aliases := []
  viaMap := fun _ => false

def natPoolAlloc (s : State n) : Option (Fin n.val × State n) :=
  match s.free with
  | [] => none
  | a :: rest =>
    some (a, { s with free := rest }.setCb a { s.cb a with
      inAssHash := false
      proto := none
      mapHash := 0
      ipaddrLocal := 0#32
      assPortSave := 0#16
      localPort := 0#16
      localSequence := 0#32
      localRcvNext := 0#32
      idleTimer := 0
      status := .open })

def natPoolFree (s : State n) (a : Fin n.val) : State n :=
  let cb := s.cb a
  let assPort := if cb.assPortSave ≠ 0#16 then cb.assPortSave else cb.assPort
  { s with free := s.free ++ [a] }.setCb a { cb with assPort := assPort }

def natAssHashAdd (s : State n) (a : Fin n.val) : State n :=
  let cb := s.cb a
  if cb.inAssHash then s
  else
    match cb.proto with
    | some proto =>
      let key := (proto, natHash cb.assPort)
      { s with assHash := update s.assHash key (a :: s.assHash key) }.setCb a
        { cb with inAssHash := true }
    | none => s.setCb a { cb with inAssHash := true }

def natAssHashDelete (s : State n) (a : Fin n.val) : State n :=
  let cb := s.cb a
  if cb.inAssHash then
    match cb.proto with
    | some proto =>
      let key := (proto, natHash cb.assPort)
      { s with assHash := update s.assHash key ((s.assHash key).erase a) }.setCb a
        { cb with inAssHash := false }
    | none => s.setCb a { cb with inAssHash := false }
  else s

def sessions (s : State n) (proto : Proto) : List (Fin n.val) :=
  (List.range 128).flatMap fun i => s.session (proto, i)

def natFirst (s : State n) (proto : Proto) : Option (Fin n.val) :=
  (List.range 128).findSome? fun i => (s.session (proto, i)).head?

def older (s : State n) (oldest a : Fin n.val) : Fin n.val :=
  if (s.cb oldest).idleTimer ≤ (s.cb a).idleTimer then a else oldest

structure TcpScan (n : MaxSession) where
  oldest : Fin n.val
  syn : Option (Fin n.val)
  closing : Option (Fin n.val)

def longest (s : State n) (found : Option (Fin n.val)) (a : Fin n.val) : Option (Fin n.val) :=
  match found with
  | some b => if (s.cb b).idleTimer < (s.cb a).idleTimer then some a else some b
  | none => some a

def scanTcp (s : State n) (scan : TcpScan n) (a : Fin n.val) : TcpScan n :=
  let cb := s.cb a
  let scan :=
    if cb.status = .syn ∧ 40 < cb.idleTimer then { scan with syn := longest s scan.syn a }
    else if cb.status = .closing ∧ 30 < cb.idleTimer then
      { scan with closing := longest s scan.closing a }
    else scan
  { scan with oldest := older s scan.oldest a }

def natOldest (s : State n) : Option (Fin n.val) :=
  match natFirst s .icmp with
  | some first => some ((sessions s .icmp).foldl (older s) first)
  | none =>
    match (natFirst s .tcp).or (natFirst s .udp) with
    | none => none
    | some first =>
      let scan := (sessions s .tcp).foldl (scanTcp s) ⟨first, none, none⟩
      match scan.closing, scan.syn with
      | some a, _ => some a
      | none, some a => some a
      | none, none => some ((sessions s .udp).foldl (older s) scan.oldest)

/-- The part of `__natNew` and `__natClose` that takes a session out of the tables. -/
def natUnlink (s : State n) (a : Fin n.val) : State n :=
  let s := natAssHashDelete s a
  match (s.cb a).proto with
  | some proto =>
    let key := (proto, natHash (s.cb a).localPort)
    { s with session := update s.session key ((s.session key).erase a) }
  | none => s

def natTake (s : State n) : Option (Fin n.val × State n) :=
  match natPoolAlloc s with
  | some taken => some taken
  | none => (natOldest s).map fun a => (a, natUnlink s a)

def natSetUp (s : State n) (a : Fin n.val) (ipaddr : Addr) (port : Port) (proto : Proto) :
    State n :=
  let key := (proto, natHash port)
  { s with session := update s.session key (a :: s.session key) }.setCb a { s.cb a with
    proto := some proto
    mapHash := 0
    ipaddrLocal := ipaddr
    localPort := port
    localSequence := 0#32
    localRcvNext := 0#32
    idleTimer := 0
    status := .open }

def natNew (s : State n) (ipaddr : Addr) (port : Port) (proto : Proto) :
    Option (Fin n.val × State n) :=
  (natTake s).map fun taken => (taken.1, natSetUp taken.2 taken.1 ipaddr port proto)

def natClose (s : State n) (a : Fin n.val) : State n := natPoolFree (natUnlink s a) a

def timerSession (idlTo period : Nat) (proto : Proto) (s : State n) (a : Fin n.val) : State n :=
  let cb := { s.cb a with idleTimer := (s.cb a).idleTimer + period }
  let s := s.setCb a cb
  if idlTo ≤ cb.idleTimer then natClose s a
  else if proto = .tcp ∧ (cb.status = .syn ∨ cb.status = .closing) ∧ 60 ≤ cb.idleTimer then
    natClose s a
  else s

def timerList (idlTo period : Nat) (s : State n) (key : Proto × Nat) : State n :=
  (s.session key).foldl (timerSession idlTo period key.1) s

def natTimer (idlTo : Nat) (s : State n) (period : Nat) : State n :=
  let loop (s : State n) (proto : Proto) :=
    (List.range 128).foldl (fun s i => timerList idlTo period s (proto, i)) s
  loop (loop (loop s .tcp) .udp) .icmp

def natMapAdd (s : State n) (map : NatMap) : Bool × State n :=
  if n.minPort ≤ ntohs map.assPort ∧ ntohs map.assPort ≤ maxPort then (false, s)
  else (true, { s with maps := map :: s.maps })

def natMapDelete (s : State n) (ipaddr : Addr) (port assPort : Port) (proto : Option Proto) :
    Bool × State n :=
  let found := s.maps.find? fun map =>
    map.proto = proto ∧ map.ipaddrLocalIp = ipaddr ∧ map.localPort = port ∧ map.assPort = assPort
  match found with
  | some map => (true, { s with maps := s.maps.erase map })
  | none => (false, s)

def natAliasAdd (s : State n) (entry : NatAlias) : State n :=
  { s with aliases := entry :: s.aliases }

def natAliasDelete (s : State n) (ipaddr : Addr) : Bool × State n :=
  match s.aliases.findIdx? fun entry => entry.ipaddrAliasIp = ipaddr with
  | some i => (true, { s with aliases := s.aliases.eraseIdx i })
  | none => (false, s)

def Status.after (status : Status) (flags : TcpFlags) : Status :=
  if flags.rst then .closing
  else if flags.fin then if status = .open then .fin else .closing
  else status

def outSession (s : State n) (p : Packet) (proto : Proto) : Option (Fin n.val) :=
  (s.session (proto, natHash p.payload.srcPort)).find? fun a =>
    (s.cb a).ipaddrLocal = p.src ∧ (s.cb a).localPort = p.payload.srcPort ∧
      (s.cb a).proto = some proto

def externalAddr (s : State n) (src netifOut : Addr) : Addr :=
  match s.aliases.find? fun entry =>
    entry.ipaddrSLocalIp.toNat ≤ src.toNat ∧ src.toNat ≤ entry.ipaddrELocalIp.toNat with
  | some entry => entry.ipaddrAliasIp
  | none => netifOut

/-- The payload behind `__natApOutput`. A UDP packet without checksum keeps its port. -/
def Payload.translateOut (q : Payload) (old new : Addr) (assPort : Port) : Payload :=
  match q with
  | .tcp src dest seqno ackno flags chksum =>
    .tcp assPort dest seqno ackno flags (adjustPort (adjustAddr chksum old new) src assPort)
  | .udp src dest chksum =>
    if chksum ≠ 0#16 then
      .udp assPort dest (adjustPort (adjustAddr chksum old new) src assPort)
    else .udp src dest chksum
  | .icmp type code id chksum => .icmp type code assPort (adjustPort chksum id assPort)
  | .other => .other

def NatCb.afterOut (cb : NatCb) (q : Payload) : NatCb :=
  match q with
  | .tcp _ _ seqno ackno flags _ =>
    { cb with
      idleTimer := 0
      localSequence := seqno
      localRcvNext := if flags.ack then ackno else cb.localRcvNext
      status := if flags.syn then .syn else if flags.rst then .closing else
        if flags.fin then cb.status.after flags else .open }
  | _ => { cb with idleTimer := 0 }

def translateOut (s : State n) (a : Fin n.val) (p : Packet) (netifOut : Addr) : Packet × State n :=
  let src := externalAddr s p.src netifOut
  ({ p with
      src := src
      chksum := adjustAddr p.chksum p.src src
      payload := p.payload.translateOut p.src src (s.cb a).assPort },
    s.setCb a ((s.cb a).afterOut p.payload))

def Payload.dhcpOut : Payload → Bool
  | .udp src dest _ => src = htons 68 ∧ dest = htons 67
  | _ => false

def Payload.dhcpIn : Payload → Bool
  | .udp src dest _ => src = htons 67 ∧ dest = htons 68
  | _ => false

abbrev Verdict := Option Packet

def outThrough (s : State n) (p : Packet) (proto : Proto) :
    Option ((Fin n.val × Bool) × State n) :=
  match outSession s p proto with
  | some a => some ((a, false), s)
  | none =>
    (natNew s p.src p.payload.srcPort proto).map fun new =>
      let s := natAssHashAdd new.2 new.1
      ((new.1, true), { s with viaMap := update s.viaMap new.1 false })

/-- `__natApOutput`; `forwarded` says that the packet came in through an interface, `netifOut` is
the address of the interface it leaves through. The whole result is `none` when `__natNew` finds
neither a free control block nor a session. -/
def natApOutput (s : State n) (p : Packet) (forwarded : Bool) (netifOut : Addr) :
    Option (Verdict × State n) :=
  match p.payload.proto with
  | none => some (none, s)
  | some proto =>
    if p.whole then
      if !forwarded && p.payload.dhcpOut then some (some p, s)
      else
        (outThrough s p proto).map fun through =>
          let out := translateOut through.2 through.1.1 p netifOut
          (some out.1, out.2)
    else some (none, s)

def Payload.translateIn (q : Payload) (old new : Addr) (localPort : Port) : Payload :=
  match q with
  | .tcp src dest seqno ackno flags chksum =>
    .tcp src localPort seqno ackno flags (adjustPort (adjustAddr chksum old new) dest localPort)
  | .udp src dest chksum =>
    if chksum ≠ 0#16 then
      .udp src localPort (adjustPort (adjustAddr chksum old new) dest localPort)
    else .udp src dest chksum
  | .icmp type code id chksum =>
    if code = 8#8 ∨ code = 0#8 then .icmp type code localPort (adjustPort chksum id localPort)
    else .icmp type code id chksum
  | .other => .other

def Packet.translateIn (p : Packet) (dest : Addr) (localPort : Port) : Packet :=
  { p with
    dest := dest
    chksum := adjustAddr p.chksum p.dest dest
    payload := p.payload.translateIn p.dest dest localPort }

def NatCb.afterIn (cb : NatCb) (q : Payload) : NatCb :=
  match q with
  | .tcp _ _ seqno ackno flags _ =>
    let cb := { cb with idleTimer := 0 }
    if flags.rst || flags.fin then
      -- a reset or a close counts only when its numbers fit
      if swapBytes ackno = swapBytes cb.localSequence + 1#32 ∨
          swapBytes seqno = swapBytes cb.localRcvNext then
        { cb with status := cb.status.after flags }
      else cb
    else cb
  | _ => { cb with idleTimer := 0 }

def inMap (s : State n) (port : Port) (proto : Proto) : Option NatMap :=
  s.maps.find? fun map => port = map.assPort ∧ some proto = map.proto

def mapSession (s : State n) (port : Port) (proto : Proto) (mapHash : Nat) : Option (Fin n.val) :=
  (s.assHash (proto, natHash port)).find? fun a =>
    mapHash = (s.cb a).mapHash ∧ port = (s.cb a).assPort ∧ some proto = (s.cb a).proto

def inSession (s : State n) (port : Port) (proto : Proto) : Option (Fin n.val) :=
  (s.assHash (proto, natHash port)).find? fun a =>
    port = (s.cb a).assPort ∧ some proto = (s.cb a).proto

def NatMap.hash (map : NatMap) (src : Addr) : Nat := src.toNat % map.localCnt % 65536

def NatMap.target (map : NatMap) (mapHash : Nat) (netifIn : Addr) : Addr :=
  if map.ipaddrLocalIp = 0#32 then netifIn
  else swapBytes (swapBytes map.ipaddrLocalIp + BitVec.ofNat 32 mapHash)

def mapInput (s : State n) (p : Packet) (proto : Proto) (map : NatMap) (netifIn : Addr) :
    Option (Verdict × State n) :=
  let mapHash := map.hash p.src
  match mapSession s p.payload.destPort proto mapHash with
  | some a =>
    some (some (p.translateIn (s.cb a).ipaddrLocal map.localPort),
      s.setCb a { s.cb a with idleTimer := 0 })
  | none =>
    let ipaddr := map.target mapHash netifIn
    (natNew s ipaddr map.localPort proto).map fun new =>
      let cb := new.2.cb new.1
      let s := new.2.setCb new.1 { cb with
        mapHash := mapHash
        assPortSave := cb.assPort
        assPort := map.assPort }
      let s := natAssHashAdd s new.1
      (some (p.translateIn ipaddr map.localPort),
        { s with viaMap := update s.viaMap new.1 true })

def inPool (n : MaxSession) (proto : Proto) (port : Port) : Bool :=
  proto = .icmp ∨ (n.minPort ≤ ntohs port ∧ ntohs port ≤ maxPort)

def natApInput (s : State n) (p : Packet) (netifIn : Addr) : Option (Verdict × State n) :=
  match p.payload.proto with
  | none => some (none, s)
  | some proto =>
    if p.whole then
      if inPool n proto p.payload.destPort then
        match inSession s p.payload.destPort proto with
        | some a =>
          some (some (p.translateIn (s.cb a).ipaddrLocal (s.cb a).localPort),
            s.setCb a ((s.cb a).afterIn p.payload))
        | none =>
          -- a ping of this machine goes on
          if proto = .icmp ∧ p.dest = netifIn then some (some p, s) else some (none, s)
      else if p.payload.dhcpIn then some (some p, s)
      else
        match inMap s p.payload.destPort proto with
        | some map => mapInput s p proto map netifIn
        | none => some (none, s)
    else some (none, s)

def natIpInput (s : State n) (p : Packet) (netifIn : Addr) : Option (Verdict × State n) :=
  if netifIn ≠ 0#32 ∧ p.dest ≠ netifIn then some (none, s)
  else natApInput s p netifIn

/-- `__natIpOutput`: a packet of this machine goes out even when it was not translated. -/
def natIpOutput (s : State n) (p : Packet) (forwarded : Bool) (netifOut : Addr) :
    Option (Verdict × State n) :=
  (natApOutput s p forwarded netifOut).map fun out =>
    if forwarded then out else (some (out.1.getD p), out.2)

end SylixOS.NatLib
