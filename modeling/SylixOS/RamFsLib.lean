import Mathlib.Data.Finset.Card
import SylixOS.ByteBuffer
import SylixOS.ListLink

/-! The memory file system of `ramFsLib.c`. A file is a chain of blocks held by five
fields of its node (first and last block, number of blocks, and a cookie with its index).
The blocks an operation allocates are an argument of it: what the calls of `__RAM_BALLOC`
return, with the bytes the memory happens to hold. -/

namespace SylixOS.RamFs
open SylixOS.ByteBuffer SylixOS.LinkedChain SylixOS.ListLink Function

structure Config where
  word : Nat
  shift : Nat
  word_eq : word = 32 ∨ word = 64
  shift_ge : 11 ≤ shift
  shift_lt : shift < word

variable (c : Config)

def Config.bsize : Nat := 2 ^ c.shift

def Config.bdatasize : Nat := c.bsize - c.word / 8 * 2

/-- The blocks of a volume: `RAMB_lineManage` and `RAMB_ucData` of each, which of them are
allocated, `RAMFS_ulCurBlk` and `RAMFS_ulMaxBlk`. -/
structure Store where
  links : Links Nat
  data : Nat → Bytes
  live : Finset Nat
  curBlk : Nat
  maxBlk : Nat

structure File where
  size : Nat
  vSize : Nat
  bStart : Option Nat
  bEnd : Option Nat
  cnt : Nat
  cookie : Option Nat
  ulCookie : Nat
  deriving DecidableEq, Repr

abbrev Alloc := Nat → Option (Nat × Bytes)

def Store.bfree (s : Store) (links : Links Nat) (b : Nat) : Store :=
  { s with links := links, live := s.live.erase b, curBlk := s.curBlk - 1 }

def truncateFind (L : Links Nat) (stOft : Nat) : (fuel : Nat) → Option Nat → (stTemp : Nat) → Option Nat
  | fuel + 1, some b, stTemp =>
    if stOft ≤ stTemp then some b
    else truncateFind L stOft fuel (L.next b) ((stTemp + c.bdatasize) % 2 ^ c.word)
  | _, _, _ => none

def truncateFree : (fuel : Nat) → (plineDel : Nat) → Store → File → Store × File
  | 0, _, s, f => (s, f)
  | fuel + 1, plineDel, s, f =>
    let line := listLineDel s.links plineDel f.bStart
    let f := { f with bStart := line.2, cnt := f.cnt - 1 }
    match s.links.next plineDel with
    | none => (s.bfree line.1 plineDel, f)
    | some next => truncateFree fuel next (s.bfree line.1 plineDel) f

def ramTruncate (s : Store) (f : File) (stOft : Nat) : Store × File :=
  let cut := match truncateFind c s.links stOft (s.live.card + 1) f.bStart 0 with
    | none => (s, f)
    | some b =>
      let f :=
        if some b = f.bStart then { f with bStart := none, bEnd := none }
        else if some b = f.bEnd then { f with bEnd := s.links.prev b }
        else f
      let freed := truncateFree (s.live.card + 1) b s f
      (freed.1, { freed.2 with cookie := none })
  (cut.1, { cut.2 with size := stOft, vSize := stOft })

def addBlock (s : Store) (f : File) (b : Nat) (bytes : Bytes) : Store × File :=
  let line := match f.bEnd with
    | some e => (listLineAddRight s.links b e, f.bStart, some b)
    | none =>
      let line := listLineAddAhead s.links b f.bStart
      (line.1, line.2, line.2)
  ({ s with
      links := line.1, data := update s.data b bytes, live := insert b s.live
      curBlk := s.curBlk + 1 },
    { f with bStart := line.2.1, bEnd := line.2.2, cnt := f.cnt + 1 })

/-- The loop of `__ram_automem`. Whether a block is cleared is decided by the first new block: the
source does not advance `stCur`. -/
def automemLoop (clear : Bool) (alloc : Alloc) :
    (left i : Nat) → Store → File → Bool × Store × File
  | 0, _, s, f => (true, s, f)
  | left + 1, i, s, f =>
    match alloc i with
    | none => (false, s, f)
    | some (b, bytes) =>
      let grown := addBlock s f b (if clear then fun _ => 0 else bytes)
      automemLoop clear alloc left (i + 1) grown.1 grown.2

def automemClear (cnt stStart stLen : Nat) : Bool :=
  let stCur := cnt * c.bdatasize % 2 ^ c.word
  (stCur < stStart ∧ (stCur + c.bdatasize) % 2 ^ c.word ≤ stStart) ∨
    (stStart < stCur ∧ (stStart + stLen) % 2 ^ c.word ≤ stCur)

def ramAutomem (s : Store) (f : File) (ulNBlk stStart stLen : Nat) (alloc : Alloc) :
    Bool × Store × File :=
  if ulNBlk ≤ f.cnt then (true, s, f)
  else
    let ulNeedAllocBlk := ulNBlk - f.cnt
    if s.maxBlk < (ulNeedAllocBlk + s.curBlk) % 2 ^ c.word then (false, s, f)
    else automemLoop (automemClear c f.cnt stStart stLen) alloc ulNeedAllocBlk 0 s f

def File.grow (f : File) (stNewSize : Nat) : File :=
  if f.size < stNewSize then
    { f with size := stNewSize, vSize := if f.vSize < stNewSize then stNewSize else f.vSize }
  else f

def ramIncrease (f : File) (stNewSize : Nat) : File := f.grow stNewSize

def walk (step : Nat → Option Nat) : Nat → Nat → Option Nat
  | 0, b => some b
  | n + 1, b =>
    match step b with
    | none => none
    | some b' => walk step n b'

def ramFoot (blk1 blk2 : Nat) : Nat := if blk2 < blk1 then blk1 - blk2 else blk2 - blk1

def getbufByEnds (L : Links Nat) (f : File) (ulBlkIndex : Nat) : Option Nat :=
  let ulBackward := (f.cnt + 2 ^ c.word - ulBlkIndex - 1) % 2 ^ c.word
  if ulBlkIndex ≤ ulBackward then f.bStart.bind (walk L.next ulBlkIndex)
  else f.bEnd.bind (walk L.prev ulBackward)

/-- The search of `__ram_getbuf`, from the cookie where that is nearer than the start. -/
def getbufFind (L : Links Nat) (f : File) (ulBlkIndex : Nat) : Option Nat :=
  match f.cookie with
  | some cookie =>
    let ulFoot := ramFoot f.ulCookie ulBlkIndex
    if ulFoot = 0 then some cookie
    else if ulFoot < ulBlkIndex then
      if f.ulCookie < ulBlkIndex then walk L.next ulFoot cookie
      else walk L.prev ulFoot cookie
    else getbufByEnds c L f ulBlkIndex
  | none => getbufByEnds c L f ulBlkIndex

def ramGetbuf (L : Links Nat) (f : File) (stOft : Nat) : Option Nat × File :=
  if f.bStart = none then (none, f)
  else
    let ulBlkIndex := stOft / c.bdatasize
    match getbufFind c L f ulBlkIndex with
    | none => (none, f)
    | some b => (some b, { f with cookie := some b, ulCookie := ulBlkIndex })

def ramGetbufNext (L : Links Nat) (f : File) : Option Nat × File :=
  match f.cookie with
  | some cookie => (L.next cookie, { f with cookie := L.next cookie, ulCookie := f.ulCookie + 1 })
  | none => (none, f)

def bytesFrom (buf : Bytes) (pos n : Nat) : List UInt8 := (List.range n).map fun i => buf (pos + i)

def readLoop (s : Store) :
    (fuel : Nat) → (pramb : Option Nat) → (stStart stNBytes : Nat) → File → List UInt8 × File
  | 0, _, _, _, f => ([], f)
  | _ + 1, none, _, stNBytes, f => (List.replicate stNBytes 0, f)
  | fuel + 1, some b, stStart, stNBytes, f =>
    let stBufSize := c.bdatasize - stStart
    if stNBytes ≤ stBufSize then (bytesFrom (s.data b) stStart stNBytes, f)
    else
      let next := ramGetbufNext s.links f
      let rest := readLoop s fuel next.1 0 (stNBytes - stBufSize) next.2
      (bytesFrom (s.data b) stStart stBufSize ++ rest.1, rest.2)

def ramRead (s : Store) (f : File) (stSize stOft : Nat) : List UInt8 × File :=
  if f.vSize ≤ stOft then ([], f)
  else
    let stNBytes := min (f.vSize - stOft) stSize
    let buf := ramGetbuf c s.links f stOft
    readLoop c s (stNBytes + 1) buf.1 (stOft % c.bdatasize) stNBytes buf.2

def Store.put (s : Store) (b pos n : Nat) (src : Bytes) : Store :=
  { s with data := update s.data b (patch (s.data b) pos n src) }

def writeLoop (src : Bytes) : (fuel : Nat) → (pramb : Option Nat) →
    (stStart stNBytes stWrite : Nat) → Store → File → Nat × Store × File
  | fuel + 1, some b, stStart, stNBytes, stWrite, s, f =>
    if stNBytes = 0 then (stWrite, s, f)
    else
      let stBufSize := c.bdatasize - stStart
      if stNBytes ≤ stBufSize then
        (stWrite + stNBytes, s.put b stStart stNBytes (advance src stWrite), f)
      else
        let next := ramGetbufNext s.links f
        writeLoop src fuel next.1 0 (stNBytes - stBufSize) (stWrite + stBufSize)
          (s.put b stStart stBufSize (advance src stWrite)) next.2
  | _, _, _, _, stWrite, s, f => (stWrite, s, f)

def blocksFor (stEnd : Nat) : Nat :=
  stEnd / c.bdatasize + if stEnd % c.bdatasize = 0 then 0 else 1

def ramWrite (s : Store) (f : File) (src : Bytes) (stNBytes stOft : Nat) (alloc : Alloc) :
    Nat × Store × File :=
  let stEnd := (stOft + stNBytes) % 2 ^ c.word
  match ramAutomem c s f (blocksFor c stEnd) stOft stNBytes alloc with
  | (false, s, f) => (0, s, f)
  | (true, s, f) =>
    let buf := ramGetbuf c s.links f stOft
    let wr := writeLoop c src (stNBytes + 1) buf.1 (stOft % c.bdatasize) stNBytes 0 s buf.2
    (wr.1, wr.2.1, wr.2.2.grow ((stOft + wr.1) % 2 ^ c.word))

def unlinkFree : (fuel : Nat) → Store → File → Store × File
  | 0, s, f => (s, f)
  | fuel + 1, s, f =>
    match f.bStart with
    | none => (s, f)
    | some b =>
      let line := listLineDel s.links b f.bStart
      unlinkFree fuel (s.bfree line.1 b) { f with bStart := line.2, cnt := f.cnt - 1 }

inductive Kind where
  | dir
  | lnk
  | file
  deriving DecidableEq, Repr

structure Node where
  name : List Char
  link : List Char
  kind : Kind
  father : Option Nat
  sons : List Nat
  file : File

def emptyFile : File :=
  { size := 0, vSize := 0, bStart := none, bEnd := none, cnt := 0, cookie := none, ulCookie := 0 }

structure Volume where
  node : Nat → Node
  nodes : List Nat
  son : List Nat
  store : Store

variable (V : Volume)

def Volume.sonsOf : Option Nat → List Nat
  | none => V.son
  | some d => (V.node d).sons

def Volume.setSons (d : Option Nat) (sons : List Nat) : Volume :=
  match d with
  | none => { V with son := sons }
  | some d => { V with node := update V.node d { V.node d with sons := sons } }

def Volume.setFather (id : Nat) (father : Option Nat) : Volume :=
  { V with node := update V.node id { V.node id with father := father } }

def Volume.setName (id : Nat) (name : List Char) : Volume :=
  { V with node := update V.node id { V.node id with name := name } }

def Volume.setFile (id : Nat) (r : Store × File) : Volume :=
  { V with node := update V.node id { V.node id with file := r.2 }, store := r.1 }

/-- What `__ram_open` returns: the node, and through its arguments the father (or the directory
the search ended in), whether the name is the root, whether only the last component is missing, and
the components behind a link. -/
structure Opened where
  node : Option Nat
  father : Option Nat
  bRoot : Bool
  bLast : Bool
  tail : List (List Char)
  deriving DecidableEq, Repr

def openFrom (father : Option Nat) : List (List Char) → Opened
  | [] => ⟨none, father, false, false, []⟩
  | pcNode :: rest =>
    match (V.sonsOf father).find? fun id => (V.node id).name = pcNode with
    | none => ⟨none, father, false, rest = [], []⟩
    | some id =>
      match (V.node id).kind with
      | .lnk => ⟨some id, (V.node id).father, false, false, rest⟩
      | .dir =>
        if rest = [] then ⟨some id, (V.node id).father, false, false, []⟩
        else openFrom (some id) rest
      | .file =>
        if rest = [] then ⟨some id, (V.node id).father, false, false, []⟩
        else ⟨none, father, false, false, []⟩

def components (pcName : List Char) : List (List Char) :=
  (if pcName.head? = some '/' then pcName.tail else pcName).splitOn '/'

def ramOpen (pcName : List Char) : Opened :=
  if pcName = [] ∨ pcName = ['/'] then ⟨none, none, true, false, []⟩
  else openFrom V none (components pcName)

def fileName (pcName : List Char) : List Char := (pcName.splitOn '/').getLastD []

def ramMaken (pcName : List Char) (father : Option Nat) (kind : Kind) (pcLink : List Char)
    (new : Option Nat) : Option Nat × Volume :=
  match new with
  | none => (none, V)
  | some new =>
    let V := { V with
      node := update V.node new
        { name := fileName pcName, link := if kind = Kind.lnk then pcLink else [], kind := kind
          father := father, sons := [], file := emptyFile }
      nodes := new :: V.nodes }
    (some new, V.setSons father (new :: V.sonsOf father))

def ramUnlink (id : Nat) : Bool × Volume :=
  if (V.node id).kind = .dir ∧ (V.node id).sons ≠ [] then (false, V)
  else
    let father := (V.node id).father
    let V := V.setSons father ((V.sonsOf father).erase id)
    let V := V.setFile id (unlinkFree (V.store.live.card + 1) V.store (V.node id).file)
    (true, { V with nodes := V.nodes.erase id })

def moveCheck (pramn1 : Nat) : (fuel : Nat) → (pramn2 : Nat) → Bool
  | 0, _ => false
  | fuel + 1, pramn2 =>
    if pramn1 = pramn2 then true
    else
      match (V.node pramn2).father with
      | none => false
      | some father => moveCheck pramn1 fuel father

def relocate (id : Nat) (newFather : Option Nat) (name : List Char) : Volume :=
  let father := (V.node id).father
  let V :=
    if father ≠ newFather then
      let V := V.setSons father ((V.sonsOf father).erase id)
      let V := V.setSons newFather (id :: V.sonsOf newFather)
      V.setFather id newFather
    else V
  V.setName id name

def ramMove (id : Nat) (pcNewName : List Char) (bAlloc : Bool) : Bool × Volume :=
  let target := ramOpen V pcNewName
  if target.node = none ∧ (target.bRoot ∨ ¬ target.bLast) then (false, V)
  else if target.node = some id then (true, V)
  else if (V.node id).kind = .dir ∧
      (target.father.any fun newFather => moveCheck V id (V.nodes.length + 1) newFather) then (false, V)
  else if ¬ bAlloc then (false, V)
  else
    match target.node with
    | none => (true, relocate V id target.father (fileName pcNewName))
    | some temp =>
      if (V.node id).kind ≠ .dir ∧ (V.node temp).kind = .dir then (false, V)
      else if (V.node id).kind = .dir ∧ (V.node temp).kind ≠ .dir then (false, V)
      else
        match ramUnlink V temp with
        | (false, V) => (false, V)
        | (true, V) => (true, relocate V id target.father (fileName pcNewName))

end SylixOS.RamFs
