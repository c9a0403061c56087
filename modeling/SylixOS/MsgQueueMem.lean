import SylixOS.ByteBuffer
import SylixOS.MsgQueueLib

/-! The message store of the kernel message queue in its memory (MsgQueueCreate.c,
_MsgQueueLib.c): the nodes lie one behind the other in one block, each a pointer, a length
and its bytes. As long as no size wraps they are apart, and the store is one whose nodes
are records. -/

namespace SylixOS.MsgQueueMem
open ByteBuffer BitmapLib ListLink PriorityQueue Function
open MsgQueueLib (Got Slot msgQPrio msgQPrioLow urgency)
open RingBuffer (slice)

/-- `LW_CLASS_MSGQUEUE` without `MSGQUEUE_stMaxBytes`, and the memory; a pointer is an address. -/
structure MsgQueue where
  word : Word
  memory : Bytes
  pvBuffer : ℕ
  pmonoFree : ℕ
  pmonoHeader : ℕ → ℕ
  pmonoTail : ℕ → ℕ
  uiMap : BitVec 32

def sizeofMsgNode (w : Word) : ℕ := 2 * w.bytes

def maxMsgByteSizeReal (w : Word) (stMaxMsgByteSize : ℕ) : ℕ :=
  (w.roundUp stMaxMsgByteSize + sizeofMsgNode w) % 2 ^ w.bits

def heapAllocateByteSize (w : Word) (ulMaxMsgCounter stMaxMsgByteSize : ℕ) : ℕ :=
  ulMaxMsgCounter * maxMsgByteSizeReal w stMaxMsgByteSize % 2 ^ w.bits

variable (m : MsgQueue)

def MsgQueue.next (pmono : ℕ) : ℕ := getLE m.word.bytes m.memory pmono

def MsgQueue.setNext (pmono next : ℕ) : MsgQueue :=
  { m with memory := putLE m.word.bytes next m.memory pmono }

def MsgQueue.stMsgLen (pmsgnode : ℕ) : ℕ := getLE m.word.bytes m.memory (pmsgnode + m.word.bytes)

def MsgQueue.free (pmsgnode : ℕ) : MsgQueue :=
  { m.setNext pmsgnode m.pmonoFree with pmonoFree := pmsgnode }

def clearLoop (stMaxByteAlign : ℕ) (m : MsgQueue) : (left pmsgnode : ℕ) → MsgQueue
  | 0, _ => m
  | left + 1, pmsgnode =>
    clearLoop stMaxByteAlign (m.free pmsgnode) left
      ((pmsgnode + sizeofMsgNode m.word + stMaxByteAlign) % 2 ^ m.word.bits)

def msgQueueClear (stMaxBytes ulMsgTotal : ℕ) : MsgQueue :=
  clearLoop (m.word.roundUp stMaxBytes)
    { m with
      pmonoFree := 0
      uiMap := 0
      pmonoHeader := fun _ => 0
      pmonoTail := fun _ => 0 }
    ulMsgTotal m.pvBuffer

def MsgQueue.bytes (pmsgnode n : ℕ) : List UInt8 :=
  slice m.memory (pmsgnode + sizeofMsgNode m.word) n

def msgQueueGet (stMaxByteSize : ℕ) : Option (Got UInt8 × MsgQueue) :=
  let iQ := archFindLsb m.uiMap - 1
  let pmsgnode := m.pmonoHeader iQ
  if pmsgnode = 0 then none
  else
    let tail := if m.pmonoTail iQ = pmsgnode then m.next pmsgnode else m.pmonoTail iQ
    let header := m.next pmsgnode
    let uiMap := if header = 0 then m.uiMap &&& ~~~(1#32 <<< iQ) else m.uiMap
    let stMsgLen :=
      if stMaxByteSize < m.stMsgLen pmsgnode then stMaxByteSize else m.stMsgLen pmsgnode
    some (⟨m.bytes pmsgnode stMsgLen, m.bytes pmsgnode (m.stMsgLen pmsgnode)⟩,
      { m.free pmsgnode with
        pmonoHeader := update m.pmonoHeader iQ header
        pmonoTail := update m.pmonoTail iQ tail
        uiMap := uiMap })

def MsgQueue.fill (pmsgnode : ℕ) (msg : List UInt8) : MsgQueue :=
  { m with
    memory := RingBuffer.put
      (putLE m.word.bytes msg.length m.memory (pmsgnode + m.word.bytes))
      (pmsgnode + sizeofMsgNode m.word) msg }

def MsgQueue.append (uiPrio pmsgnode : ℕ) : MsgQueue :=
  let m := m.setNext pmsgnode 0
  let m :=
    if m.pmonoTail uiPrio ≠ 0 then m.setNext (m.pmonoTail uiPrio) pmsgnode
    else { m with pmonoHeader := update m.pmonoHeader uiPrio pmsgnode }
  { m with pmonoTail := update m.pmonoTail uiPrio pmsgnode }

def msgQueuePut (msg : List UInt8) (uiPrio : ℕ) : MsgQueue :=
  if m.pmonoFree = 0 then m
  else
    let pmsgnode := m.pmonoFree
    let m := { m with pmonoFree := m.next pmsgnode }.fill pmsgnode msg
    { m with
      uiMap := if m.pmonoHeader uiPrio = 0 then m.uiMap ||| (1#32 <<< uiPrio) else m.uiMap
      }.append uiPrio pmsgnode

def msgQueueMsgLen : ℕ :=
  let pmsgnode := m.pmonoHeader (archFindLsb m.uiMap - 1)
  if pmsgnode = 0 then 0 else m.stMsgLen pmsgnode

/-- None of the sizes that `API_MsgQueueCreate` computes wraps. -/
structure SizesFit (w : Word) (ulMaxMsgCounter stMaxMsgByteSize : ℕ) : Prop where
  round : stMaxMsgByteSize + (w.bytes - 1) < 2 ^ w.bits
  total : ulMaxMsgCounter * (w.roundUp stMaxMsgByteSize + sizeofMsgNode w) < 2 ^ w.bits

structure Layout where
  word : Word
  pvBuffer : ℕ
  stMaxBytes : ℕ
  ulMsgTotal : ℕ

def Layout.stride (L : Layout) : ℕ := L.word.roundUp L.stMaxBytes + sizeofMsgNode L.word

def Layout.addr (L : Layout) (i : ℕ) : ℕ := L.pvBuffer + i * L.stride

def Layout.ptr (L : Layout) (o : Option ℕ) : ℕ := o.elim 0 L.addr

structure Layout.Ok (L : Layout) : Prop where
  pos : 0 < L.pvBuffer
  inside : L.pvBuffer + L.ulMsgTotal * L.stride < 2 ^ L.word.bits
  room : L.stMaxBytes + sizeofMsgNode L.word ≤ L.stride

structure Nodes (L : Layout) (n : ℕ) (memory : Bytes) (next : ℕ → Option ℕ) (stMsgLen : ℕ → ℕ)
    (buffer : ℕ → ℕ → UInt8) : Prop where
  next : ∀ i < n, getLE L.word.bytes memory (L.addr i) = L.ptr (next i)
  len : ∀ i < L.ulMsgTotal, getLE L.word.bytes memory (L.addr i + L.word.bytes) = stMsgLen i
  body : ∀ i < L.ulMsgTotal, ∀ k < L.stMaxBytes,
    memory (L.addr i + sizeofMsgNode L.word + k) = buffer i k

variable {L : Layout} {memory : Bytes} {next : ℕ → Option ℕ} {stMsgLen : ℕ → ℕ}
  {buffer : ℕ → ℕ → UInt8} {i j n : ℕ} {o : Option ℕ}

theorem getLE_patch {w len pos pos' : ℕ} {src : ℕ → UInt8}
    (h : pos' + w ≤ pos ∨ pos + len ≤ pos') :
    getLE w (patch memory pos len src) pos' = getLE w memory pos' := by
  apply getLE_congr
  intro k hk
  exact patch_outside _ _ (by omega)

theorem getLE_put {w pos pos' : ℕ} {l : List UInt8}
    (h : pos' + w ≤ pos ∨ pos + l.length ≤ pos') :
    getLE w (RingBuffer.put memory pos l) pos' = getLE w memory pos' := by
  apply getLE_congr
  intro k hk
  exact RingBuffer.put_outside (by omega)

theorem Layout.addr_le (hij : i < j) : L.addr i + L.stride ≤ L.addr j := by
  unfold Layout.addr
  have hmul := Nat.mul_le_mul_right L.stride (show i + 1 ≤ j from hij)
  rw [Nat.add_mul, Nat.one_mul] at hmul
  omega

theorem Layout.addr_apart (hij : i ≠ j) :
    L.addr i + L.stride ≤ L.addr j ∨ L.addr j + L.stride ≤ L.addr i := by
  rcases Nat.lt_or_gt_of_ne hij with hlt | hgt
  · exact Or.inl (addr_le hlt)
  · exact Or.inr (addr_le hgt)

theorem Layout.addr_inj (hL : L.Ok) (h : L.addr i = L.addr j) : i = j := by
  by_contra hij
  have hroom := hL.room
  have hword : 0 < sizeofMsgNode L.word := by cases L.word <;> decide
  rcases L.addr_apart hij with hle | hle <;> omega

theorem Layout.Ok.addr_lt (hL : L.Ok) (hi : i < L.ulMsgTotal) :
    L.addr i + L.stride < 2 ^ L.word.bits := by
  have hle := L.addr_le hi
  exact Nat.lt_of_le_of_lt hle hL.inside

theorem Layout.Ok.addr_pos (hL : L.Ok) (i : ℕ) : L.addr i ≠ 0 := by
  have hpos := hL.pos
  unfold Layout.addr
  omega

theorem Layout.Ok.ptr_lt (hL : L.Ok) (ho : ∀ i ∈ o, i < L.ulMsgTotal) :
    L.ptr o < 256 ^ L.word.bytes := by
  rw [← Word.two_pow_bits]
  cases o with
  | none => exact Nat.two_pow_pos _
  | some i => exact Nat.lt_of_le_of_lt (Nat.le_add_right _ _) (hL.addr_lt (ho i rfl))

theorem Layout.Ok.ptr_eq_zero (hL : L.Ok) : L.ptr o = 0 ↔ o = none := by
  cases o with
  | none => exact iff_of_true rfl rfl
  | some i => exact iff_of_false (hL.addr_pos i) nofun

theorem Layout.Ok.ptr_inj (hL : L.Ok) (o o' : Option ℕ) : L.ptr o = L.ptr o' ↔ o = o' := by
  constructor
  · intro h
    cases o with
    | none => exact (hL.ptr_eq_zero.mp h.symm).symm
    | some i =>
      cases o' with
      | none => exact hL.ptr_eq_zero.mp h
      | some j => rw [Layout.addr_inj hL h]
  · exact congrArg L.ptr

theorem Nodes.setNext (h : Nodes L n memory next stMsgLen buffer) (hL : L.Ok)
    (ho : ∀ i ∈ o, i < L.ulMsgTotal) (n' : ℕ) (hn : ∀ j < n', j < n ∨ j = i) :
    Nodes L n' (putLE L.word.bytes (L.ptr o) memory (L.addr i)) (update next i o) stMsgLen buffer := by
  have hroom := hL.room
  have hsize : sizeofMsgNode L.word = 2 * L.word.bytes := rfl
  constructor
  case next =>
    intro j hj
    by_cases hji : j = i
    · rw [hji, update_self, getLE_putLE, Nat.mod_eq_of_lt (hL.ptr_lt ho)]
    · rw [update_of_ne hji, ← h.next j ((hn j hj).resolve_right hji)]
      apply getLE_patch
      rcases L.addr_apart hji with hle | hle <;> omega
  case len =>
    intro j hj
    rw [← h.len j hj]
    apply getLE_patch
    by_cases hji : j = i
    · rw [hji]
      omega
    · rcases L.addr_apart hji with hle | hle <;> omega
  case body =>
    intro j hj k hk
    rw [← h.body j hj k hk]
    apply patch_outside
    by_cases hji : j = i
    · rw [hji]
      omega
    · rcases L.addr_apart hji with hle | hle <;> omega

theorem Nodes.fill (h : Nodes L n memory next stMsgLen buffer) (hL : L.Ok) {msg : List UInt8}
    (hmsg : msg.length ≤ L.stMaxBytes) (hi : i < L.ulMsgTotal) :
    Nodes L n
      (RingBuffer.put (putLE L.word.bytes msg.length memory (L.addr i + L.word.bytes))
        (L.addr i + sizeofMsgNode L.word) msg)
      next (update stMsgLen i msg.length)
      (update buffer i (RingBuffer.put (buffer i) 0 msg)) := by
  have hroom := hL.room
  have hsize : sizeofMsgNode L.word = 2 * L.word.bytes := rfl
  have hlt := hL.addr_lt hi
  constructor
  case next =>
    intro j hj
    have hout : L.addr j + L.word.bytes ≤ L.addr i + L.word.bytes ∨
        L.addr i + L.stride ≤ L.addr j := by
      by_cases hji : j = i
      · rw [hji]
        exact Or.inl (Nat.le_refl _)
      · rcases L.addr_apart hji with hle | hle <;> omega
    rw [← h.next j hj, getLE_put (by omega), putLE, getLE_patch (by omega)]
  case len =>
    intro j hj
    rw [getLE_put]
    · by_cases hji : j = i
      · rw [hji, update_self, getLE_putLE, ← Word.two_pow_bits, Nat.mod_eq_of_lt (by omega)]
      · rw [update_of_ne hji, ← h.len j hj, putLE, getLE_patch]
        rcases L.addr_apart hji with hle | hle <;> omega
    · by_cases hji : j = i
      · rw [hji]
        omega
      · rcases L.addr_apart hji with hle | hle <;> omega
  case body =>
    intro j hj k hk
    by_cases hji : j = i
    · subst hji
      rw [update_self]
      have hold : putLE L.word.bytes msg.length memory (L.addr j + L.word.bytes)
          (L.addr j + sizeofMsgNode L.word + k) = buffer j k := by
        rw [← h.body j hj k hk]
        exact patch_outside _ _ (by omega)
      by_cases hin : k < msg.length
      · rw [RingBuffer.put_inside _ _ k hin]
        have hput := RingBuffer.put_inside (buffer j) 0 k hin
        rwa [Nat.zero_add, eq_comm] at hput
      · rw [RingBuffer.put_outside (by omega), RingBuffer.put_outside (by omega), hold]
    · rw [update_of_ne hji, ← h.body j hj k hk]
      rw [RingBuffer.put_outside, putLE, patch_outside]
      · rcases L.addr_apart hji with hle | hle <;> omega
      · rcases L.addr_apart hji with hle | hle <;> omega

structure Sim (L : Layout) (m : MsgQueue) (a : MsgQueueLib.MsgQueue UInt8) : Prop where
  word : m.word = L.word
  buffer : m.pvBuffer = L.pvBuffer
  nodes : Nodes L L.ulMsgTotal m.memory a.next a.stMsgLen a.buffer
  free : m.pmonoFree = L.ptr a.pmonoFree
  header : ∀ p, m.pmonoHeader p = L.ptr (a.pmonoHeader p)
  tail : ∀ p, m.pmonoTail p = L.ptr (a.pmonoTail p)
  map : m.uiMap = a.uiMap

variable {m : MsgQueue} {a a' : MsgQueueLib.MsgQueue UInt8}

theorem Sim.next_eq (h : Sim L m a) (hi : i < L.ulMsgTotal) : m.next (L.addr i) = L.ptr (a.next i) := by
  rw [MsgQueue.next, h.word, h.nodes.next i hi]

theorem Sim.stMsgLen_eq (h : Sim L m a) (hi : i < L.ulMsgTotal) :
    m.stMsgLen (L.addr i) = a.stMsgLen i := by
  rw [MsgQueue.stMsgLen, h.word, h.nodes.len i hi]

theorem Sim.bytes_eq (h : Sim L m a) (hi : i < L.ulMsgTotal) (hn : n ≤ L.stMaxBytes) :
    m.bytes (L.addr i) n = slice (a.buffer i) 0 n := by
  unfold MsgQueue.bytes RingBuffer.slice
  apply List.map_congr_left
  intro k hk
  have hlt := List.mem_range.mp hk
  rw [h.word, h.nodes.body i hi k (by omega), Nat.zero_add]

theorem Sim.msgLen (h : Sim L m a) (hL : L.Ok)
    (hheader : ∀ p, ∀ i ∈ a.pmonoHeader p, i < L.ulMsgTotal) :
    msgQueueMsgLen m = MsgQueueLib.msgQueueMsgLen a := by
  unfold msgQueueMsgLen MsgQueueLib.msgQueueMsgLen
  rw [h.map, h.header]
  cases hnode : a.pmonoHeader (archFindLsb a.uiMap - 1) with
  | none => rfl
  | some i => exact (if_neg (hL.addr_pos i)).trans (h.stMsgLen_eq (hheader _ i hnode))

theorem Sim.setNext (h : Sim L m a) (hL : L.Ok) (ho : ∀ i ∈ o, i < L.ulMsgTotal) (i : ℕ) :
    Sim L (m.setNext (L.addr i) (L.ptr o)) { a with next := update a.next i o } := by
  have hnodes := h.nodes.setNext hL (i := i) ho _ fun j hj => Or.inl hj
  rw [← h.word] at hnodes
  exact ⟨h.word, h.buffer, hnodes, h.free, h.header, h.tail, h.map⟩

theorem Sim.get (h : Sim L m a) (hL : L.Ok)
    (hheader : ∀ p, ∀ i ∈ a.pmonoHeader p, i < L.ulMsgTotal)
    (hfree : ∀ i ∈ a.pmonoFree, i < L.ulMsgTotal) {stMaxByteSize : ℕ} {got : Got UInt8}
    (hget : MsgQueueLib.msgQueueGet a stMaxByteSize = some (got, a'))
    (hlen : got.whole.length ≤ L.stMaxBytes) :
    ∃ m', msgQueueGet m stMaxByteSize = some (got, m') ∧ Sim L m' a' := by
  unfold MsgQueueLib.msgQueueGet at hget
  unfold msgQueueGet
  rw [h.map]
  generalize archFindLsb a.uiMap - 1 = iQ at hget ⊢
  cases hnode : a.pmonoHeader iQ with
  | none => simp [listMonoAllocateSeq, hnode] at hget
  | some i =>
    have hi := hheader iQ i hnode
    simp only [listMonoAllocateSeq, hnode, Option.map_some, Option.some.injEq, Prod.mk.injEq]
      at hget
    obtain ⟨rfl, rfl⟩ := hget
    have hwhole : a.stMsgLen i ≤ L.stMaxBytes := by simpa [MsgQueueLib.MsgQueue.body] using hlen
    have hcut : (if stMaxByteSize < a.stMsgLen i then stMaxByteSize else a.stMsgLen i) ≤
        L.stMaxBytes := by
      split <;> omega
    have hptr : m.pmonoHeader iQ = L.addr i := by
      rw [h.header, hnode]
      rfl
    have htail : m.pmonoTail iQ = L.addr i ↔ a.pmonoTail iQ = some i := by
      rw [h.tail]
      exact hL.ptr_inj _ (some i)
    simp only [hptr, if_neg (hL.addr_pos i), h.stMsgLen_eq hi, h.next_eq hi, h.bytes_eq hi hcut,
      h.bytes_eq hi hwhole, hL.ptr_eq_zero, htail]
    refine ⟨_, rfl, ?_⟩
    constructor
    case word => exact h.word
    case buffer => exact h.buffer
    case nodes =>
      have hnodes := h.nodes.setNext hL (i := i) hfree _ fun j hj => Or.inl hj
      rw [← h.free, ← h.word] at hnodes
      exact hnodes
    case free => rfl
    case header =>
      intro p
      by_cases hp : p = iQ
      · simp [hp]
      · simpa [hp] using h.header p
    case tail =>
      intro p
      by_cases hp : p = iQ
      · subst hp
        by_cases hlast : a.pmonoTail p = some i <;> simp [hlast, h.tail]
      · simpa [hp] using h.tail p
    case map => rfl

theorem Sim.fill (h : Sim L m a) (hL : L.Ok) {msg : List UInt8}
    (hmsg : msg.length ≤ L.stMaxBytes) (hi : i < L.ulMsgTotal) :
    Sim L (m.fill (L.addr i) msg) { a with
      stMsgLen := update a.stMsgLen i msg.length
      buffer := update a.buffer i (RingBuffer.put (a.buffer i) 0 msg) } := by
  have hnodes := h.nodes.fill hL hmsg hi
  rw [← h.word] at hnodes
  exact ⟨h.word, h.buffer, hnodes, h.free, h.header, h.tail, h.map⟩

theorem Sim.append (h : Sim L m a) (hL : L.Ok) {p : ℕ} (hi : i < L.ulMsgTotal) :
    Sim L (m.append p (L.addr i)) { a with
      next := (listMonoFreeSeq a.next (a.pmonoHeader p) (a.pmonoTail p) i).1
      pmonoHeader := update a.pmonoHeader p
        (listMonoFreeSeq a.next (a.pmonoHeader p) (a.pmonoTail p) i).2.1
      pmonoTail := update a.pmonoTail p
        (listMonoFreeSeq a.next (a.pmonoHeader p) (a.pmonoTail p) i).2.2 } := by
  have hself : ∀ j ∈ some i, j < L.ulMsgTotal := by simpa using hi
  have hend := h.setNext hL (o := none) (by simp) i
  have hlast : m.pmonoTail p = L.ptr (a.pmonoTail p) := h.tail p
  have hnew : ∀ {links : ℕ → ℕ} {nodes : ℕ → Option ℕ}, (∀ p, links p = L.ptr (nodes p)) →
      ∀ k, update links p (L.addr i) k = L.ptr (update nodes p (some i) k) := by
    intro links nodes hlinks k
    by_cases hk : k = p
    · simp [hk, Layout.ptr]
    · simp [hk, hlinks]
  unfold MsgQueue.append listMonoFreeSeq
  cases htail : a.pmonoTail p with
  | none =>
    have hzero : (m.setNext (L.addr i) 0).pmonoTail p = 0 := by
      rw [htail] at hlast
      exact hlast
    simp only [hzero, ne_eq, not_true_eq_false, if_false]
    exact ⟨hend.word, hend.buffer, hend.nodes, hend.free, hnew hend.header, hnew hend.tail,
      hend.map⟩
  | some z =>
    have hsome : (m.setNext (L.addr i) 0).pmonoTail p = L.addr z := by
      rw [htail] at hlast
      exact hlast
    have hlinked := hend.setNext hL hself z
    simp only [hsome, ne_eq, hL.addr_pos z, not_false_eq_true, if_true, update_eq_self]
    exact ⟨hlinked.word, hlinked.buffer, hlinked.nodes, hlinked.free, hlinked.header,
      hnew hlinked.tail, hlinked.map⟩

theorem Sim.put (h : Sim L m a) (hL : L.Ok) (hfree : ∀ i ∈ a.pmonoFree, i < L.ulMsgTotal)
    {msg : List UInt8} (hmsg : msg.length ≤ L.stMaxBytes) (p : ℕ) :
    Sim L (msgQueuePut m msg p) (MsgQueueLib.msgQueuePut a msg p) := by
  unfold msgQueuePut MsgQueueLib.msgQueuePut
  have hpool := h.free
  cases hnode : a.pmonoFree with
  | none =>
    rw [hnode] at hpool
    have hpool : m.pmonoFree = 0 := hpool
    rw [if_pos hpool]
    exact h
  | some i =>
    have hi := hfree i hnode
    rw [hnode] at hpool
    have hpool : m.pmonoFree = L.addr i := hpool
    have htaken : Sim L { m with pmonoFree := m.next (L.addr i) }
        { a with pmonoFree := a.next i } :=
      ⟨h.word, h.buffer, h.nodes, h.next_eq hi, h.header, h.tail, h.map⟩
    have hfilled := htaken.fill hL hmsg hi
    have hempty : m.pmonoHeader p = 0 ↔ a.pmonoHeader p = none := by
      rw [h.header, hL.ptr_eq_zero]
    have hmarked : Sim L
        { { m with pmonoFree := m.next (L.addr i) }.fill (L.addr i) msg with
          uiMap := if m.pmonoHeader p = 0 then m.uiMap ||| (1#32 <<< p) else m.uiMap }
        { a with
          pmonoFree := a.next i
          stMsgLen := update a.stMsgLen i msg.length
          buffer := update a.buffer i (RingBuffer.put (a.buffer i) 0 msg)
          uiMap := if a.pmonoHeader p = none then a.uiMap ||| (1#32 <<< p) else a.uiMap } := by
      refine ⟨hfilled.word, hfilled.buffer, hfilled.nodes, hfilled.free, hfilled.header,
        hfilled.tail, ?_⟩
      simp only [hempty, h.map]
    rw [hpool, if_neg (hL.addr_pos i)]
    exact hmarked.append hL hi

section Clear

variable {w : Word} {st total : ℕ}

theorem SizesFit.allocated (h : SizesFit w total st) :
    heapAllocateByteSize w total st = total * (w.roundUp st + sizeofMsgNode w) := by
  have htotal := h.total
  unfold heapAllocateByteSize maxMsgByteSizeReal
  by_cases hzero : total = 0
  · simp [hzero]
  · have hle := Nat.le_mul_of_pos_left (w.roundUp st + sizeofMsgNode w) (Nat.pos_of_ne_zero hzero)
    rw [Nat.mod_eq_of_lt (Nat.lt_of_le_of_lt hle htotal), Nat.mod_eq_of_lt htotal]

def MsgQueue.layout (m : MsgQueue) (stMaxBytes ulMsgTotal : ℕ) : Layout :=
  ⟨m.word, m.pvBuffer, stMaxBytes, ulMsgTotal⟩

theorem clearLoop_sim {m : MsgQueue} {a : MsgQueueLib.MsgQueue UInt8} (hL : L.Ok) (left i : ℕ)
    (htotal : i + left = L.ulMsgTotal) (hword : m.word = L.word) (hbuffer : m.pvBuffer = L.pvBuffer)
    (hnodes : Nodes L i m.memory a.next a.stMsgLen a.buffer)
    (hfree : m.pmonoFree = L.ptr a.pmonoFree) (hpool : ∀ j ∈ a.pmonoFree, j < i)
    (hheader : ∀ p, m.pmonoHeader p = L.ptr (a.pmonoHeader p))
    (htail : ∀ p, m.pmonoTail p = L.ptr (a.pmonoTail p)) (hmap : m.uiMap = a.uiMap) :
    Sim L (clearLoop (L.word.roundUp L.stMaxBytes) m left (L.addr i))
      (MsgQueueLib.clearLoop a left i) := by
  induction left generalizing m a i with
  | zero =>
    rw [Nat.add_zero] at htotal
    rw [htotal] at hnodes
    exact ⟨hword, hbuffer, hnodes, hfree, hheader, htail, hmap⟩
  | succ left ih =>
    have hnext : (L.addr i + sizeofMsgNode m.word + L.word.roundUp L.stMaxBytes) %
        2 ^ m.word.bits = L.addr (i + 1) := by
      have hlt := hL.addr_lt (i := i) (by omega)
      have hstride : L.stride = L.word.roundUp L.stMaxBytes + sizeofMsgNode L.word := rfl
      have hstep : L.addr (i + 1) = L.addr i + L.stride := by
        rw [Layout.addr, Layout.addr, Nat.add_mul, Nat.one_mul, Nat.add_assoc]
      rw [hword, hstep, Nat.mod_eq_of_lt (by omega)]
      omega
    have hlinked := hnodes.setNext hL (i := i) (o := a.pmonoFree)
      (fun j hj => by
        have hlt := hpool j hj
        omega)
      (i + 1) (fun j hj => by omega)
    rw [← hfree, ← hword] at hlinked
    rw [clearLoop, hnext, MsgQueueLib.clearLoop]
    refine ih (m := m.free (L.addr i)) (i + 1) (by omega) hword hbuffer hlinked rfl ?_ hheader
      htail hmap
    intro j hj
    obtain rfl : i = j := Option.some.inj hj
    exact Nat.lt_succ_self i

theorem sim_clear (m : MsgQueue) (hL : (m.layout st total).Ok) :
    ∃ a, Sim (m.layout st total) (msgQueueClear m st total)
      (MsgQueueLib.msgQueueClear a total) := by
  let L := m.layout st total
  let a : MsgQueueLib.MsgQueue UInt8 :=
    { next := fun _ => none
      pmonoFree := none
      pmonoHeader := fun _ => none
      pmonoTail := fun _ => none
      uiMap := 0
      stMsgLen := fun i => getLE m.word.bytes m.memory (L.addr i + m.word.bytes)
      buffer := fun i k => m.memory (L.addr i + sizeofMsgNode m.word + k) }
  have hnodes : Nodes L 0 m.memory a.next a.stMsgLen a.buffer :=
    ⟨by simp, fun i _ => rfl, fun i _ k _ => rfl⟩
  have hfirst : L.addr 0 = m.pvBuffer := by simp [Layout.addr, L, MsgQueue.layout]
  refine ⟨a, ?_⟩
  have hloop := clearLoop_sim (m := { m with
      pmonoFree := 0
      uiMap := 0
      pmonoHeader := fun _ => 0
      pmonoTail := fun _ => 0 }) (a := a) hL total 0 (Nat.zero_add _) rfl rfl hnodes rfl (by simp [a])
    (fun _ => rfl) (fun _ => rfl) rfl
  rw [hfirst] at hloop
  exact hloop

end Clear

structure Stored (L : Layout) (m : MsgQueue) (a : MsgQueueLib.MsgQueue UInt8)
    (chain : Slot → List ℕ) (q : List (Msg (List UInt8))) : Prop where
  sim : Sim L m a
  holds : MsgQueueLib.Holds L.ulMsgTotal a chain q
  short : ∀ x ∈ q, x.body.length ≤ L.stMaxBytes

variable {chain : Slot → List ℕ} {q : List (Msg (List UInt8))}

theorem Stored.head_lt (h : Stored L m a chain q) (k : Slot) :
    ∀ i ∈ a.head k, i < L.ulMsgTotal := by
  intro i hi
  have hmono := (h.holds.mono k).head_eq
  rw [hmono] at hi
  exact h.holds.bound k i (List.mem_of_mem_head? hi)

theorem Stored.put (h : Stored L m a chain q) (hL : L.Ok) (hroom : q.length < L.ulMsgTotal)
    {msg : List UInt8} (hmsg : msg.length ≤ L.stMaxBytes) {p : ℕ} (hp : p < msgQPrio) :
    ∃ a chain', Stored L (msgQueuePut m msg p) a chain' (q ++ [⟨urgency p, msg⟩]) := by
  obtain ⟨chain', hholds⟩ := h.holds.put hroom msg hp
  refine ⟨_, chain', h.sim.put hL (h.head_lt .free) hmsg p, hholds, ?_⟩
  intro x hx
  rcases List.mem_append.mp hx with hx | hx
  · exact h.short x hx
  · rw [List.mem_singleton.mp hx]
    exact hmsg

theorem Stored.get (h : Stored L m a chain q) (hL : L.Ok) (hne : q ≠ []) (stMaxByteSize : ℕ) :
    ∃ p msg m' a chain', best q = some ⟨p, msg⟩ ∧ msgQueueMsgLen m = msg.length ∧
      msgQueueGet m stMaxByteSize = some (⟨msg.take stMaxByteSize, msg⟩, m') ∧
      Stored L m' a chain' (pop q) := by
  obtain ⟨p, msg, a', chain', hbest, hlen, hget, hholds⟩ := h.holds.get hne stMaxByteSize
  have hheader : ∀ p, ∀ i ∈ a.pmonoHeader p, i < L.ulMsgTotal := fun p => h.head_lt (.prio p)
  have hshort : msg.length ≤ L.stMaxBytes := h.short ⟨p, msg⟩ (List.mem_of_find?_eq_some hbest)
  obtain ⟨m', hget', hsim⟩ := h.sim.get hL hheader (h.head_lt .free) hget hshort
  refine ⟨p, msg, m', a', chain', hbest, ?_, hget', hsim, hholds, ?_⟩
  · rw [h.sim.msgLen hL hheader, hlen]
  · exact fun x hx => h.short x (List.mem_of_mem_eraseP hx)

theorem stored_clear (m : MsgQueue) {st total : ℕ} (hL : (m.layout st total).Ok) :
    ∃ a chain, Stored (m.layout st total) (msgQueueClear m st total) a chain [] := by
  obtain ⟨a, hsim⟩ := sim_clear m hL
  obtain ⟨chain, hholds⟩ := MsgQueueLib.holds_clear a total
  exact ⟨_, chain, hsim, hholds, nofun⟩

theorem Stored.clear (h : Stored L m a chain q) (hL : L.Ok) :
    ∃ a chain, Stored L (msgQueueClear m L.stMaxBytes L.ulMsgTotal) a chain [] := by
  have hlayout : m.layout L.stMaxBytes L.ulMsgTotal = L := by
    rw [MsgQueue.layout, h.sim.word, h.sim.buffer]
  have hcleared := stored_clear m (hlayout.symm ▸ hL)
  rwa [hlayout] at hcleared

theorem msgQueueGet_bytes {m' : MsgQueue} {stMaxByteSize : ℕ} {got : Got UInt8}
    (h : msgQueueGet m stMaxByteSize = some (got, m')) :
    got.bytes = got.whole.take stMaxByteSize := by
  unfold msgQueueGet at h
  dsimp only at h
  split at h
  case isTrue => cases h
  case isFalse =>
    obtain ⟨rfl, -⟩ := Prod.mk.inj (Option.some.inj h)
    simp only [MsgQueue.bytes, slice, ← List.map_take, List.take_range]
    split
    case isTrue hlt => rw [Nat.min_eq_left (Nat.le_of_lt hlt)]
    case isFalse hge => rw [Nat.min_eq_right (Nat.le_of_not_lt hge)]

def blockAt (word : ByteBuffer.Word) : MsgQueue :=
  ⟨word, fun _ => 0, 0x1000, 0, fun _ => 0, fun _ => 0, 0⟩

end SylixOS.MsgQueueMem
