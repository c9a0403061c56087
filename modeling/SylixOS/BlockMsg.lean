import SylixOS.ByteBuffer
import SylixOS.RingBuffer
import Mathlib.Algebra.BigOperators.Group.List.Basic
import Mathlib.Algebra.GroupWithZero.Nat

/-! The block message buffer of `bmsgLib.c`. Each message is behind two bytes with its
length, and any of its bytes may be the last of the buffer. The end of the buffer is an address,
and addresses wrap: it is behind the buffer when the header and the buffer fit a `size_t`. -/

namespace SylixOS.BlockMsg
open RingBuffer Function
open ByteBuffer (Word)

def prefixLen : ℕ := 2

def minSize : ℕ := 64

def sizeofBmsg (w : Word) : ℕ := 5 * w.bytes

/-- `LW_BMSG` with the bytes from `BM_pucBuffer` on; the other two pointers are offsets from it. -/
structure Bmsg where
  pucBuffer : ℕ
  buffer : ℕ → UInt8
  stSize : ℕ
  stLeft : ℕ
  put : ℕ
  get : ℕ

def bmsgCreate (w : Word) (sheapAlloc : ℕ → Option ℕ) (stSize : ℕ) (buffer : ℕ → UInt8) :
    Option Bmsg :=
  if stSize < minSize then none
  else
    (sheapAlloc ((sizeofBmsg w + stSize) % 2 ^ w.bits)).map fun pbmsg =>
      ⟨pbmsg + sizeofBmsg w, buffer, stSize, stSize, 0, 0⟩

def Bmsg.adjust (w : Word) (b : Bmsg) (p : ℕ) : ℕ :=
  if (b.pucBuffer + b.stSize) % 2 ^ w.bits ≤ (b.pucBuffer + p) % 2 ^ w.bits then 0 else p

def Bmsg.save (w : Word) (b : Bmsg) (c : UInt8) : Bmsg :=
  { b with buffer := update b.buffer b.put c, put := b.adjust w (b.put + 1) }

def Bmsg.copyIn (b : Bmsg) (msg : List UInt8) : Bmsg :=
  let stLen := b.stSize - b.put
  if msg.length ≤ stLen then
    { b with
      buffer := RingBuffer.put b.buffer b.put msg
      put := if msg.length < stLen then b.put + msg.length else 0 }
  else
    { b with
      buffer := RingBuffer.put (RingBuffer.put b.buffer b.put (msg.take stLen)) 0 (msg.drop stLen)
      put := msg.length - stLen }

def lengthBytes (stSize : ℕ) : List UInt8 :=
  [UInt8.ofNat (stSize >>> 8), UInt8.ofNat (stSize &&& 0xff)]

def bmsgPut (w : Word) (b : Bmsg) (msg : List UInt8) : ℤ × Bmsg :=
  let stSave := (msg.length + prefixLen) % 2 ^ w.bits
  if 65535 ≤ stSave then (0, b)
  else if b.stLeft < stSave then (0, b)
  else
    let b := ((lengthBytes msg.length).foldl (Bmsg.save w) b).copyIn msg
    (msg.length, { b with stLeft := b.stLeft - stSave })

def Bmsg.nextLen (b : Bmsg) : ℕ :=
  let ucHigh := b.buffer b.get
  let ucLow := if b.get + 1 ≥ b.stSize then b.buffer 0 else b.buffer (b.get + 1)
  (ucHigh.toNat <<< 8) + ucLow.toNat

def Bmsg.copyOut (b : Bmsg) (get stSize : ℕ) : List UInt8 × ℕ :=
  let stLen := b.stSize - get
  if stSize ≤ stLen then
    (slice b.buffer get stSize, if stSize < stLen then get + stSize else 0)
  else (slice b.buffer get stLen ++ slice b.buffer 0 (stSize - stLen), stSize - stLen)

def bmsgGet (w : Word) (b : Bmsg) (stBufferSize : ℕ) : ℤ × List UInt8 × Bmsg :=
  if b.stSize = b.stLeft then (0, [], b)
  else
    let stSize := b.nextLen
    if stSize > stBufferSize then (-1, [], b)
    else
      let out := b.copyOut (b.adjust w (b.adjust w (b.get + 1) + 1)) stSize
      (stSize, out.1, { b with
        get := out.2
        stLeft := (b.stLeft + (stSize + prefixLen)) % 2 ^ w.bits })

def bmsgFlush (b : Bmsg) : Bmsg := { b with stLeft := b.stSize, put := 0, get := 0 }

def bmsgNBytesNext (b : Bmsg) : ℤ := if b.stSize = b.stLeft then 0 else b.nextLen

inductive Op where
  | put (msg : List UInt8)
  | get (stBufferSize : ℕ)
  | nBytesNext
  | flush

def call (w : Word) (b : Bmsg) : Op → (ℤ × List UInt8) × Bmsg
  | .put msg => (((bmsgPut w b msg).1, []), (bmsgPut w b msg).2)
  | .get stBufferSize =>
    let r := bmsgGet w b stBufferSize
    ((r.1, r.2.1), r.2.2)
  | .nBytesNext => ((bmsgNBytesNext b, []), b)
  | .flush => ((0, []), bmsgFlush b)

def used (q : List (List UInt8)) : ℕ := (q.map fun msg => msg.length + prefixLen).sum

def Accepts (size : ℕ) (q : List (List UInt8)) (msg : List UInt8) : Prop :=
  msg.length + prefixLen < 65535 ∧ msg.length + prefixLen ≤ size - used q

instance (size : ℕ) (q : List (List UInt8)) (msg : List UInt8) : Decidable (Accepts size q msg) :=
  inferInstanceAs (Decidable (_ ∧ _))

def queueCall (size : ℕ) (q : List (List UInt8)) : Op → (ℤ × List UInt8) × List (List UInt8)
  | .put msg => if Accepts size q msg then ((msg.length, []), q ++ [msg]) else ((0, []), q)
  | .get stBufferSize =>
    match q with
    | [] => ((0, []), [])
    | msg :: rest =>
      if stBufferSize < msg.length then ((-1, []), msg :: rest) else ((msg.length, msg), rest)
  | .nBytesNext => (((q.head?.elim 0 List.length : ℕ), []), q)
  | .flush => ((0, []), [])

def Refused (size : ℕ) (q : List (List UInt8)) : Op → Prop
  | .put msg => ¬Accepts size q msg
  | .get stBufferSize => ∃ msg ∈ q.head?, stBufferSize < msg.length
  | _ => False

def frames (q : List (List UInt8)) : List UInt8 := q.flatMap fun msg => lengthBytes msg.length ++ msg

structure Filled (w : Word) (b : Bmsg) (l : List UInt8) : Prop where
  inside : b.pucBuffer + b.stSize < 2 ^ w.bits
  get_lt : b.get < b.stSize
  put_eq : b.put = (b.get + l.length) % b.stSize
  bytes : content b.buffer b.stSize b.get l.length = l

structure Holds (w : Word) (b : Bmsg) (q : List (List UInt8)) : Prop where
  filled : Filled w b (frames q)
  left_eq : b.stLeft + used q = b.stSize
  short : ∀ msg ∈ q, msg.length + prefixLen < 65535

variable {w : Word} {b : Bmsg} {l l' msg : List UInt8} {n p : ℕ}

def Bmsg.wrote (b : Bmsg) (l : List UInt8) : Bmsg :=
  { b with
    buffer := wrapPut b.buffer b.stSize b.put l
    put := (b.put + l.length) % b.stSize }

theorem adjust_eq (hinside : b.pucBuffer + b.stSize < 2 ^ w.bits) (h : p < b.stSize) :
    b.adjust w (p + 1) = (p + 1) % b.stSize := by
  unfold Bmsg.adjust
  rw [Nat.mod_eq_of_lt hinside, Nat.mod_eq_of_lt (by omega)]
  split
  case isTrue hend =>
    rw [show p + 1 = b.stSize by omega, Nat.mod_self]
  case isFalse hin => rw [Nat.mod_eq_of_lt (by omega)]

theorem save_eq (hinside : b.pucBuffer + b.stSize < 2 ^ w.bits) (h : b.put < b.stSize)
    (c : UInt8) : b.save w c = b.wrote [c] := by
  have hone : [c].length ≤ b.stSize - b.put := by
    rw [List.length_singleton]
    omega
  rw [Bmsg.save, Bmsg.wrote, wrapPut_of_le hone, put_singleton, adjust_eq hinside h,
    List.length_singleton]

theorem copyIn_eq (h : b.put < b.stSize) (hl : l.length ≤ b.stSize) : b.copyIn l = b.wrote l := by
  unfold Bmsg.copyIn Bmsg.wrote
  by_cases hfit : l.length ≤ b.stSize - b.put
  · have hput : (if l.length < b.stSize - b.put then b.put + l.length else 0) =
        (b.put + l.length) % b.stSize := by
      split
      · rw [Nat.mod_eq_of_lt (by omega)]
      · rw [show b.put + l.length = b.stSize by omega, Nat.mod_self]
    simp only [if_pos hfit, wrapPut_of_le hfit, hput]
  · have hput : l.length - (b.stSize - b.put) = (b.put + l.length) % b.stSize := by
      rw [Nat.mod_eq_sub_mod (by omega), Nat.mod_eq_of_lt (by omega)]
      omega
    simp only [if_neg hfit, hput, wrapPut]

theorem copyOut_eq (h : p < b.stSize) (hn : n ≤ b.stSize) :
    b.copyOut p n = (content b.buffer b.stSize p n, (p + n) % b.stSize) := by
  unfold Bmsg.copyOut
  rw [← wrapGet_eq h hn, wrapGet]
  by_cases hfit : n ≤ b.stSize - p
  · have hget : (if n < b.stSize - p then p + n else 0) = (p + n) % b.stSize := by
      split
      · rw [Nat.mod_eq_of_lt (by omega)]
      · rw [show p + n = b.stSize by omega, Nat.mod_self]
    simp [if_pos hfit, hget, Nat.min_eq_left hfit, Nat.sub_eq_zero_of_le hfit, slice]
  · have hget : n - (b.stSize - p) = (p + n) % b.stSize := by
      rw [Nat.mod_eq_sub_mod (by omega), Nat.mod_eq_of_lt (by omega)]
      omega
    have hmin : min n (b.stSize - p) = b.stSize - p := by omega
    simp only [if_neg hfit, ← hget, hmin]

theorem Filled.wrote (h : Filled w b l) (hroom : l.length + l'.length ≤ b.stSize) :
    Filled w (b.wrote l') (l ++ l') where
  inside := h.inside
  get_lt := h.get_lt
  put_eq := by
    rw [Bmsg.wrote, h.put_eq, Nat.mod_add_mod, List.length_append, Nat.add_assoc]
  bytes := by
    rw [List.length_append, Bmsg.wrote, h.put_eq]
    simp only
    rw [content_wrapPut h.get_lt hroom, h.bytes]

theorem Filled.put_lt (h : Filled w b l) : b.put < b.stSize := by
  rw [h.put_eq]
  exact Nat.mod_lt _ (Nat.zero_lt_of_lt h.get_lt)

theorem Filled.read (h : Filled w b (l ++ l')) :
    content b.buffer b.stSize b.get l.length = l ∧
      Filled w { b with get := (b.get + l.length) % b.stSize } l' := by
  have hbytes := h.bytes
  rw [List.length_append, content_append] at hbytes
  obtain ⟨hfirst, hrest⟩ := List.append_inj hbytes (by rw [length_content])
  refine ⟨hfirst, h.inside, Nat.mod_lt _ (Nat.zero_lt_of_lt h.get_lt), ?_, hrest⟩
  have hput := h.put_eq
  rw [List.length_append] at hput
  simp only
  rw [hput, Nat.mod_add_mod, Nat.add_assoc]

theorem lengthBytes_value (h : n < 65536) :
    ((UInt8.ofNat (n >>> 8)).toNat <<< 8) + (UInt8.ofNat (n &&& 0xff)).toNat = n := by
  have hlow : n &&& 0xff = n % 2 ^ 8 := Nat.and_two_pow_sub_one_eq_mod n 8
  rw [hlow, Nat.shiftRight_eq_div_pow, Nat.shiftLeft_eq, UInt8.toNat_ofNat', UInt8.toNat_ofNat']
  omega

theorem nextLen_eq (hn : n < 65536) (hget : b.get < b.stSize)
    (h : content b.buffer b.stSize b.get 2 = lengthBytes n) : b.nextLen = n := by
  have hplace : (if b.get + 1 ≥ b.stSize then b.buffer 0 else b.buffer (b.get + 1)) =
      b.buffer ((b.get + 1) % b.stSize) := by
    split
    · rw [show b.get + 1 = b.stSize by omega, Nat.mod_self]
    · rw [Nat.mod_eq_of_lt (by omega)]
  have htwo : content b.buffer b.stSize b.get 2 =
      [b.buffer b.get, b.buffer ((b.get + 1) % b.stSize)] := by
    simp [content, List.range_succ, Nat.mod_eq_of_lt hget]
  rw [htwo] at h
  obtain ⟨hhigh, hlow⟩ := List.cons.inj h
  rw [Bmsg.nextLen, hplace, hhigh, List.head_eq_of_cons_eq hlow]
  exact lengthBytes_value hn

variable {q : List (List UInt8)}

@[simp] theorem length_lengthBytes : (lengthBytes n).length = prefixLen := rfl

@[simp] theorem used_nil : used [] = 0 := rfl

@[simp] theorem used_cons : used (msg :: q) = msg.length + prefixLen + used q := by
  simp [used]

@[simp] theorem used_append : used (q ++ [msg]) = used q + (msg.length + prefixLen) := by
  simp [used]

theorem length_frames : (frames q).length = used q := by
  induction q with
  | nil => rfl
  | cons msg q ih =>
    rw [frames, List.flatMap_cons, List.length_append, ← frames, ih, used_cons, List.length_append,
      length_lengthBytes, Nat.add_comm prefixLen]

theorem Holds.used_le (h : Holds w b q) : used q ≤ b.stSize := by
  have hleft := h.left_eq
  omega

def Bmsg.stored (w : Word) (b : Bmsg) (msg : List UInt8) : Bmsg :=
  { ((lengthBytes msg.length).foldl (Bmsg.save w) b).copyIn msg with
    stLeft := b.stLeft - (msg.length + prefixLen) }

/-- What an allocation promises: the block is in the address space. The heap does not reach the
last bytes of it, so that there is room for a header and a byte behind it too. -/
structure Placed (w : Word) (pbmsg stNBytes : ℕ) : Prop where
  block : pbmsg + stNBytes < 2 ^ w.bits
  header : pbmsg + sizeofBmsg w + 1 < 2 ^ w.bits

section Create

variable {sheapAlloc : ℕ → Option ℕ} {size : ℕ} {buffer : ℕ → UInt8}

theorem bmsgCreate_cases (h : bmsgCreate w sheapAlloc size buffer = some b) :
    minSize ≤ size ∧ ∃ pbmsg, sheapAlloc ((sizeofBmsg w + size) % 2 ^ w.bits) = some pbmsg ∧
      b = ⟨pbmsg + sizeofBmsg w, buffer, size, size, 0, 0⟩ := by
  unfold bmsgCreate at h
  split at h
  case isTrue => cases h
  case isFalse hsize =>
    obtain ⟨pbmsg, halloc, rfl⟩ := Option.map_eq_some_iff.mp h
    exact ⟨Nat.le_of_not_lt hsize, pbmsg, halloc, rfl⟩

theorem holds_create
    (halloc : ∀ stNBytes pbmsg, sheapAlloc stNBytes = some pbmsg → Placed w pbmsg stNBytes)
    (h : bmsgCreate w sheapAlloc size buffer = some b) (hfits : sizeofBmsg w + size < 2 ^ w.bits) :
    Holds w b [] ∧ b.stSize = size := by
  obtain ⟨hmin, pbmsg, hp, rfl⟩ := bmsgCreate_cases h
  have hplaced := halloc _ _ hp
  have hpos : 0 < size := Nat.lt_of_lt_of_le (by decide) hmin
  have hinside : pbmsg + sizeofBmsg w + size < 2 ^ w.bits := by
    have hblock := hplaced.block
    rwa [Nat.mod_eq_of_lt hfits, ← Nat.add_assoc] at hblock
  exact ⟨⟨⟨hinside, hpos, (Nat.mod_eq_of_lt hpos).symm, rfl⟩, rfl, by simp⟩, rfl⟩

end Create

theorem holds_flush (hinside : b.pucBuffer + b.stSize < 2 ^ w.bits) (hsize : 0 < b.stSize) :
    Holds w (bmsgFlush b) [] where
  filled := ⟨hinside, hsize, (Nat.mod_eq_of_lt hsize).symm, rfl⟩
  left_eq := rfl
  short := by simp

theorem Holds.put (h : Holds w b q) (haccepts : Accepts b.stSize q msg) :
    Holds w (b.stored w msg) (q ++ [msg]) := by
  obtain ⟨hshort, hroom⟩ := haccepts
  have hused := h.used_le
  have hlen : (frames q).length = used q := length_frames
  have hpre : prefixLen = 2 := rfl
  let b₁ := b.wrote [UInt8.ofNat (msg.length >>> 8)]
  let b₂ := b₁.wrote [UInt8.ofNat (msg.length &&& 0xff)]
  have h₁ : Filled w b₁ (frames q ++ _) := h.filled.wrote (by
    rw [hlen, List.length_singleton]
    omega)
  have h₂ : Filled w b₂ ((frames q ++ _) ++ _) := h₁.wrote (by
    rw [List.length_append, hlen, List.length_singleton]
    change used q + 1 + 1 ≤ b.stSize
    omega)
  have hlen₂ : msg.length ≤ b₂.stSize := by
    change msg.length ≤ b.stSize
    omega
  have hsaved : (lengthBytes msg.length).foldl (Bmsg.save w) b = b₂ := by
    rw [lengthBytes, List.foldl_cons, List.foldl_cons, List.foldl_nil,
      save_eq h.filled.inside h.filled.put_lt, save_eq h₁.inside h₁.put_lt]
  have h₃ : Filled w (b₂.wrote msg) (((frames q ++ _) ++ _) ++ msg) := h₂.wrote (by
    rw [List.length_append, List.length_append, hlen, List.length_singleton]
    change used q + 1 + 1 + msg.length ≤ b.stSize
    omega)
  have hframes : ((frames q ++ [UInt8.ofNat (msg.length >>> 8)]) ++
      [UInt8.ofNat (msg.length &&& 0xff)]) ++ msg = frames (q ++ [msg]) := by
    simp [frames, lengthBytes]
  rw [Bmsg.stored, hsaved, copyIn_eq h₂.put_lt hlen₂]
  rw [hframes] at h₃
  refine ⟨⟨h₃.inside, h₃.get_lt, h₃.put_eq, h₃.bytes⟩, ?_, ?_⟩
  · have hleft := h.left_eq
    rw [used_append]
    change b.stLeft - (msg.length + prefixLen) + (used q + (msg.length + prefixLen)) = b.stSize
    omega
  · intro m hm
    rcases List.mem_append.mp hm with hold | hnew
    · exact h.short m hold
    · rw [List.mem_singleton.mp hnew]
      exact hshort

theorem Holds.nextLen (h : Holds w b (msg :: q)) : b.nextLen = msg.length := by
  have hshort := h.short msg List.mem_cons_self
  have hpre : prefixLen = 2 := rfl
  have hframes : frames (msg :: q) = lengthBytes msg.length ++ (msg ++ frames q) := by
    simp [frames]
  have hfilled := h.filled
  rw [hframes] at hfilled
  exact nextLen_eq (by omega) h.filled.get_lt hfilled.read.1

theorem Holds.get (h : Holds w b (msg :: q)) :
    b.copyOut (b.adjust w (b.adjust w (b.get + 1) + 1)) msg.length =
        (msg, (b.get + (msg.length + prefixLen)) % b.stSize) ∧
      Holds w { b with
        get := (b.get + (msg.length + prefixLen)) % b.stSize
        stLeft := b.stLeft + (msg.length + prefixLen) } q := by
  have hused := h.used_le
  have hleft := h.left_eq
  rw [used_cons] at hused hleft
  have hpos : 0 < b.stSize := Nat.zero_lt_of_lt h.filled.get_lt
  have hframes : frames (msg :: q) = lengthBytes msg.length ++ (msg ++ frames q) := by
    simp [frames]
  have hfilled := h.filled
  rw [hframes] at hfilled
  obtain ⟨hmsg, hrest⟩ := hfilled.read.2.read
  rw [length_lengthBytes] at hmsg hrest
  simp only at hmsg hrest
  have hinside := h.filled.inside
  have hget : b.adjust w (b.adjust w (b.get + 1) + 1) = (b.get + prefixLen) % b.stSize := by
    rw [adjust_eq hinside h.filled.get_lt, adjust_eq hinside (Nat.mod_lt _ hpos), Nat.mod_add_mod]
    rfl
  have hplace : ((b.get + prefixLen) % b.stSize + msg.length) % b.stSize =
      (b.get + (msg.length + prefixLen)) % b.stSize := by
    rw [Nat.mod_add_mod, Nat.add_assoc, Nat.add_comm prefixLen]
  rw [hplace] at hrest
  constructor
  · rw [hget, copyOut_eq (Nat.mod_lt _ hpos) (by omega), hmsg, hplace]
  · refine ⟨⟨hrest.inside, hrest.get_lt, hrest.put_eq, hrest.bytes⟩, ?_, ?_⟩
    · change b.stLeft + (msg.length + prefixLen) + used q = b.stSize
      omega
    · exact fun m hm => h.short m (List.mem_cons_of_mem _ hm)

def Op.Short (w : Word) : Op → Prop
  | .put msg => msg.length < 2 ^ (w.bits - 1)
  | _ => True

instance (w : Word) : (op : Op) → Decidable (op.Short w)
  | .put msg => inferInstanceAs (Decidable (msg.length < 2 ^ (w.bits - 1)))
  | .get _ | .nBytesNext | .flush => inferInstanceAs (Decidable True)

theorem saved_eq (h : msg.length < 2 ^ (w.bits - 1)) :
    (msg.length + prefixLen) % 2 ^ w.bits = msg.length + prefixLen := by
  apply Nat.mod_eq_of_lt
  cases w with
  | w32 =>
    simp only [Word.bits, Word.bytes, prefixLen] at h ⊢
    omega
  | w64 =>
    simp only [Word.bits, Word.bytes, prefixLen] at h ⊢
    omega

theorem copyIn_kept : (b.copyIn msg).stLeft = b.stLeft ∧ (b.copyIn msg).stSize = b.stSize := by
  unfold Bmsg.copyIn
  dsimp only
  split <;> exact ⟨rfl, rfl⟩

theorem stored_stSize : (b.stored w msg).stSize = b.stSize := copyIn_kept.2

theorem put_cases (h : Holds w b q) (hshort : msg.length < 2 ^ (w.bits - 1)) :
    bmsgPut w b msg =
      if Accepts b.stSize q msg then ((msg.length : ℤ), b.stored w msg) else (0, b) := by
  have hleft := h.left_eq
  unfold bmsgPut
  rw [saved_eq hshort]
  by_cases hlong : 65535 ≤ msg.length + prefixLen
  · have hnot : ¬Accepts b.stSize q msg := by
      intro haccepts
      have hlt := haccepts.1
      omega
    simp only [if_pos hlong, if_neg hnot]
  · by_cases hroom : b.stLeft < msg.length + prefixLen
    · have hnot : ¬Accepts b.stSize q msg := by
        intro haccepts
        have hle := haccepts.2
        omega
      simp only [if_neg hlong, if_pos hroom, if_neg hnot]
    · have haccepts : Accepts b.stSize q msg := ⟨by omega, by omega⟩
      have hkept : (((lengthBytes msg.length).foldl (Bmsg.save w) b).copyIn msg).stLeft =
          b.stLeft := copyIn_kept.1
      simp only [if_neg hlong, if_neg hroom, if_pos haccepts, hkept, Bmsg.stored]

theorem Holds.call (h : Holds w b q) {op : Op} (hshort : op.Short w) :
    (BlockMsg.call w b op).1 = (queueCall b.stSize q op).1 ∧
      Holds w (BlockMsg.call w b op).2 (queueCall b.stSize q op).2 ∧
      (BlockMsg.call w b op).2.stSize = b.stSize := by
  have hleft := h.left_eq
  cases op with
  | put msg =>
    simp only [BlockMsg.call, queueCall, put_cases h hshort]
    by_cases haccepts : Accepts b.stSize q msg
    · simp only [if_pos haccepts]
      exact ⟨trivial, h.put haccepts, stored_stSize⟩
    · simp only [if_neg haccepts]
      exact ⟨trivial, h, trivial⟩
  | get stBufferSize =>
    cases q with
    | nil =>
      rw [used_nil] at hleft
      have hempty : b.stSize = b.stLeft := by omega
      simp only [BlockMsg.call, queueCall, bmsgGet, if_pos hempty]
      exact ⟨trivial, h, trivial⟩
    | cons msg q =>
      rw [used_cons] at hleft
      have hpre : prefixLen = 2 := rfl
      have hsome : b.stSize ≠ b.stLeft := by omega
      have hinside := h.filled.inside
      have hword : (b.stLeft + (msg.length + prefixLen)) % 2 ^ w.bits =
          b.stLeft + (msg.length + prefixLen) := Nat.mod_eq_of_lt (by omega)
      obtain ⟨hout, hrest⟩ := h.get
      simp only [BlockMsg.call, queueCall, bmsgGet, if_neg hsome, h.nextLen, hout, hword]
      by_cases hfit : stBufferSize < msg.length
      · simp only [if_pos hfit]
        exact ⟨trivial, h, trivial⟩
      · simp only [if_neg hfit]
        exact ⟨trivial, hrest, trivial⟩
  | nBytesNext =>
    refine ⟨?_, h, rfl⟩
    cases q with
    | nil =>
      rw [used_nil] at hleft
      simp only [BlockMsg.call, queueCall, bmsgNBytesNext, if_pos (show b.stSize = b.stLeft by omega)]
      rfl
    | cons msg q =>
      rw [used_cons] at hleft
      have hpre : prefixLen = 2 := rfl
      simp only [BlockMsg.call, queueCall, bmsgNBytesNext, h.nextLen,
        if_neg (show b.stSize ≠ b.stLeft by omega)]
      rfl
  | flush => exact ⟨rfl, holds_flush h.filled.inside (Nat.zero_lt_of_lt h.filled.get_lt), rfl⟩

theorem Holds.refused (h : Holds w b q) {op : Op} (hshort : op.Short w)
    (hrefused : Refused b.stSize q op) : (BlockMsg.call w b op).2 = b := by
  cases op with
  | put msg => simp only [BlockMsg.call, put_cases h hshort, if_neg hrefused]
  | get stBufferSize =>
    obtain ⟨msg, hhead, hfit⟩ := hrefused
    cases q with
    | nil => cases hhead
    | cons first q =>
      obtain rfl : first = msg := by simpa using hhead
      simp only [BlockMsg.call, bmsgGet, h.nextLen, if_pos hfit]
      split <;> rfl
  | nBytesNext => rfl
  | flush => exact hrefused.elim

def calls (w : Word) (b : Bmsg) : List Op → List (ℤ × List UInt8) × Bmsg
  | [] => ([], b)
  | op :: ops =>
    let r := call w b op
    let rest := calls w r.2 ops
    (r.1 :: rest.1, rest.2)

def queueCalls (size : ℕ) (q : List (List UInt8)) :
    List Op → List (ℤ × List UInt8) × List (List UInt8)
  | [] => ([], q)
  | op :: ops =>
    let r := queueCall size q op
    let rest := queueCalls size r.2 ops
    (r.1 :: rest.1, rest.2)

theorem Holds.calls (h : Holds w b q) {ops : List Op} (hshort : ∀ op ∈ ops, op.Short w) :
    (BlockMsg.calls w b ops).1 = (queueCalls b.stSize q ops).1 ∧
      Holds w (BlockMsg.calls w b ops).2 (queueCalls b.stSize q ops).2 ∧
      (BlockMsg.calls w b ops).2.stSize = b.stSize := by
  induction ops generalizing b q with
  | nil => exact ⟨rfl, h, rfl⟩
  | cons op ops ih =>
    obtain ⟨hresult, hholds, hsize⟩ := h.call (hshort op List.mem_cons_self)
    obtain ⟨hresults, hholds', hsize'⟩ :=
      ih hholds fun op' hop => hshort op' (List.mem_cons_of_mem _ hop)
    rw [hsize] at hresults hholds' hsize'
    refine ⟨?_, hholds', hsize'⟩
    simp only [BlockMsg.calls, queueCalls, hresult, hresults]

/-- The buffer is a queue of messages: every call of every run returns what the queue returns, a
call that is refused changes nothing, `BM_stLeft` is what the queue leaves of the buffer, and both
pointers are inside. -/
def Fifo (w : Word) (size : ℕ) (b : Bmsg) : Prop :=
  ∀ ops : List Op, (∀ op ∈ ops, op.Short w) →
    (BlockMsg.calls w b ops).1 = (queueCalls size [] ops).1 ∧
    used (queueCalls size [] ops).2 ≤ size ∧
    (BlockMsg.calls w b ops).2.stLeft = size - used (queueCalls size [] ops).2 ∧
    (BlockMsg.calls w b ops).2.put < size ∧ (BlockMsg.calls w b ops).2.get < size ∧
    ∀ op, op.Short w → Refused size (queueCalls size [] ops).2 op →
      (call w (BlockMsg.calls w b ops).2 op).2 = (BlockMsg.calls w b ops).2

theorem Holds.fifo (h : Holds w b []) : Fifo w b.stSize b := by
  intro ops hshort
  obtain ⟨hresults, hholds, hsize⟩ := h.calls hshort
  have hleft := hholds.left_eq
  have hput := hholds.filled.put_lt
  have hget := hholds.filled.get_lt
  rw [hsize] at hleft hput hget
  refine ⟨hresults, by omega, by omega, hput, hget, ?_⟩
  intro op hop hrefused
  refine hholds.refused hop ?_
  rw [hsize]
  exact hrefused

section Wraps

variable {size : ℕ}

end Wraps

end SylixOS.BlockMsg
