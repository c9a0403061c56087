import SylixOS.RingBuffer
import Mathlib.Algebra.GroupWithZero.Nat
import Mathlib.Data.Int.Notation

/-! The character ring of `rngLib.c`. One place always stays free, so that the two
indices are equal only in an empty ring. Staged characters are behind the
last one and are not counted until the index is moved over them. -/

namespace SylixOS.CharRing
open RingBuffer Function

def intMax : ℕ := 2 ^ 31 - 1

structure Ring where
  toBuf : ℕ
  fromBuf : ℕ
  bufByteSize : ℕ
  buf : ℕ → UInt8

/-- `_rngCreate`, in memory that holds `buf`. From the largest `INT` on, the size that
`iNBytes++` leaves is negative, and nothing of that size can be allocated. -/
def rngCreate (iNBytes : ℕ) (buf : ℕ → UInt8) : Option Ring :=
  if iNBytes + 1 ≤ intMax then some ⟨0, 0, iNBytes + 1, buf⟩ else none

variable (r : Ring)

def Ring.flush : Ring := { r with toBuf := 0, fromBuf := 0 }

def Ring.bufGet (iMaxBytes : ℕ) : List UInt8 × Ring :=
  if r.toBuf ≥ r.fromBuf then
    let iBytesGot := min iMaxBytes (r.toBuf - r.fromBuf)
    (slice r.buf r.fromBuf iBytesGot, { r with fromBuf := r.fromBuf + iBytesGot })
  else
    let iBytesGot := min iMaxBytes (r.bufByteSize - r.fromBuf)
    let iRngTemp := r.fromBuf + iBytesGot
    if iRngTemp = r.bufByteSize then
      let iBytes2 := min (iMaxBytes - iBytesGot) r.toBuf
      (slice r.buf r.fromBuf iBytesGot ++ slice r.buf 0 iBytes2, { r with fromBuf := iBytes2 })
    else (slice r.buf r.fromBuf iBytesGot, { r with fromBuf := iRngTemp })

def Ring.bufPut (pcBuffer : List UInt8) : ℕ × Ring :=
  if r.fromBuf > r.toBuf then
    let iBytesPut := min pcBuffer.length (r.fromBuf - r.toBuf - 1)
    (iBytesPut, { r with
      buf := put r.buf r.toBuf (pcBuffer.take iBytesPut)
      toBuf := r.toBuf + iBytesPut })
  else if r.fromBuf = 0 then
    let iBytesPut := min pcBuffer.length (r.bufByteSize - r.toBuf - 1)
    (iBytesPut, { r with
      buf := put r.buf r.toBuf (pcBuffer.take iBytesPut)
      toBuf := r.toBuf + iBytesPut })
  else
    let iBytesPut := min pcBuffer.length (r.bufByteSize - r.toBuf)
    let buf := put r.buf r.toBuf (pcBuffer.take iBytesPut)
    let iRngTemp := r.toBuf + iBytesPut
    if iRngTemp = r.bufByteSize then
      let iBytes2 := min (pcBuffer.length - iBytesPut) (r.fromBuf - 1)
      (iBytesPut + iBytes2, { r with
        buf := put buf 0 ((pcBuffer.drop iBytesPut).take iBytes2)
        toBuf := iBytes2 })
    else (iBytesPut, { r with buf := buf, toBuf := iRngTemp })

def Ring.isEmpty : Bool := r.toBuf == r.fromBuf

def Ring.isFull : Bool :=
  let iNum : ℤ := r.toBuf - r.fromBuf + 1
  iNum == 0 || iNum == r.bufByteSize

def Ring.freeBytes : ℤ :=
  let iNum : ℤ := r.fromBuf - r.toBuf - 1
  if iNum < 0 then iNum + r.bufByteSize else iNum

def Ring.nBytes : ℤ :=
  let iNum : ℤ := r.toBuf - r.fromBuf
  if iNum < 0 then iNum + r.bufByteSize else iNum

/-- The sum of two `INT`s that are not negative; `none` when it comes out negative. -/
def intAdd (a b : ℕ) : Option ℕ := if a + b ≤ intMax then some (a + b) else none

def Ring.wrap (iNum : ℕ) : ℕ := if iNum ≥ r.bufByteSize then iNum - r.bufByteSize else iNum

/-- `_rngPutAhead`; `none` when it stores in front of the buffer. -/
def Ring.putAhead (cByte : UInt8) (iOffset : ℕ) : Option Ring :=
  (intAdd r.toBuf iOffset).map fun iNum => { r with buf := update r.buf (r.wrap iNum) cByte }

/-- `_rngMoveAhead`; `none` when the index is left in front of the buffer. -/
def Ring.moveAhead (iNum : ℕ) : Option Ring :=
  (intAdd iNum r.toBuf).map fun iNum => { r with toBuf := r.wrap iNum }

inductive Op where
  | put (pcBuffer : List UInt8)
  | get (iMaxBytes : ℕ)
  | putAhead (cByte : UInt8) (iOffset : ℕ)
  | moveAhead (iNum : ℕ)
  | flush

def call : Op → Option ((ℕ × List UInt8) × Ring)
  | .put pcBuffer => some (((r.bufPut pcBuffer).1, []), (r.bufPut pcBuffer).2)
  | .get iMaxBytes =>
    some (((r.bufGet iMaxBytes).1.length, (r.bufGet iMaxBytes).1), (r.bufGet iMaxBytes).2)
  | .putAhead cByte iOffset => (r.putAhead cByte iOffset).map fun r => ((0, []), r)
  | .moveAhead iNum => (r.moveAhead iNum).map fun r => ((0, []), r)
  | .flush => some ((0, []), r.flush)

def calls : Ring → List Op → Option (List (ℕ × List UInt8) × Ring)
  | r, [] => some ([], r)
  | r, op :: ops =>
    (call r op).bind fun p => (calls p.2 ops).map fun rest => (p.1 :: rest.1, rest.2)

structure Queue where
  chars : List UInt8
  staged : ℕ → Option UInt8

def Queue.empty : Queue := ⟨[], fun _ => none⟩

/-- What a call does to a queue of `n` places; `none` for a character that is staged behind the
last place, and for a commit of more than what is staged. -/
def queueCall (n : ℕ) (a : Queue) : Op → Option ((ℕ × List UInt8) × Queue)
  | .put pcBuffer =>
    let k := min pcBuffer.length (n - a.chars.length)
    some ((k, []), ⟨a.chars ++ pcBuffer.take k, fun _ => none⟩)
  | .get iMaxBytes =>
    let k := min iMaxBytes a.chars.length
    some ((k, a.chars.take k), { a with chars := a.chars.drop k })
  | .putAhead cByte iOffset =>
    if iOffset < n - a.chars.length then
      some ((0, []), { a with staged := update a.staged iOffset (some cByte) })
    else none
  | .moveAhead iNum =>
    if ∀ i < iNum, (a.staged i).isSome then
      some ((0, []), ⟨a.chars ++ (List.range iNum).filterMap a.staged, fun i => a.staged (i + iNum)⟩)
    else none
  | .flush => some ((0, []), .empty)

def queueCalls (n : ℕ) : Queue → List Op → Option (List (ℕ × List UInt8) × Queue)
  | a, [] => some ([], a)
  | a, op :: ops =>
    (queueCall n a op).bind fun p => (queueCalls n p.2 ops).map fun rest => (p.1 :: rest.1, rest.2)

structure Shows (n : ℕ) (r : Ring) (a : Queue) : Prop where
  nBytes : r.nBytes = a.chars.length
  total : r.nBytes + r.freeBytes = n
  isEmpty : r.isEmpty = true ↔ r.nBytes = 0
  isFull : r.isFull = true ↔ r.nBytes = n
  toBuf : r.toBuf ≤ n
  fromBuf : r.fromBuf ≤ n

def IsQueue (n : ℕ) (r : Ring) : Prop :=
  ∀ ops outs a, queueCalls n .empty ops = some (outs, a) →
    ∃ r', calls r ops = some (outs, r') ∧ Shows n r' a

variable {r}

structure Holds (n : ℕ) (r : Ring) (a : Queue) : Prop where
  size : r.bufByteSize = n + 1
  fromBuf : r.fromBuf ≤ n
  toBuf : r.toBuf = (r.fromBuf + a.chars.length) % (n + 1)
  room : a.chars.length ≤ n
  chars : content r.buf (n + 1) r.fromBuf a.chars.length = a.chars
  staged : ∀ i c, a.staged i = some c →
    i < n - a.chars.length ∧ r.buf ((r.toBuf + i) % (n + 1)) = c

variable {n : ℕ} {a : Queue}

theorem Holds.toBuf_cases (h : Holds n r a) :
    r.fromBuf ≤ r.toBuf ∧ r.toBuf = r.fromBuf + a.chars.length ∧ r.toBuf ≤ n ∨
      r.toBuf < r.fromBuf ∧ r.toBuf + (n + 1) = r.fromBuf + a.chars.length := by
  have hfrom := h.fromBuf
  have hroom := h.room
  have hfits : a.chars.length < n + 1 := by omega
  rcases wrap_cases (show r.fromBuf < n + 1 by omega) hfits with
    ⟨hlt, hmod⟩ | ⟨hge, hmod⟩
  · have hto := h.toBuf.trans hmod
    omega
  · have hto := h.toBuf.trans hmod
    omega

theorem Holds.shows (h : Holds n r a) : Shows n r a := by
  have hcases := h.toBuf_cases
  have hsize := h.size
  have hroom := h.room
  have hfrom := h.fromBuf
  refine ⟨?_, ?_, ?_, ?_, by omega, hfrom⟩
  · simp only [Ring.nBytes]
    omega
  · simp only [Ring.nBytes, Ring.freeBytes]
    omega
  · simp only [Ring.isEmpty, Ring.nBytes, beq_iff_eq]
    omega
  · simp only [Ring.isFull, Ring.nBytes, Bool.or_eq_true, beq_iff_eq]
    omega

theorem bufPut_eq (h : Holds n r a) (l : List UInt8) :
    r.bufPut l = (min l.length (n - a.chars.length), { r with
      buf := wrapPut r.buf (n + 1) r.toBuf (l.take (min l.length (n - a.chars.length)))
      toBuf := (r.toBuf + min l.length (n - a.chars.length)) % (n + 1) }) := by
  have hcases := h.toBuf_cases
  have hsize := h.size
  have hroom := h.room
  have hfrom := h.fromBuf
  generalize hk : min l.length (n - a.chars.length) = k
  unfold Ring.bufPut
  by_cases hbehind : r.fromBuf > r.toBuf
  · have hput : min l.length (r.fromBuf - r.toBuf - 1) = k := by omega
    have hin : (l.take k).length ≤ n + 1 - r.toBuf := by
      rw [List.length_take]
      omega
    simp only [if_pos hbehind, hput, wrapPut_of_le hin,
      Nat.mod_eq_of_lt (show r.toBuf + k < n + 1 by omega)]
  · by_cases hzero : r.fromBuf = 0
    · have hput : min l.length (r.bufByteSize - r.toBuf - 1) = k := by omega
      have hin : (l.take k).length ≤ n + 1 - r.toBuf := by
        rw [List.length_take]
        omega
      simp only [if_neg hbehind, if_pos hzero, hput, wrapPut_of_le hin,
        Nat.mod_eq_of_lt (show r.toBuf + k < n + 1 by omega)]
    · generalize hfirst : min l.length (r.bufByteSize - r.toBuf) = m
      by_cases hend : r.toBuf + m = r.bufByteSize
      · have hsecond : min (l.length - m) (r.fromBuf - 1) = k - m := by omega
        have hto : (r.toBuf + k) % (n + 1) = k - m := by
          rw [show r.toBuf + k = k - m + (n + 1) by omega, Nat.add_mod_right,
            Nat.mod_eq_of_lt (by omega)]
        have htake : (l.take k).take (n + 1 - r.toBuf) = l.take m := by
          rw [List.take_take]
          congr 1
          omega
        have hdrop : (l.take k).drop (n + 1 - r.toBuf) = (l.drop m).take (k - m) := by
          rw [List.drop_take]
          congr 2
          · omega
          · omega
        simp only [if_neg hbehind, if_neg hzero, if_pos hend, hsecond, hto, wrapPut, htake, hdrop,
          show m + (k - m) = k by omega]
      · obtain rfl : m = k := by omega
        have hin : (l.take m).length ≤ n + 1 - r.toBuf := by
          rw [List.length_take]
          omega
        simp only [if_neg hbehind, if_neg hzero, if_neg hend, wrapPut_of_le hin,
          Nat.mod_eq_of_lt (show r.toBuf + m < n + 1 by omega)]

theorem bufGet_eq (h : Holds n r a) (iMaxBytes : ℕ) :
    r.bufGet iMaxBytes = (a.chars.take (min iMaxBytes a.chars.length), { r with
      fromBuf := (r.fromBuf + min iMaxBytes a.chars.length) % (n + 1) }) := by
  have hcases := h.toBuf_cases
  have hsize := h.size
  have hroom := h.room
  have hfrom := h.fromBuf
  generalize hk : min iMaxBytes a.chars.length = k
  have hchars : a.chars.take k = wrapGet r.buf (n + 1) r.fromBuf k := by
    have hsplit := h.chars
    rw [show a.chars.length = k + (a.chars.length - k) by omega, content_append] at hsplit
    rw [wrapGet_eq (by omega) (by omega), ← hsplit, List.take_left' (length_content ..)]
  rw [hchars, wrapGet]
  unfold Ring.bufGet
  by_cases hbehind : r.toBuf ≥ r.fromBuf
  · have hgot : min iMaxBytes (r.toBuf - r.fromBuf) = k := by omega
    simp only [if_pos hbehind, hgot, show min k (n + 1 - r.fromBuf) = k by omega,
      show k - (n + 1 - r.fromBuf) = 0 by omega,
      Nat.mod_eq_of_lt (show r.fromBuf + k < n + 1 by omega)]
    simp [slice]
  · generalize hfirst : min iMaxBytes (r.bufByteSize - r.fromBuf) = m
    by_cases hend : r.fromBuf + m = r.bufByteSize
    · have hsecond : min (iMaxBytes - m) r.toBuf = k - m := by omega
      have hfrom' : (r.fromBuf + k) % (n + 1) = k - m := by
        rw [show r.fromBuf + k = k - m + (n + 1) by omega, Nat.add_mod_right,
          Nat.mod_eq_of_lt (by omega)]
      simp only [if_neg hbehind, if_pos hend, hsecond, hfrom',
        show min k (n + 1 - r.fromBuf) = m by omega, show k - (n + 1 - r.fromBuf) = k - m by omega]
    · obtain rfl : m = k := by omega
      simp only [if_neg hbehind, if_neg hend, show min m (n + 1 - r.fromBuf) = m by omega,
        show m - (n + 1 - r.fromBuf) = 0 by omega,
        Nat.mod_eq_of_lt (show r.fromBuf + m < n + 1 by omega)]
      simp [slice]

theorem wrap_eq (hsize : r.bufByteSize = n + 1) {i : ℕ} (hi : i < 2 * (n + 1)) :
    r.wrap i = i % (n + 1) := by
  unfold Ring.wrap
  rw [hsize]
  split
  · rw [Nat.mod_eq_sub_mod (by omega), Nat.mod_eq_of_lt (by omega)]
  · rw [Nat.mod_eq_of_lt (by omega)]

theorem Holds.put (h : Holds n r a) (l : List UInt8) :
    Holds n (r.bufPut l).2
      ⟨a.chars ++ l.take (min l.length (n - a.chars.length)), fun _ => none⟩ := by
  have hroom := h.room
  have hfrom := h.fromBuf
  rw [bufPut_eq h]
  generalize hk : min l.length (n - a.chars.length) = k
  have hlen : (l.take k).length = k := by
    rw [List.length_take]
    omega
  refine ⟨h.size, hfrom, ?_, ?_, ?_, fun i c hc => nomatch hc⟩
  · simp only
    rw [h.toBuf, Nat.mod_add_mod, List.length_append, hlen, Nat.add_assoc]
  · rw [List.length_append, hlen]
    omega
  · simp only
    rw [List.length_append, h.toBuf, content_wrapPut (by omega) (by omega), h.chars]

theorem Holds.get (h : Holds n r a) (iMaxBytes : ℕ) :
    Holds n (r.bufGet iMaxBytes).2
      { a with chars := a.chars.drop (min iMaxBytes a.chars.length) } := by
  have hroom := h.room
  have hfrom := h.fromBuf
  rw [bufGet_eq h]
  generalize hk : min iMaxBytes a.chars.length = k
  have hsum : a.chars.length = k + (a.chars.length - k) := by omega
  refine ⟨h.size, ?_, ?_, ?_, ?_, fun i c hc => ?_⟩
  · exact Nat.le_of_lt_succ (Nat.mod_lt _ n.succ_pos)
  · simp only
    rw [h.toBuf, List.length_drop, Nat.mod_add_mod, Nat.add_assoc, ← hsum]
  · rw [List.length_drop]
    omega
  · have hsplit := h.chars
    rw [hsum, content_append] at hsplit
    have hdrop : a.chars.drop k =
        content r.buf (n + 1) ((r.fromBuf + k) % (n + 1)) (a.chars.length - k) := by
      conv_lhs => rw [← hsplit]
      exact List.drop_left' (length_content ..)
    simp only [List.length_drop]
    exact hdrop.symm
  · obtain ⟨hi, hbuf⟩ := h.staged i c hc
    refine ⟨?_, hbuf⟩
    simp only [List.length_drop]
    omega

theorem putAhead_eq (h : Holds n r a) (c : UInt8) {i : ℕ} (hi : i ≤ n)
    (hsum : r.toBuf + i ≤ intMax) :
    r.putAhead c i = some { r with buf := update r.buf ((r.toBuf + i) % (n + 1)) c } := by
  have hto := h.shows.toBuf
  rw [Ring.putAhead, intAdd, if_pos hsum, Option.map_some, wrap_eq h.size (by omega)]

theorem Holds.putAhead (h : Holds n r a) (c : UInt8) {i : ℕ} (hi : i < n - a.chars.length) :
    Holds n { r with buf := update r.buf ((r.toBuf + i) % (n + 1)) c }
      { a with staged := update a.staged i (some c) } := by
  have hroom := h.room
  have hfrom := h.fromBuf
  refine ⟨h.size, hfrom, h.toBuf, hroom, ?_, fun j d hd => ?_⟩
  · refine Eq.trans ?_ h.chars
    apply List.map_congr_left
    intro j hj
    have hlt := List.mem_range.mp hj
    -- the place is behind the last character
    have hbehind : (r.toBuf + i) % (n + 1) = (r.fromBuf + (a.chars.length + i)) % (n + 1) := by
      rw [h.toBuf, Nat.mod_add_mod, Nat.add_assoc]
    apply update_of_ne
    rw [hbehind]
    exact place_ne (Nat.lt_add_right i hlt) (by omega)
  · simp only at hd ⊢
    by_cases hj : j = i
    · subst hj
      rw [update_self] at hd ⊢
      exact ⟨hi, Option.some.inj hd⟩
    · rw [update_of_ne hj] at hd
      obtain ⟨hlt, hbuf⟩ := h.staged j d hd
      refine ⟨hlt, ?_⟩
      rw [update_of_ne, hbuf]
      rcases Nat.lt_or_gt_of_ne hj with hlow | hhigh
      · exact place_ne hlow (by omega)
      · exact (place_ne hhigh (by omega)).symm

theorem Holds.staged_content (h : Holds n r a) {k : ℕ} (hk : ∀ i < k, (a.staged i).isSome) :
    (List.range k).filterMap a.staged = content r.buf (n + 1) r.toBuf k := by
  rw [content, ← List.filterMap_eq_map']
  apply List.filterMap_congr
  intro i hi
  obtain ⟨c, hc⟩ := Option.isSome_iff_exists.mp (hk i (List.mem_range.mp hi))
  rw [hc, ← (h.staged i c hc).2]

theorem Holds.staged_le (h : Holds n r a) {k : ℕ} (hk : ∀ i < k, (a.staged i).isSome) :
    k ≤ n - a.chars.length := by
  rcases Nat.eq_zero_or_pos k with rfl | hpos
  · exact Nat.zero_le _
  · obtain ⟨c, hc⟩ := Option.isSome_iff_exists.mp (hk (k - 1) (by omega))
    have hlt := (h.staged _ c hc).1
    omega

theorem moveAhead_eq (h : Holds n r a) {k : ℕ} (hk : k ≤ n) (hsum : k + r.toBuf ≤ intMax) :
    r.moveAhead k = some { r with toBuf := (k + r.toBuf) % (n + 1) } := by
  have hto := h.shows.toBuf
  rw [Ring.moveAhead, intAdd, if_pos hsum, Option.map_some, wrap_eq h.size (by omega)]

theorem Holds.moveAhead (h : Holds n r a) {k : ℕ} (hk : ∀ i < k, (a.staged i).isSome) :
    Holds n { r with toBuf := (k + r.toBuf) % (n + 1) }
      ⟨a.chars ++ (List.range k).filterMap a.staged, fun i => a.staged (i + k)⟩ := by
  have hroom := h.room
  have hle := h.staged_le hk
  have hlen : ((List.range k).filterMap a.staged).length = k := by
    rw [h.staged_content hk, length_content]
  refine ⟨h.size, h.fromBuf, ?_, ?_, ?_, fun i c hc => ?_⟩
  · simp only
    rw [h.toBuf, Nat.add_mod_mod, List.length_append, hlen]
    congr 1
    omega
  · rw [List.length_append, hlen]
    omega
  · simp only
    rw [List.length_append, hlen, content_append, h.chars, ← h.toBuf, h.staged_content hk]
  · obtain ⟨hlt, hbuf⟩ := h.staged (i + k) c hc
    refine ⟨?_, ?_⟩
    · rw [List.length_append, hlen]
      omega
    · simp only
      rw [Nat.mod_add_mod, ← hbuf]
      congr 2
      omega

theorem Holds.flush (h : Holds n r a) : Holds n r.flush .empty :=
  ⟨h.size, Nat.zero_le _, (Nat.zero_mod _).symm, Nat.zero_le _, rfl, fun _ _ hc => nomatch hc⟩

theorem Holds.call (h : Holds n r a) (hn : n < 2 ^ 30) {op : Op} {p : (ℕ × List UInt8) × Queue}
    (hop : queueCall n a op = some p) :
    ∃ r', CharRing.call r op = some (p.1, r') ∧ Holds n r' p.2 := by
  have hto := h.shows.toBuf
  cases op with
  | put l =>
    obtain rfl := Option.some.inj hop
    refine ⟨_, ?_, h.put l⟩
    rw [CharRing.call, bufPut_eq h]
  | get iMaxBytes =>
    obtain rfl := Option.some.inj hop
    refine ⟨_, ?_, h.get iMaxBytes⟩
    have hlen : (a.chars.take (min iMaxBytes a.chars.length)).length =
        min iMaxBytes a.chars.length := by
      rw [List.length_take]
      omega
    rw [CharRing.call, bufGet_eq h, hlen]
  | putAhead c i =>
    rw [queueCall] at hop
    split at hop
    case isTrue hi =>
      obtain rfl := Option.some.inj hop
      refine ⟨_, ?_, h.putAhead c hi⟩
      rw [CharRing.call, putAhead_eq h c (by omega) (by rw [intMax]; omega), Option.map_some]
    case isFalse => cases hop
  | moveAhead k =>
    rw [queueCall] at hop
    split at hop
    case isTrue hk =>
      obtain rfl := Option.some.inj hop
      have hle := h.staged_le hk
      refine ⟨_, ?_, h.moveAhead hk⟩
      rw [CharRing.call, moveAhead_eq h (by omega) (by rw [intMax]; omega), Option.map_some]
    case isFalse => cases hop
  | flush =>
    obtain rfl := Option.some.inj hop
    exact ⟨_, rfl, h.flush⟩

theorem Holds.calls (h : Holds n r a) (hn : n < 2 ^ 30) {ops : List Op}
    {outs : List (ℕ × List UInt8)} {a' : Queue} (hops : queueCalls n a ops = some (outs, a')) :
    ∃ r', CharRing.calls r ops = some (outs, r') ∧ Holds n r' a' := by
  induction ops generalizing r a outs with
  | nil =>
    obtain ⟨rfl, rfl⟩ := Prod.mk.inj (Option.some.inj hops)
    exact ⟨r, rfl, h⟩
  | cons op ops ih =>
    rw [queueCalls, Option.bind_eq_some_iff] at hops
    obtain ⟨p, hop, hrest⟩ := hops
    obtain ⟨q, hq, hp⟩ := Option.map_eq_some_iff.mp hrest
    obtain ⟨rfl, rfl⟩ := Prod.mk.inj hp
    obtain ⟨r₁, hcall, hholds⟩ := h.call hn hop
    obtain ⟨r', hcalls, hholds'⟩ := ih hholds hq
    refine ⟨r', ?_, hholds'⟩
    rw [CharRing.calls, hcall, Option.bind_some, hcalls, Option.map_some]

theorem holds_create {buf : ℕ → UInt8} (h : rngCreate n buf = some r) : Holds n r .empty := by
  unfold rngCreate at h
  split at h
  · obtain rfl := Option.some.inj h
    exact ⟨rfl, Nat.zero_le _, (Nat.zero_mod _).symm, Nat.zero_le _, rfl, fun _ _ hc => nomatch hc⟩
  · cases h

def stage (c : UInt8) (offsets : List ℕ) (k : ℕ) : List Op :=
  offsets.map (Op.putAhead c) ++ [.moveAhead k]

theorem queueCalls_stage (c : UInt8) {offsets : List ℕ} {k : ℕ}
    (hin : ∀ i ∈ offsets, i < n - a.chars.length)
    (hk : ∀ i < k, i ∈ offsets ∨ (a.staged i).isSome) :
    ∃ p, queueCalls n a (stage c offsets k) = some p := by
  induction offsets generalizing a with
  | nil =>
    have hall : ∀ i < k, (a.staged i).isSome := fun i hi => (hk i hi).resolve_left List.not_mem_nil
    refine ⟨([(0, [])], ⟨a.chars ++ (List.range k).filterMap a.staged, fun i => a.staged (i + k)⟩),
      ?_⟩
    rw [stage, List.map_nil, List.nil_append, queueCalls, queueCall, if_pos hall, Option.bind_some]
    rfl
  | cons j offsets ih =>
    have hj := hin j List.mem_cons_self
    obtain ⟨p, hp⟩ := ih (a := { a with staged := update a.staged j (some c) })
      (fun i hi => hin i (List.mem_cons_of_mem _ hi)) (fun i hi => by
        simp only
        by_cases hij : i = j
        · rw [hij, update_self]
          exact Or.inr rfl
        · rw [update_of_ne hij]
          exact (hk i hi).imp_left fun hmem => (List.mem_cons.mp hmem).resolve_left hij)
    refine ⟨((0, []) :: p.1, p.2), ?_⟩
    rw [stage, List.map_cons, List.cons_append, queueCalls, queueCall, if_pos hj, Option.bind_some,
      ← stage, hp, Option.map_some]

theorem calls_stage (c : UInt8) {offsets : List ℕ} {k : ℕ} (hk : intMax < k + r.toBuf) :
    calls r (stage c offsets k) = none := by
  induction offsets generalizing r with
  | nil =>
    have hadd : intAdd k r.toBuf = none := if_neg (by omega)
    rw [stage, List.map_nil, List.nil_append, calls, call, Ring.moveAhead, hadd]
    rfl
  | cons j offsets ih =>
    rw [stage, List.map_cons, List.cons_append, calls, call, Ring.putAhead, ← stage]
    cases intAdd r.toBuf j with
    | none => rfl
    | some iNum =>
      rw [Option.map_some, Option.map_some, Option.bind_some]
      have hrest := ih (r := { r with buf := update r.buf (r.wrap iNum) c }) hk
      simp only [hrest, Option.map_none]

theorem not_isQueue {buf : ℕ → UInt8} (hcreate : rngCreate n buf = some r) (hn : 2 ^ 30 ≤ n) :
    ¬IsQueue n r := by
  intro hall
  have hholds := holds_create hcreate
  have hlen : (List.replicate n (0 : UInt8)).length = n := List.length_replicate
  have htake : (List.replicate n (0 : UInt8)).take n = List.replicate n 0 := by
    rw [List.take_of_length_le (Nat.le_of_eq hlen)]
  have hmax : n + 1 ≤ intMax := by
    by_contra hnot
    rw [rngCreate, if_neg hnot] at hcreate
    cases hcreate
  rw [intMax] at hmax
  let k := 2 ^ 31 - n
  let ops := Op.put (List.replicate n 0) :: Op.get n :: stage 0 (List.range k) k
  have hstaged : ∃ p, queueCalls n .empty (stage 0 (List.range k) k) = some p := by
    refine queueCalls_stage 0 (fun i hi => ?_) (fun i hi => Or.inl (List.mem_range.mpr hi))
    have hlt := List.mem_range.mp hi
    change i < n - 0
    omega
  obtain ⟨p, hp⟩ := hstaged
  have hops : queueCalls n .empty ops =
      some ((n, []) :: (n, List.replicate n 0) :: p.1, p.2) := by
    simp only [ops, queueCalls, queueCall, Queue.empty, List.length_nil, Nat.sub_zero, hlen,
      Nat.min_self, List.nil_append, htake, Option.bind_some]
    have hdrop : (List.replicate n (0 : UInt8)).drop n = [] := by
      rw [List.drop_of_length_le (Nat.le_of_eq hlen)]
    rw [hdrop]
    rw [Queue.empty] at hp
    rw [hp]
    rfl
  obtain ⟨r', hcalls, -⟩ := hall ops _ _ hops
  have hput := bufPut_eq hholds (List.replicate n 0)
  have hto : ((r.bufPut (List.replicate n 0)).2.bufGet n).2.toBuf = n := by
    have hzero : r.toBuf = 0 := by
      rw [rngCreate, if_pos (by rw [intMax]; exact hmax)] at hcreate
      rw [← Option.some.inj hcreate]
    rw [bufGet_eq (hholds.put _), hput]
    simp only
    rw [hzero, hlen, Nat.zero_add]
    exact (congrArg (· % (n + 1)) (Nat.min_self n)).trans (Nat.mod_eq_of_lt n.lt_succ_self)
  have hnone : calls r ops = none := by
    simp only [ops, calls, call, Option.bind_some]
    rw [calls_stage 0 (by rw [hto, intMax]; omega)]
    rfl
  rw [hnone] at hcalls
  cases hcalls

/-- A ring is a bounded queue in every run exactly when it has less than `2 ^ 30` places. -/
theorem rng_queue_iff {buf : ℕ → UInt8} (hcreate : rngCreate n buf = some r) :
    IsQueue n r ↔ n < 2 ^ 30 := by
  constructor
  · intro h
    by_contra hn
    exact not_isQueue hcreate (Nat.le_of_not_lt hn) h
  · intro hn ops outs a hops
    obtain ⟨r', hcalls, hholds⟩ := (holds_create hcreate).calls hn hops
    exact ⟨r', hcalls, hholds.shows⟩

theorem rng_queue_three : rngCreate 3 (fun _ => 0) = some ⟨0, 0, 4, fun _ => 0⟩ ∧
    IsQueue 3 ⟨0, 0, 4, fun _ => 0⟩ :=
  ⟨rfl, (rng_queue_iff (show rngCreate 3 (fun _ => 0) = some _ from rfl)).mpr (by decide)⟩

/-- A ring of a gigabyte: `iToBuf` is `2 ^ 30`, and `2 ^ 30` staged characters are committed. -/
theorem large_ring_fails : ¬∀ (n : ℕ) (buf : ℕ → UInt8) (r : Ring),
    rngCreate n buf = some r → IsQueue n r := by
  intro hall
  have hcreate : rngCreate (2 ^ 30) (fun _ => 0) = some ⟨0, 0, 2 ^ 30 + 1, fun _ => 0⟩ := by
    rw [rngCreate, if_pos (by decide)]
  exact not_isQueue hcreate (Nat.le_refl _) (hall _ _ _ hcreate)

end SylixOS.CharRing
