import Mathlib.Data.Nat.Basic
import Mathlib.Tactic.Ring

/-! Byte buffers as functions from offsets, range overwrites, and
little-endian records of fixed-width fields. A record is the list of its
fields `(width, value)`; reading the widths back returns the values
reduced modulo `256 ^ width`. -/

namespace SylixOS.ByteBuffer

abbrev Bytes := Nat → UInt8

inductive Word where
  | w32
  | w64

def Word.bytes : Word → Nat
  | .w32 => 4
  | .w64 => 8

def Word.bits (w : Word) : Nat := 8 * w.bytes

def Word.roundUp (w : Word) (st : Nat) : Nat :=
  (st + (w.bytes - 1)) % 2 ^ w.bits / w.bytes * w.bytes

theorem Word.two_pow_bits (w : Word) : 2 ^ w.bits = 256 ^ w.bytes := by
  cases w <;> rfl

theorem Word.le_roundUp {w : Word} {st : Nat} (h : st + (w.bytes - 1) < 2 ^ w.bits) :
    st ≤ w.roundUp st := by
  unfold roundUp
  rw [Nat.mod_eq_of_lt h]
  have hpos : 0 < w.bytes := by cases w <;> decide
  have hmod := Nat.mod_add_div (st + (w.bytes - 1)) w.bytes
  have hlt := Nat.mod_lt (st + (w.bytes - 1)) hpos
  rw [Nat.mul_comm]
  omega

variable {α : Type*}

def patch (m : Nat → α) (pos len : Nat) (src : Nat → α) : Nat → α :=
  fun i => if pos ≤ i ∧ i < pos + len then src (i - pos) else m i

def advance (m : Nat → α) (k : Nat) : Nat → α := fun i => m (k + i)

theorem patch_inside (m : Nat → α) {pos len i : Nat} (src : Nat → α)
    (hlo : pos ≤ i) (hhi : i < pos + len) : patch m pos len src i = src (i - pos) :=
  if_pos ⟨hlo, hhi⟩

theorem patch_add (m : Nat → α) {pos len j : Nat} (src : Nat → α) (h : j < len) :
    patch m pos len src (pos + j) = src j := by
  rw [patch_inside m src (by omega) (by omega)]
  congr 1
  omega

theorem patch_outside (m : Nat → α) {pos len i : Nat} (src : Nat → α)
    (h : i < pos ∨ pos + len ≤ i) : patch m pos len src i = m i :=
  if_neg (by omega)

@[simp] theorem patch_zero (m : Nat → α) (pos : Nat) (src : Nat → α) :
    patch m pos 0 src = m := by
  funext i
  exact patch_outside m src (by omega)

theorem patch_patch_advance (m : Nat → α) (pos len len' : Nat) (src : Nat → α) :
    patch (patch m pos len src) (pos + len) len' (advance src len) =
      patch m pos (len + len') src := by
  funext i
  simp only [patch, advance]
  split
  · rw [if_pos (by omega)]
    congr 1
    omega
  · split
    · rw [if_pos (by omega)]
    · rw [if_neg (by omega)]

theorem patch_window (m : Nat → α) {b : Nat → α} {pos n off len : Nat} (src : Nat → α)
    (hb : ∀ j < n, b j = m (pos + j)) (hlen : off + len ≤ n) :
    patch m pos n (patch b off len src) = patch m (pos + off) len src := by
  funext i
  simp only [patch]
  split
  · split
    · rw [if_pos (by omega)]
      congr 1
      omega
    · rw [if_neg (by omega), hb _ (by omega)]
      congr 1
      omega
  · rw [if_neg (by omega)]

def leByte (v i : Nat) : UInt8 := UInt8.ofNat (v / 256 ^ i)

def getLE : Nat → Bytes → Nat → Nat
  | 0, _, _ => 0
  | w + 1, b, pos => (b pos).toNat + 256 * getLE w b (pos + 1)

def putLE (w v : Nat) (b : Bytes) (pos : Nat) : Bytes := patch b pos w (leByte v)

theorem getLE_congr (w : Nat) {b c : Bytes} {pos pos' : Nat}
    (h : ∀ i < w, b (pos + i) = c (pos' + i)) : getLE w b pos = getLE w c pos' := by
  induction w generalizing pos pos' with
  | zero => rfl
  | succ w ih =>
    have hhead : b pos = c pos' := h 0 (by omega)
    have htail : getLE w b (pos + 1) = getLE w c (pos' + 1) := by
      apply ih
      intro i hi
      have hstep := h (i + 1) (by omega)
      rwa [show pos + (i + 1) = pos + 1 + i by omega,
        show pos' + (i + 1) = pos' + 1 + i by omega] at hstep
    simp only [getLE, hhead, htail]

theorem leByte_zero (v : Nat) : (leByte v 0).toNat = v % 256 := by
  simp [leByte]

theorem leByte_succ (v i : Nat) : leByte v (i + 1) = leByte (v / 256) i := by
  rw [leByte, leByte, Nat.pow_succ', Nat.div_div_eq_div_mul]

theorem getLE_leByte (w v : Nat) : getLE w (leByte v) 0 = v % 256 ^ w := by
  induction w generalizing v with
  | zero => simp [getLE, Nat.mod_one]
  | succ w ih =>
    have htail : getLE w (leByte v) (0 + 1) = v / 256 % 256 ^ w := by
      rw [← ih (v / 256)]
      apply getLE_congr
      intro i _
      rw [show 0 + 1 + i = i + 1 by omega, leByte_succ, Nat.zero_add]
    rw [getLE, htail, leByte_zero, Nat.pow_succ', Nat.mod_mul]

theorem getLE_putLE (w v : Nat) (b : Bytes) (pos : Nat) :
    getLE w (putLE w v b pos) pos = v % 256 ^ w := by
  rw [← getLE_leByte]
  apply getLE_congr
  intro i hi
  rw [putLE, patch_add b _ hi, Nat.zero_add]

theorem getLE_lt (w : Nat) (b : Bytes) (pos : Nat) : getLE w b pos < 256 ^ w := by
  induction w generalizing pos with
  | zero => simp [getLE]
  | succ w ih =>
    have hbyte : (b pos).toNat < 256 := (b pos).toNat_lt
    have htail := ih (pos + 1)
    rw [getLE, Nat.pow_succ']
    omega

def putFields (b : Bytes) (pos : Nat) : List (Nat × Nat) → Bytes
  | [] => b
  | (w, v) :: fs => putFields (putLE w v b pos) (pos + w) fs

def getFields (b : Bytes) (pos : Nat) : List Nat → List Nat
  | [] => []
  | w :: ws => getLE w b pos :: getFields b (pos + w) ws

def fieldsLen (fs : List (Nat × Nat)) : Nat := (fs.map Prod.fst).sum

theorem putFields_outside (b : Bytes) (pos : Nat) (fs : List (Nat × Nat)) {i : Nat}
    (h : i < pos ∨ pos + fieldsLen fs ≤ i) : putFields b pos fs i = b i := by
  induction fs generalizing b pos with
  | nil => rfl
  | cons f fs ih =>
    obtain ⟨w, v⟩ := f
    have hlen : fieldsLen ((w, v) :: fs) = w + fieldsLen fs := by simp [fieldsLen]
    rw [hlen] at h
    rw [putFields, ih _ _ (by omega), putLE, patch_outside _ _ (by omega)]

theorem getFields_putFields (b : Bytes) (pos : Nat) (fs : List (Nat × Nat)) :
    getFields (putFields b pos fs) pos (fs.map Prod.fst) =
      fs.map (fun f => f.2 % 256 ^ f.1) := by
  induction fs generalizing b pos with
  | nil => rfl
  | cons f fs ih =>
    obtain ⟨w, v⟩ := f
    have hhead : getLE w (putFields (putLE w v b pos) (pos + w) fs) pos = v % 256 ^ w := by
      rw [← getLE_putLE w v b pos]
      apply getLE_congr
      intro i hi
      exact putFields_outside _ _ _ (by omega)
    rw [List.map_cons, List.map_cons, putFields, getFields, hhead, ih]

end SylixOS.ByteBuffer
