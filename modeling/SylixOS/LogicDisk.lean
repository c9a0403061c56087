import Mathlib.Data.BitVec
import Mathlib.Tactic.Ring

/-! The block device of one partition, `__logicDiskRd`, `__logicDiskWrt` and
`__logicDiskIoctl` of `diskPartition.c`. A request is shifted by the first
sector of the partition and compared once with its end, all in the `ULONG` of
the machine, here a word of `w` bits. -/

namespace SylixOS.LogicDisk

structure DiskPart (w : ℕ) where
  startSector : BitVec w
  nSector : BitVec w

structure BlkRange (w : ℕ) where
  startSector : BitVec w
  endSector : BitVec w

structure BlkMetadata (w : ℕ) where
  buf : BitVec w
  startSector : BitVec w
  sectorCnt : BitVec w

inductive Request (w : ℕ) where
  | blkRd (buf start count : BitVec w)
  | blkWrt (buf start count : BitVec w) (fsKey : BitVec 64)
  | fioTrim (blkr : BlkRange w)
  | fioSyncMeta (blkr : BlkRange w)
  | fioRdMeta (blkm : BlkMetadata w)
  | fioWrMeta (blkm : BlkMetadata w)
  | fioOther (cmd : ℤ) (arg : BitVec w)

inductive Errno where
  | eoverflow
  deriving DecidableEq

variable {w : ℕ} (p : DiskPart w)

def outOfBoundsCheck (start count : BitVec w) : Bool :=
  p.startSector + p.nSector < start + count

def logicDiskWrt (buf start count : BitVec w) (fsKey : BitVec 64) : Except Errno (Request w) :=
  let start := start + p.startSector
  if outOfBoundsCheck p start count then .error .eoverflow
  else .ok (.blkWrt buf start count fsKey)

def logicDiskRd (buf start count : BitVec w) : Except Errno (Request w) :=
  let start := start + p.startSector
  if outOfBoundsCheck p start count then .error .eoverflow
  else .ok (.blkRd buf start count)

def ioctlRange (cmd : BlkRange w → Request w) (logic : BlkRange w) : Except Errno (Request w) :=
  let phy : BlkRange w := ⟨logic.startSector + p.startSector, logic.endSector + p.startSector⟩
  let sectorCnt := phy.endSector - phy.startSector + 1
  if outOfBoundsCheck p phy.startSector sectorCnt then .error .eoverflow
  else .ok (cmd phy)

def ioctlMetadata (cmd : BlkMetadata w → Request w) (logic : BlkMetadata w) :
    Except Errno (Request w) :=
  let phy : BlkMetadata w := ⟨logic.buf, logic.startSector + p.startSector, logic.sectorCnt⟩
  if outOfBoundsCheck p phy.startSector phy.sectorCnt then .error .eoverflow
  else .ok (cmd phy)

def logicDisk : Request w → Except Errno (Request w)
  | .blkRd buf start count => logicDiskRd p buf start count
  | .blkWrt buf start count fsKey => logicDiskWrt p buf start count fsKey
  | .fioTrim blkr => ioctlRange p .fioTrim blkr
  | .fioSyncMeta blkr => ioctlRange p .fioSyncMeta blkr
  | .fioRdMeta blkm => ioctlMetadata p .fioRdMeta blkm
  | .fioWrMeta blkm => ioctlMetadata p .fioWrMeta blkm
  | .fioOther cmd arg => .ok (.fioOther cmd arg)

def InsideCount (start count : BitVec w) : Prop :=
  ∀ i, i < count.toNat →
    p.startSector.toNat ≤ start.toNat + i ∧
      start.toNat + i < p.startSector.toNat + p.nSector.toNat

def InsideRange (blkr : BlkRange w) : Prop :=
  p.startSector.toNat ≤ blkr.startSector.toNat ∧
    blkr.startSector.toNat ≤ blkr.endSector.toNat ∧
    blkr.endSector.toNat < p.startSector.toNat + p.nSector.toNat

/-- The sectors a request on the physical disk names belong to the partition. Commands that name
no sectors are passed on as they are. -/
def Inside : Request w → Prop
  | .blkRd _ start count => InsideCount p start count
  | .blkWrt _ start count _ => InsideCount p start count
  | .fioTrim blkr => InsideRange p blkr
  | .fioSyncMeta blkr => InsideRange p blkr
  | .fioRdMeta blkm => InsideCount p blkm.startSector blkm.sectorCnt
  | .fioWrMeta blkm => InsideCount p blkm.startSector blkm.sectorCnt
  | .fioOther _ _ => True

def Confined : Except Errno (Request w) → Prop
  | .error e => e = .eoverflow
  | .ok r => Inside p r

/-- The condition on a start and a count: nothing is asked for, the sum stays below the word
size, the wrapped sum is refused, or the partition itself goes past the word size and the request
starts below it. -/
def CountFits (start count : BitVec w) : Prop :=
  let S := p.startSector.toNat
  let N := p.nSector.toNat
  let x := start.toNat
  let n := count.toNat
  n = 0 ∨ S + x + n < 2 ^ w ∨ (S + N) % 2 ^ w < (S + x + n) % 2 ^ w ∨
    (S + x < 2 ^ w ∧ x + n ≤ N)

/-- The condition on a start and an end: the wrapped end is refused, or the range runs forward and
its end stays below the word size (the last word only for a partition that goes past it). -/
def RangeFits (blkr : BlkRange w) : Prop :=
  let S := p.startSector.toNat
  let N := p.nSector.toNat
  let x := blkr.startSector.toNat
  let y := blkr.endSector.toNat
  (S + N) % 2 ^ w < (S + y + 1) % 2 ^ w ∨
    (x ≤ y ∧ (S + y + 1 < 2 ^ w ∨ (S + y + 1 = 2 ^ w ∧ 2 ^ w ≤ S + N)))

def Fits : Request w → Prop
  | .blkRd _ start count => CountFits p start count
  | .blkWrt _ start count _ => CountFits p start count
  | .fioTrim blkr => RangeFits p blkr
  | .fioSyncMeta blkr => RangeFits p blkr
  | .fioRdMeta blkm => CountFits p blkm.startSector blkm.sectorCnt
  | .fioWrMeta blkm => CountFits p blkm.startSector blkm.sectorCnt
  | .fioOther _ _ => True

variable {p}

theorem insideCount_iff {start count : BitVec w} :
    InsideCount p start count ↔
      count.toNat = 0 ∨
        (p.startSector.toNat ≤ start.toNat ∧
          start.toNat + count.toNat ≤ p.startSector.toNat + p.nSector.toNat) := by
  constructor
  · intro h
    by_cases hn : count.toNat = 0
    · exact Or.inl hn
    · have first := h 0 (by omega)
      have last := h (count.toNat - 1) (by omega)
      omega
  · rintro (h | h) i hi <;> omega

theorem outOfBoundsCheck_iff {start count : BitVec w} :
    outOfBoundsCheck p start count = true ↔
      (p.startSector.toNat + p.nSector.toNat) % 2 ^ w <
        (start.toNat + count.toNat) % 2 ^ w := by
  simp [outOfBoundsCheck, BitVec.lt_def]

theorem add_wrap (a b : BitVec w) :
    (a.toNat + b.toNat < 2 ^ w ∧ (a + b).toNat = a.toNat + b.toNat) ∨
      (2 ^ w ≤ a.toNat + b.toNat ∧ (a + b).toNat + 2 ^ w = a.toNat + b.toNat) := by
  have ha := a.isLt
  have hb := b.isLt
  rw [BitVec.toNat_add]
  by_cases h : a.toNat + b.toNat < 2 ^ w
  · left
    exact ⟨h, Nat.mod_eq_of_lt h⟩
  · right
    rw [Nat.mod_eq_sub_mod (by omega), Nat.mod_eq_of_lt (by omega)]
    omega

theorem sum_mod (a b c : BitVec w) :
    ((a + b).toNat + c.toNat) % 2 ^ w = (b.toNat + a.toNat + c.toNat) % 2 ^ w := by
  rw [BitVec.toNat_add, Nat.mod_add_mod, Nat.add_comm a.toNat]

theorem countFits_of_accepted {start count : BitVec w}
    (accepted : ¬ (p.startSector.toNat + p.nSector.toNat) % 2 ^ w <
      (p.startSector.toNat + start.toNat + count.toNat) % 2 ^ w) :
    InsideCount p (start + p.startSector) count ↔ CountFits p start count := by
  have hx := start.isLt
  rw [insideCount_iff]
  unfold CountFits
  have bound := Nat.mod_le (p.startSector.toNat + p.nSector.toNat) (2 ^ w)
  by_cases below : p.startSector.toNat + start.toNat + count.toNat < 2 ^ w
  · rw [Nat.mod_eq_of_lt below] at accepted
    have := add_wrap start p.startSector
    omega
  · have := add_wrap start p.startSector
    omega

theorem rangeFits_of_accepted {blkr : BlkRange w}
    (accepted : ¬ (p.startSector.toNat + p.nSector.toNat) % 2 ^ w <
      (p.startSector.toNat + blkr.endSector.toNat + 1) % 2 ^ w) :
    InsideRange p ⟨blkr.startSector + p.startSector, blkr.endSector + p.startSector⟩ ↔
      RangeFits p blkr := by
  have hx := blkr.startSector.isLt
  have hy := blkr.endSector.isLt
  unfold InsideRange RangeFits
  have bound := Nat.mod_le (p.startSector.toNat + p.nSector.toNat) (2 ^ w)
  have first := add_wrap blkr.startSector p.startSector
  have last := add_wrap blkr.endSector p.startSector
  simp only [accepted, false_or]
  by_cases below : p.startSector.toNat + blkr.endSector.toNat + 1 < 2 ^ w
  · rw [Nat.mod_eq_of_lt below] at accepted
    omega
  · omega

theorem confined_count {start count : BitVec w} {r : Request w}
    (inside : Inside p r ↔ InsideCount p (start + p.startSector) count) :
    Confined p (if outOfBoundsCheck p (start + p.startSector) count then .error .eoverflow
      else .ok r) ↔ CountFits p start count := by
  by_cases refused : outOfBoundsCheck p (start + p.startSector) count = true
  · rw [if_pos refused]
    rw [outOfBoundsCheck_iff, sum_mod] at refused
    simp [Confined, CountFits, refused]
  · rw [if_neg refused]
    rw [outOfBoundsCheck_iff, sum_mod] at refused
    exact inside.trans (countFits_of_accepted refused)

theorem range_end_mod (S x y : BitVec w) :
    ((x + S).toNat + ((y + S) - (x + S) + 1).toNat) % 2 ^ w =
      (S.toNat + y.toNat + 1) % 2 ^ w := by
  rw [← BitVec.toNat_add]
  have sum : x + S + (y + S - (x + S) + 1) = S + y + 1 := by ring
  rw [sum, BitVec.toNat_add, BitVec.toNat_add, Nat.mod_add_mod]
  simp [Nat.add_mod]

theorem confined_range {cmd : BlkRange w → Request w} {blkr : BlkRange w}
    (inside : ∀ phy, Inside p (cmd phy) ↔ InsideRange p phy) :
    Confined p (ioctlRange p cmd blkr) ↔ RangeFits p blkr := by
  unfold ioctlRange
  simp only
  by_cases refused : outOfBoundsCheck p (blkr.startSector + p.startSector)
      (blkr.endSector + p.startSector - (blkr.startSector + p.startSector) + 1) = true
  · rw [if_pos refused]
    rw [outOfBoundsCheck_iff, range_end_mod] at refused
    simp [Confined, RangeFits, refused]
  · rw [if_neg refused]
    rw [outOfBoundsCheck_iff, range_end_mod] at refused
    exact (inside _).trans (rangeFits_of_accepted refused)

/-- The logical disk keeps a request inside its partition exactly when the request fits. -/
theorem logic_disk_confined_iff (p : DiskPart w) (r : Request w) :
    Confined p (logicDisk p r) ↔ Fits p r := by
  cases r with
  | blkRd buf start count => exact confined_count Iff.rfl
  | blkWrt buf start count fsKey => exact confined_count Iff.rfl
  | fioTrim blkr => exact confined_range fun _ => Iff.rfl
  | fioSyncMeta blkr => exact confined_range fun _ => Iff.rfl
  | fioRdMeta blkm => exact confined_count Iff.rfl
  | fioWrMeta blkm => exact confined_count Iff.rfl
  | fioOther cmd arg => exact iff_of_true trivial trivial

/-- A partition of 4096 sectors from sector 2048 on: writing one sector at `2 ^ 64 - 2048` writes
sector 0 of the physical disk. -/
theorem logic_disk_reaches_mbr :
    logicDisk (w := 64) ⟨2048, 4096⟩ (.blkWrt 0 (-2048) 1 0) = .ok (.blkWrt 0 0 1 0) ∧
      ¬ Confined (w := 64) ⟨2048, 4096⟩ (logicDisk ⟨2048, 4096⟩ (.blkWrt 0 (-2048) 1 0)) := by
  constructor
  · rfl
  · intro h
    have first := h 0 (by decide)
    exact absurd first.1 (by decide)

end SylixOS.LogicDisk
