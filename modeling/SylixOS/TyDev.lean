import Mathlib.Data.Int.Basic
import Mathlib.Data.List.TakeDrop
import Mathlib.Data.Fintype.Basic

/-! The read side of a tty device (tyLib.c): the ring of what has been received, the
line that is being typed ahead of it, and what a character and a read do to
them under the spin lock. -/

namespace SylixOS.TyLib

def optCrmod : BitVec 32 := 0x02
def optTandem : BitVec 32 := 0x04
def opt7Bit : BitVec 32 := 0x08
def optMonTrap : BitVec 32 := 0x10
def optAbort : BitVec 32 := 0x20
def optLine : BitVec 32 := 0x40
def optRaw : BitVec 32 := 0

def maxCanon : ℕ := 255

def xoffThreshold : ℤ := 10
def xonThreshold : ℤ := 30

structure CtlChars where
  vmin : ℕ
  vtime : ℕ
  vintr : BitVec 8
  vquit : BitVec 8
  vstop : BitVec 8
  vstart : BitVec 8
  verase : BitVec 8
  vkill : BitVec 8
  veof : BitVec 8

structure Dev where
  iOpt : BitVec 32
  cc : CtlChars
  abortFunc : Bool
  /-- `TYDEV_ulRTimeout`; no time is `LW_OPTION_WAIT_INFINITE` -/
  ulRTimeout : Option ℕ
  tickHz : ℕ
  /-- `TYDEV_vxringidRdBuf`: its size, what is in it, and what has been put ahead of its end -/
  size : ℕ
  rdBuf : List (BitVec 8)
  ahead : ℕ → BitVec 8
  ucInNBytes : ℕ
  ucInBytesLeft : ℕ
  /-- `TYDEVRDSTAT_bXoff`, `TYDEVRDSTAT_bPending`, `TYDEVRDSTAT_bCanceled`,
  `TYDEVRDSTAT_bFlushingRdBuf`, `TYDEVRDSTAT_cLastRecv` -/
  bXoff : Bool
  bPending : Bool
  bCanceled : Bool
  bFlushingRdBuf : Bool
  cLastRecv : BitVec 8
  abortFlag : Bool

variable (d : Dev)

def Dev.opt (flag : BitVec 32) : Bool := d.iOpt &&& flag != 0

def Dev.freeBytes : ℕ := d.size - d.rdBuf.length

def Dev.elemPut (c : BitVec 8) : Bool × Dev :=
  if d.rdBuf.length = d.size then (false, d)
  else (true, { d with rdBuf := d.rdBuf ++ [c], ahead := fun i => d.ahead (i + 1) })

def Dev.putAhead (c : BitVec 8) (offset : ℕ) : Dev :=
  { d with ahead := Function.update d.ahead offset c }

def Dev.moveAhead (n : ℕ) : Dev :=
  { d with
    rdBuf := d.rdBuf ++ (List.range n).map d.ahead
    ahead := fun i => d.ahead (i + n) }

/-- A character in line mode: whether it is taken (`iStatus`), whether it ends the line, and the
device before the line is committed -/
def Dev.canon (c : BitVec 8) : Bool × Bool × Dev :=
  if c = 127 ∨ c = d.cc.verase then (true, false, { d with ucInNBytes := d.ucInNBytes - 1 })
  else if c = d.cc.vkill then (true, false, { d with ucInNBytes := 0 })
  else if c = d.cc.veof then (true, decide (0 < d.freeBytes), d)
  else if 2 ≤ d.freeBytes then
    let room := d.ucInNBytes + 3 ≤ d.freeBytes ∧ d.ucInNBytes < maxCanon - 1
    let n := if room then d.ucInNBytes + 1 else d.ucInNBytes
    (decide room, decide (c = 10), { d.putAhead c n with ucInNBytes := n })
  else (false, false, d)

def Dev.commit : Dev :=
  { (d.putAhead (BitVec.ofNat 8 d.ucInNBytes) 0).moveAhead (d.ucInNBytes + 1) with
    ucInNBytes := 0 }

inductive Received where
  | done (iStatus : Bool)
  | rest (bReleaseTaskLevel : Bool) (tandem : Bool) (iStatus : Bool)
  deriving DecidableEq

def Dev.accept (c : BitVec 8) : Dev × Received :=
  if d.opt optLine then
    let r := d.canon c
    (if r.2.1 then r.2.2.commit else r.2.2, .rest r.2.1 false r.1)
  else
    let r := d.elemPut c
    (r.2, .rest (decide (r.2.rdBuf.length = 1)) (d.opt optTandem) r.1)

def Dev.cooked (c : BitVec 8) : Dev × Received :=
  if c = d.cc.vintr ∧ d.opt optAbort ∧ d.abortFunc then (d, .done true)
  else if c = d.cc.vquit ∧ d.opt optMonTrap then (d, .done true)
  else if (c = d.cc.vstop ∨ c = d.cc.vstart) ∧ d.opt optTandem then (d, .done true)
  else if d.opt optCrmod ∧ d.opt optLine ∧ c = 0 then (d, .done true)
  else if d.opt optCrmod ∧ d.cLastRecv = 13 ∧ c = 10 then
    ({ d with cLastRecv := c }, .done true)
  else ({ d with cLastRecv := c } : Dev).accept (if d.opt optCrmod ∧ c = 13 then 10 else c)

/-- The first section of `_TyIRd` under the spin lock; the echo and the transmitter are not part
of the read side -/
def Dev.tyIRd (cInchar : BitVec 8) : Dev × Received :=
  if d.bFlushingRdBuf then (d, .done false)
  else if d.iOpt = optRaw then d.accept cInchar
  else d.cooked (if d.opt opt7Bit then cInchar &&& 0x7f else cInchar)

def Dev.tyRdXoff (bXoff : Bool) : Dev :=
  if d.bXoff ≠ bXoff then { d with bXoff := bXoff, bPending := true } else d

def Dev.irdTandem : Bool × Dev :=
  if ¬d.bXoff then
    if (d.freeBytes : ℤ) < xoffThreshold then (true, d.tyRdXoff true) else (false, d)
  else if (d.freeBytes : ℤ) > xonThreshold then (false, d.tyRdXoff false)
  else (false, d)

def Dev.take (stMaxBytes : ℕ) : List (BitVec 8) × ℕ × Dev :=
  if d.opt optLine then
    let left := if d.ucInBytesLeft = 0 then (d.rdBuf.headD 0).toNat else d.ucInBytesLeft
    let buf := if d.ucInBytesLeft = 0 then d.rdBuf.tail else d.rdBuf
    let n := min left stMaxBytes
    (buf.take n, n, { d with rdBuf := buf.drop n, ucInBytesLeft := left - n })
  else
    (d.rdBuf.take stMaxBytes, (d.rdBuf.take stMaxBytes).length,
      { d with rdBuf := d.rdBuf.drop stMaxBytes })

def Dev.mayXon : Bool :=
  d.opt optTandem && d.bXoff &&
    decide ((d.freeBytes : ℤ) - (if d.opt optLine then (d.ucInNBytes : ℤ) + 1 else 0) >
      xonThreshold)

/-- The time limit of `API_SemaphoreBPend` in `_TyRead`, and in `_TyReadVtime` before and after
the first bytes; `some 0` is `API_SemaphoreBTryPend` -/
def Dev.readTimeout (first : Bool) : Option ℕ :=
  if d.cc.vtime = 0 then if d.cc.vmin = 0 then some 0 else d.ulRTimeout
  else if d.cc.vmin ≠ 0 ∧ first then none
  else some (d.cc.vtime * 100 * d.tickHz / 1000)

def Dev.rngFlush : Dev := { d with rdBuf := [], ucInNBytes := 0, ucInBytesLeft := 0 }

variable {d}

theorem canon_rdBuf (c : BitVec 8) : (d.canon c).2.2.rdBuf = d.rdBuf := by
  unfold Dev.canon
  split
  · rfl
  · split
    · rfl
    · split
      · rfl
      · split <;> rfl

def Announced (d : Dev) (r : Dev × Received) : Prop :=
  r.1.rdBuf = d.rdBuf ∨ d.rdBuf ≠ [] ∨ ∃ tandem iStatus, r.2 = .rest true tandem iStatus

theorem accept_announced (c : BitVec 8) : Announced d (d.accept c) := by
  unfold Dev.accept
  split
  case isTrue =>
    by_cases hrelease : (d.canon c).2.1 = true
    · exact Or.inr (Or.inr ⟨false, (d.canon c).1, by simp only [hrelease]⟩)
    · left
      simp only [hrelease, Bool.false_eq_true, if_false]
      exact canon_rdBuf c
  case isFalse =>
    unfold Dev.elemPut
    split
    case isTrue => exact Or.inl rfl
    case isFalse =>
      right
      by_cases hempty : d.rdBuf = []
      · right
        exact ⟨_, _, by simp [hempty]; exact ⟨rfl, rfl⟩⟩
      · exact Or.inl hempty

theorem cooked_announced (c : BitVec 8) : Announced d (d.cooked c) := by
  unfold Dev.cooked
  split
  · exact Or.inl rfl
  · split
    · exact Or.inl rfl
    · split
      · exact Or.inl rfl
      · split
        · exact Or.inl rfl
        · split
          · exact Or.inl rfl
          · exact accept_announced (d := { d with cLastRecv := c }) _

theorem tyIRd_announced (c : BitVec 8) :
    (d.tyIRd c).1 = d ∨ d.bFlushingRdBuf = false ∧ Announced d (d.tyIRd c) := by
  unfold Dev.tyIRd
  split
  case isTrue => exact Or.inl rfl
  case isFalse hflushing =>
    refine Or.inr ⟨by simpa using hflushing, ?_⟩
    split
    · exact accept_announced c
    · exact cooked_announced _

theorem canon_flushing (c : BitVec 8) : (d.canon c).2.2.bFlushingRdBuf = d.bFlushingRdBuf := by
  unfold Dev.canon
  split
  · rfl
  · split
    · rfl
    · split
      · rfl
      · split <;> rfl

theorem accept_flushing (c : BitVec 8) : (d.accept c).1.bFlushingRdBuf = d.bFlushingRdBuf := by
  unfold Dev.accept
  split
  · dsimp only
    split
    · exact canon_flushing c
    · exact canon_flushing c
  · unfold Dev.elemPut
    split <;> rfl

theorem cooked_flushing (c : BitVec 8) : (d.cooked c).1.bFlushingRdBuf = d.bFlushingRdBuf := by
  unfold Dev.cooked
  split
  · rfl
  · split
    · rfl
    · split
      · rfl
      · split
        · rfl
        · split
          · rfl
          · exact accept_flushing (d := { d with cLastRecv := c }) _

theorem tyIRd_flushing (c : BitVec 8) : (d.tyIRd c).1.bFlushingRdBuf = d.bFlushingRdBuf := by
  unfold Dev.tyIRd
  split
  · rfl
  · split
    · exact accept_flushing c
    · exact cooked_flushing _

theorem tyRdXoff_rdBuf (bXoff : Bool) :
    (d.tyRdXoff bXoff).rdBuf = d.rdBuf ∧ (d.tyRdXoff bXoff).bFlushingRdBuf = d.bFlushingRdBuf := by
  unfold Dev.tyRdXoff
  split <;> exact ⟨rfl, rfl⟩

theorem irdTandem_rdBuf :
    d.irdTandem.2.rdBuf = d.rdBuf ∧ d.irdTandem.2.bFlushingRdBuf = d.bFlushingRdBuf := by
  unfold Dev.irdTandem
  split
  · split
    · exact tyRdXoff_rdBuf true
    · exact ⟨rfl, rfl⟩
  · split
    · exact tyRdXoff_rdBuf false
    · exact ⟨rfl, rfl⟩

theorem take_flushing (stMaxBytes : ℕ) :
    (d.take stMaxBytes).2.2.bFlushingRdBuf = d.bFlushingRdBuf := by
  unfold Dev.take
  split <;> rfl

end SylixOS.TyLib
