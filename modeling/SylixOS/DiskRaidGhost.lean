import SylixOS.DiskRaid

/-! `API_DiskRiad1Ghost`, which copies sectors from one disk to another. -/

namespace SylixOS.DiskRaid
open SylixOS.ByteBuffer (patch patch_inside patch_outside)

variable {α : Type}

/-- The target disk and what has been done: the transfers asked of the source and of the target,
each with its first sector and its length, and whether one of them failed. -/
structure Ghost (α : Type) where
  dest : Nat → α
  rds : List (Nat × Nat)
  wrts : List (Nat × Nat)
  copyCount : Nat
  failed : Bool

structure GhostDisks (α : Type) where
  pblkDest : BlkDev
  pblkSrc : BlkDev
  src : Nat → α
  rdErr : Nat → Nat → Bool
  wrtErr : Nat → Nat → Bool

def sectorsPerTime : Nat := 16

def ghostLoop (word : Nat) (D : GhostDisks α) :
    (left ulStartSector ulSectorNum : Nat) → Ghost α → Ghost α
  | 0, _, _, g => g
  | left + 1, ulStartSector, ulSectorNum, g =>
    let ulTemp := if sectorsPerTime ≤ ulSectorNum then sectorsPerTime else ulSectorNum
    let g := { g with rds := (ulStartSector, ulTemp) :: g.rds }
    if D.rdErr ulStartSector ulTemp then { g with failed := true }
    else
      let g := { g with wrts := (ulStartSector, ulTemp) :: g.wrts }
      if D.wrtErr ulStartSector ulTemp then { g with failed := true }
      else
        let g := { g with
          dest := patch g.dest ulStartSector ulTemp fun i => D.src (ulStartSector + i)
          copyCount := g.copyCount + ulTemp }
        if ulSectorNum - ulTemp = 0 then g
        else ghostLoop word D left ((ulStartSector + ulTemp) % 2 ^ word) (ulSectorNum - ulTemp) g

def diskRiad1Ghost (word : Nat) (D : GhostDisks α) (memory : Bool) (dest : Nat → α)
    (ulStartSector ulSectorNum : Nat) : Ghost α :=
  let g : Ghost α := { dest := dest, rds := [], wrts := [], copyCount := 0, failed := false }
  if ulSectorNum = 0 then g
  else
    match diskRaidTotalSector D.pblkSrc with
    | none => g
    | some ulTotalSectors =>
      if ulStartSector ≥ ulTotalSectors then g
      else
        let ulSectorNum :=
          if ulTotalSectors - ulStartSector > ulSectorNum then ulTotalSectors - ulStartSector
          else ulSectorNum
        match diskRaidBytesPerSector D.pblkSrc, diskRaidBytesPerSector D.pblkDest with
        | some ulSectorSize, some ulTemp =>
          if ulSectorSize ≠ ulTemp ∨ memory = false then g
          else ghostLoop word D ulSectorNum ulStartSector ulSectorNum g
        | _, _ => g

variable {word T start n : Nat} {D : GhostDisks α} {dest : Nat → α} {memory : Bool}

structure Copied (src dest : Nat → α) (start n T : Nat) (g : Ghost α) : Prop where
  copyCount : g.copyCount = n
  inside : ∀ s, start ≤ s → s < start + n → g.dest s = src s
  outside : ∀ s, s < start ∨ start + n ≤ s → g.dest s = dest s
  rds : ∀ x ∈ g.rds, x.1 + x.2 ≤ T
  wrts : ∀ x ∈ g.wrts, x.1 + x.2 ≤ T

def Ghost.turn (g : Ghost α) (src : Nat → α) (start cnt : Nat) : Ghost α where
  dest := patch g.dest start cnt fun i => src (start + i)
  rds := (start, cnt) :: g.rds
  wrts := (start, cnt) :: g.wrts
  copyCount := g.copyCount + cnt
  failed := g.failed

@[simp] theorem Ghost.turn_dest (g : Ghost α) (src : Nat → α) (start cnt : Nat) :
    (g.turn src start cnt).dest = patch g.dest start cnt fun i => src (start + i) := rfl

@[simp] theorem Ghost.turn_copyCount (g : Ghost α) (src : Nat → α) (start cnt : Nat) :
    (g.turn src start cnt).copyCount = g.copyCount + cnt := rfl

theorem ghostLoop_turn {left num : Nat} {g : Ghost α}
    (hok : (ghostLoop word D (left + 1) start num g).failed = false) :
    ghostLoop word D (left + 1) start num g =
      if num ≤ sectorsPerTime then g.turn D.src start num
      else ghostLoop word D left ((start + sectorsPerTime) % 2 ^ word) (num - sectorsPerTime)
        (g.turn D.src start sectorsPerTime) := by
  have hmin : (if sectorsPerTime ≤ num then sectorsPerTime else num) = min sectorsPerTime num := rfl
  rw [ghostLoop, hmin] at hok ⊢
  cases hrd : D.rdErr start (min sectorsPerTime num) with
  | true => simp [hrd] at hok
  | false =>
    cases hwrt : D.wrtErr start (min sectorsPerTime num) with
    | true => simp [hrd, hwrt] at hok
    | false =>
      simp only [Bool.false_eq_true, if_false]
      by_cases hlast : num ≤ sectorsPerTime
      · rw [min_eq_right hlast, Nat.sub_self, if_pos rfl, if_pos hlast]
        rfl
      · rw [min_eq_left (by omega), if_neg (by omega), if_neg hlast]
        rfl

theorem ghostLoop_count (left : Nat) {num : Nat} {g : Ghost α} (hleft : num ≤ left)
    (hok : (ghostLoop word D left start num g).failed = false) :
    (ghostLoop word D left start num g).copyCount = g.copyCount + num := by
  induction left generalizing start num g with
  | zero =>
    obtain rfl := Nat.le_zero.mp hleft
    rfl
  | succ left ih =>
    have hturn := ghostLoop_turn hok
    rw [hturn] at hok ⊢
    by_cases hlast : num ≤ sectorsPerTime
    · rw [if_pos hlast]
      rfl
    · rw [if_neg hlast] at hok ⊢
      rw [ih (by rw [sectorsPerTime] at *; omega) hok, Ghost.turn_copyCount]
      omega

theorem ghostLoop_copied (left : Nat) {num m : Nat} {g : Ghost α} (hleft : num ≤ left)
    (hword : T < 2 ^ word) (hin : start + m + num ≤ T) (copied : Copied D.src dest start m T g)
    (hok : (ghostLoop word D left (start + m) num g).failed = false) :
    Copied D.src dest start (m + num) T (ghostLoop word D left (start + m) num g) := by
  induction left generalizing m num g with
  | zero =>
    obtain rfl := Nat.le_zero.mp hleft
    exact copied
  | succ left ih =>
    have hturn := ghostLoop_turn hok
    have hstep : ∀ cnt, start + m + cnt ≤ T →
        Copied D.src dest start (m + cnt) T (g.turn D.src (start + m) cnt) := by
      intro cnt hcnt
      refine ⟨congrArg (· + cnt) copied.copyCount, fun s hlo hhi => ?_, fun s hs => ?_,
        List.forall_mem_cons.mpr ⟨hcnt, copied.rds⟩, List.forall_mem_cons.mpr ⟨hcnt, copied.wrts⟩⟩
      · by_cases hs : s < start + m
        · rw [Ghost.turn_dest, patch_outside _ _ (by omega)]
          exact copied.inside s hlo hs
        · rw [Ghost.turn_dest, patch_inside _ _ (by omega) (by omega)]
          exact congrArg D.src (by omega)
      · rw [Ghost.turn_dest, patch_outside _ _ (by omega)]
        exact copied.outside s (by omega)
    rw [hturn] at hok ⊢
    by_cases hlast : num ≤ sectorsPerTime
    · rw [if_pos hlast]
      exact hstep num hin
    · rw [if_neg hlast] at hok ⊢
      have hnext : (start + m + sectorsPerTime) % 2 ^ word = start + (m + sectorsPerTime) := by
        rw [Nat.mod_eq_of_lt (by omega), Nat.add_assoc]
      rw [hnext] at hok ⊢
      have hsum : m + num = m + sectorsPerTime + (num - sectorsPerTime) := by omega
      rw [hsum]
      exact ih (by rw [sectorsPerTime] at *; omega) (by omega) (hstep _ (by omega)) hok

/-- `API_DiskRiad1Ghost` copies exactly the requested sectors that the source has, if and only if
the request ends where the source ends, and the disks have sectors of one size. -/
theorem ghost_copied_iff (hT : diskRaidTotalSector D.pblkSrc = some T) (hword : T < 2 ^ word)
    (hstart : start < T) (hn : 1 ≤ n)
    (hok : (diskRiad1Ghost word D memory dest start n).failed = false) :
    Copied D.src dest start (min n (T - start)) T (diskRiad1Ghost word D memory dest start n) ↔
      n = T - start ∧ memory = true ∧
        ∃ size, diskRaidBytesPerSector D.pblkSrc = some size ∧
          diskRaidBytesPerSector D.pblkDest = some size := by
  have hnone : ∀ g : Ghost α, g.copyCount = 0 →
      ¬ Copied D.src dest start (min n (T - start)) T g := by
    intro g hg copied
    have hcount := copied.copyCount
    omega
  rw [diskRiad1Ghost, if_neg (by omega)] at hok ⊢
  simp only [hT, if_neg (not_le.mpr hstart)] at hok ⊢
  cases hsrc : diskRaidBytesPerSector D.pblkSrc with
  | none => exact iff_of_false (hnone _ rfl) (by simp)
  | some size =>
    cases hdest : diskRaidBytesPerSector D.pblkDest with
    | none => exact iff_of_false (hnone _ rfl) (by simp)
    | some size' =>
      simp only [hsrc, hdest, Option.some.injEq] at hok ⊢
      by_cases hbad : size ≠ size' ∨ memory = false
      · rw [if_pos hbad]
        refine iff_of_false (hnone _ rfl) ?_
        rintro ⟨-, rfl, s, rfl, rfl⟩
        simp at hbad
      · rw [if_neg hbad] at hok ⊢
        rw [not_or, not_not, Bool.not_eq_false] at hbad
        obtain ⟨rfl, rfl⟩ := hbad
        simp only [and_self, exists_eq', and_true]
        -- the larger of the two numbers is copied
        have hmax : (if T - start > n then T - start else n) = max n (T - start) := by
          split <;> omega
        rw [hmax] at hok ⊢
        constructor
        · intro copied
          have hcount := copied.copyCount
          rw [ghostLoop_count _ le_rfl hok] at hcount
          simp only at hcount
          omega
        · rintro rfl
          rw [max_self, min_self] at *
          have hempty : Copied D.src dest start 0 T ⟨dest, [], [], 0, false⟩ :=
            ⟨rfl, by omega, fun _ _ => rfl, by simp, by simp⟩
          have hin : start + 0 + (T - start) ≤ T := by omega
          have hcopied := ghostLoop_copied _ le_rfl hword hin hempty hok
          rwa [Nat.zero_add] at hcopied

def smallGhost : GhostDisks Nat where
  pblkDest := ⟨512, 100, 512, none, none, none⟩
  pblkSrc := ⟨512, 40, 512, none, none, none⟩
  src s := s + 1
  rdErr start cnt := decide (40 < start + cnt)
  wrtErr start cnt := decide (100 < start + cnt)

theorem ghost_copied_small :
    Copied smallGhost.src (fun _ => 0) 3 37 40 (diskRiad1Ghost 32 smallGhost true (fun _ => 0) 3 37) :=
  (ghost_copied_iff (T := 40) (n := 37) rfl (by decide) (by decide) (by decide) (by decide)).mpr
    ⟨rfl, rfl, 512, rfl, rfl⟩

/-- One sector is asked for, and all 40 are copied. -/
theorem ghost_copies_too_much :
    (diskRiad1Ghost 32 smallGhost true (fun _ => 0) 0 1).failed = false ∧
      ¬ Copied smallGhost.src (fun _ => 0) 0 1 40
        (diskRiad1Ghost 32 smallGhost true (fun _ => 0) 0 1) := by
  refine ⟨by decide, fun copied => ?_⟩
  exact absurd copied.copyCount (by decide)

end SylixOS.DiskRaid
