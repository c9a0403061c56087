import Mathlib.Data.Nat.Bitwise
import Mathlib.Data.Nat.Find
import SylixOS.ByteBuffer

/-! Disk arrays (`diskRaidLib.c`, `diskRaid0.c`, `diskRaid1.c`): the checks of a group of
disks, striping over two or four of them, and mirroring. -/

namespace SylixOS.DiskRaid
open SylixOS.ByteBuffer (patch)

structure BlkDev where
  bytesPerSector : Nat
  nSector : Nat
  bytesPerBlock : Nat
  secSize : Option Nat
  secNum : Option Nat
  blkSize : Option Nat

inductive Ret where
  | errorNone
  | pxError
  deriving DecidableEq, Repr

def diskRaidBytesPerSector (d : BlkDev) : Option Nat :=
  if d.bytesPerSector ≠ 0 then some d.bytesPerSector else d.secSize

def diskRaidBytesPerBlock (d : BlkDev) : Option Nat :=
  if d.bytesPerBlock ≠ 0 then some d.bytesPerBlock else d.blkSize

def diskRaidTotalSector (d : BlkDev) : Option Nat :=
  if d.nSector ≠ 0 then some d.nSector else d.secNum

structure RaidSize where
  bytesPerSector : Nat
  bytesPerBlock : Nat
  totalSector : Nat

def diskRaidCheck : List BlkDev → Option RaidSize
  | [] => none
  | d :: ds => do
    let bytes ← diskRaidBytesPerSector d
    let total ← diskRaidTotalSector d
    let blk ← diskRaidBytesPerBlock d
    if ds.all (fun e => diskRaidBytesPerSector e = some bytes ∧ diskRaidTotalSector e = some total)
    then some ⟨bytes, blk, total⟩ else none

structure Raid0 where
  word : Nat
  nDisks : Nat
  diskShift : Nat
  diskMask : Nat
  stripeShift : Nat
  stripeMask : Nat
  nSector : Nat
  deriving DecidableEq, Repr

def stripeShiftOf (word bytes stStripe : Nat) : Option Nat :=
  (List.range 16).find? fun i => stStripe = (bytes <<< i) % 2 ^ word

def diskRiad0Create (word : Nat) (pblkd : List BlkDev) (stStripe : Nat) : Option Raid0 :=
  if (pblkd.length ≠ 2 ∧ pblkd.length ≠ 4) ∨ stStripe < 32 * 1024 ∨
      stStripe &&& (stStripe - 1) ≠ 0 then none
  else do
    let size ← diskRaidCheck pblkd
    let shift ← stripeShiftOf word size.bytesPerSector stStripe
    some
      { word
        nDisks := pblkd.length
        diskShift := if pblkd.length = 2 then 1 else 2
        diskMask := if pblkd.length = 2 then 0x01 else 0x03
        stripeShift := shift
        stripeMask := 2 ^ shift - 1
        nSector := size.totalSector * pblkd.length % 2 ^ word }

namespace Raid0

def fragCount (r : Raid0) (ulStartSector ulSectorCount : Nat) : Nat :=
  if ulStartSector &&& r.stripeMask ≠ 0 then
    if ulSectorCount ≤ ulStartSector &&& r.stripeMask then ulSectorCount
    else ulStartSector &&& r.stripeMask
  else if 2 ^ r.stripeShift ≤ ulSectorCount then 2 ^ r.stripeShift
  else ulSectorCount

def fragDisk (r : Raid0) (ulStartSector : Nat) : Nat :=
  (ulStartSector >>> r.stripeShift) &&& r.diskMask

def fragSector (r : Raid0) (ulStartSector : Nat) : Nat :=
  ulStartSector >>> r.diskShift

/-- The loop of `__raid0DevWrt` and `__raid0DevRd`: `access disk sector cnt off` transfers `cnt`
sectors from or to the buffer at sector `off`, or fails. Every turn moves a sector at least, so
`turns` is the sector count at the start. -/
def devLoop {σ : Type} (r : Raid0) (access : Nat → Nat → Nat → Nat → σ → Option σ) :
    (turns ulStartSector ulSectorCount off : Nat) → σ → Ret × σ
  | 0, _, _, _, st => (.errorNone, st)
  | turns + 1, ulStartSector, ulSectorCount, off, st =>
    if ulSectorCount = 0 then (.errorNone, st)
    else
      let cnt := r.fragCount ulStartSector ulSectorCount
      match access (r.fragDisk ulStartSector) (r.fragSector ulStartSector) cnt off st with
      | none => (.pxError, st)
      | some st =>
        r.devLoop access turns ((ulStartSector + cnt) % 2 ^ r.word) (ulSectorCount - cnt)
          (off + cnt) st

end Raid0

section Disks

variable {α : Type}

abbrev Disks (α : Type) := Nat → Nat → α

def Disks.put (ds : Disks α) (disk sector cnt : Nat) (buf : Nat → α) : Disks α := fun d s =>
  if d = disk ∧ sector ≤ s ∧ s < sector + cnt then buf (s - sector) else ds d s

end Disks

namespace Raid0

variable {α : Type}

def raid0DevWrt (r : Raid0) (total : Nat) (buf : Nat → α) (ulStartSector ulSectorCount : Nat)
    (ds : Disks α) : Ret × Disks α :=
  r.devLoop (fun disk sector cnt off ds =>
      if sector + cnt ≤ total then some (ds.put disk sector cnt fun i => buf (off + i)) else none)
    ulSectorCount ulStartSector ulSectorCount 0 ds

def raid0DevRd (r : Raid0) (total : Nat) (ds : Disks α) (ulStartSector ulSectorCount : Nat)
    (buf : Nat → α) : Ret × (Nat → α) :=
  r.devLoop (fun disk sector cnt off buf =>
      if sector + cnt ≤ total then some (patch buf off cnt fun i => ds disk (sector + i)) else none)
    ulSectorCount ulStartSector ulSectorCount 0 buf

structure Frag where
  disk : Nat
  sector : Nat
  cnt : Nat
  off : Nat
  deriving DecidableEq, Repr

def frags (r : Raid0) : (turns ulStartSector ulSectorCount off : Nat) → List Frag
  | 0, _, _, _ => []
  | turns + 1, ulStartSector, ulSectorCount, off =>
    if ulSectorCount = 0 then []
    else
      let cnt := r.fragCount ulStartSector ulSectorCount
      ⟨r.fragDisk ulStartSector, r.fragSector ulStartSector, cnt, off⟩ ::
        r.frags turns ((ulStartSector + cnt) % 2 ^ r.word) (ulSectorCount - cnt) (off + cnt)

def runFrags {σ : Type} (access : Nat → Nat → Nat → Nat → σ → Option σ) : List Frag → σ → Ret × σ
  | [], st => (.errorNone, st)
  | f :: fs, st =>
    match access f.disk f.sector f.cnt f.off st with
    | none => (.pxError, st)
    | some st => runFrags access fs st

theorem devLoop_eq_runFrags {σ : Type} (r : Raid0)
    (access : Nat → Nat → Nat → Nat → σ → Option σ) (turns start cnt off : Nat) (st : σ) :
    r.devLoop access turns start cnt off st = runFrags access (r.frags turns start cnt off) st := by
  induction turns generalizing start cnt off st with
  | zero => rfl
  | succ turns ih =>
    rw [devLoop, frags]
    split
    · rfl
    · dsimp only
      rw [runFrags]
      cases access (r.fragDisk start) (r.fragSector start) (r.fragCount start cnt) off st with
      | none => rfl
      | some st => exact ih _ _ _ st

/-! The claims on an array of disks of `total` sectors. -/

def InRange (r : Raid0) (total start cnt : Nat) : Prop :=
  start < 2 ^ r.word ∧ cnt < 2 ^ r.word ∧ start + cnt ≤ r.nDisks * total

def WellPlaced (r : Raid0) (total : Nat) : Prop :=
  ∃ m : Nat → Nat × Nat,
    (∀ start cnt, r.InRange total start cnt → ∀ o < cnt,
      ∃ f ∈ r.frags cnt start cnt 0, f.off ≤ o ∧ o < f.off + f.cnt) ∧
    (∀ start cnt, r.InRange total start cnt → ∀ f ∈ r.frags cnt start cnt 0, ∀ i < f.cnt,
      m (start + f.off + i) = (f.disk, f.sector + i)) ∧
    (∀ s < r.nDisks * total, ∀ t < r.nDisks * total, m s = m t → s = t) ∧
    ∀ s < r.nDisks * total, (m s).1 < r.nDisks ∧ (m s).2 < total

inductive Req (α : Type) where
  | write (start cnt : Nat) (buf : Nat → α)
  | read (start cnt : Nat)

def Req.In (r : Raid0) (total : Nat) : Req α → Prop
  | .write start cnt _ => r.InRange total start cnt
  | .read start cnt => r.InRange total start cnt

/-- The requests succeed one after the other, and every sector read has the data last written;
`last` are the writes so far. -/
def Served (r : Raid0) (total : Nat) : (Nat → Option α) → Disks α → List (Req α) → Prop
  | _, _, [] => True
  | last, ds, .write start cnt buf :: reqs =>
    (r.raid0DevWrt total buf start cnt ds).1 = .errorNone ∧
      Served r total (patch last start cnt fun i => some (buf i))
        (r.raid0DevWrt total buf start cnt ds).2 reqs
  | last, ds, .read start cnt :: reqs =>
    (∀ buf, (r.raid0DevRd total ds start cnt buf).1 = .errorNone ∧
      ∀ o < cnt, ∀ v, last (start + o) = some v →
        (r.raid0DevRd total ds start cnt buf).2 o = v) ∧
      Served r total last ds reqs

def Correct (r : Raid0) (total : Nat) : Prop :=
  r.WellPlaced total ∧ ∀ (α : Type) (ds : Disks α) (reqs : List (Req α)),
    (∀ q ∈ reqs, q.In r total) → r.Served total (fun _ => none) ds reqs

structure Unit (r : Raid0) : Prop where
  stripeShift : r.stripeShift = 0
  stripeMask : r.stripeMask = 0
  disks : r.nDisks = 2 ∧ r.diskShift = 1 ∧ r.diskMask = 1 ∨
    r.nDisks = 4 ∧ r.diskShift = 2 ∧ r.diskMask = 3

theorem Unit.nDisks_pos {r : Raid0} (h : r.Unit) : 0 < r.nDisks := by
  obtain ⟨hn, -⟩ | ⟨hn, -⟩ := h.disks <;> omega

theorem Unit.fragDisk {r : Raid0} (h : r.Unit) (s : Nat) : r.fragDisk s = s % r.nDisks := by
  rw [Raid0.fragDisk, h.stripeShift, Nat.shiftRight_zero]
  obtain ⟨hn, -, hm⟩ | ⟨hn, -, hm⟩ := h.disks
  · rw [hn, hm]
    exact Nat.and_two_pow_sub_one_eq_mod s 1
  · rw [hn, hm]
    exact Nat.and_two_pow_sub_one_eq_mod s 2

theorem Unit.fragSector {r : Raid0} (h : r.Unit) (s : Nat) : r.fragSector s = s / r.nDisks := by
  rw [Raid0.fragSector, Nat.shiftRight_eq_div_pow]
  obtain ⟨hn, hd, -⟩ | ⟨hn, hd, -⟩ := h.disks <;> rw [hn, hd]

theorem Unit.fragCount {r : Raid0} (h : r.Unit) {s c : Nat} (hc : c ≠ 0) : r.fragCount s c = 1 := by
  rw [Raid0.fragCount, h.stripeMask, Nat.and_zero, if_neg (not_not.mpr rfl), h.stripeShift,
    Nat.pow_zero, if_pos (Nat.one_le_iff_ne_zero.mpr hc)]

def loc (r : Raid0) (s : Nat) : Nat × Nat := (s % r.nDisks, s / r.nDisks)

theorem loc_injective (r : Raid0) {s t : Nat} (h : r.loc s = r.loc t) : s = t := by
  obtain ⟨hmod, hdiv⟩ := Prod.mk.inj h
  rw [← Nat.div_add_mod s r.nDisks, ← Nat.div_add_mod t r.nDisks, hmod, hdiv]

theorem loc_lt {r : Raid0} (hn : 0 < r.nDisks) {s total : Nat} (hs : s < r.nDisks * total) :
    (r.loc s).1 < r.nDisks ∧ (r.loc s).2 < total :=
  ⟨Nat.mod_lt s hn, Nat.div_lt_of_lt_mul hs⟩

theorem Unit.frags_succ {r : Raid0} (h : r.Unit) {s c : Nat} (o : Nat)
    (hs : s + (c + 1) ≤ 2 ^ r.word) :
    r.frags (c + 1) s (c + 1) o =
      ⟨(r.loc s).1, (r.loc s).2, 1, o⟩ :: r.frags c (s + 1) c (o + 1) := by
  rw [frags, if_neg (Nat.succ_ne_zero c)]
  dsimp only
  rw [h.fragCount (Nat.succ_ne_zero c), h.fragDisk, h.fragSector, Nat.add_sub_cancel]
  cases c with
  | zero => rfl
  | succ c => rw [Nat.mod_eq_of_lt (show s + 1 < 2 ^ r.word by omega)]; rfl

theorem Unit.mem_frags {r : Raid0} (h : r.Unit) {s c : Nat} (o : Nat) (hs : s + c ≤ 2 ^ r.word)
    (f : Frag) : f ∈ r.frags c s c o ↔
      ∃ i < c, f = ⟨(r.loc (s + i)).1, (r.loc (s + i)).2, 1, o + i⟩ := by
  induction c generalizing s o with
  | zero => simp [frags]
  | succ c ih =>
    rw [h.frags_succ o hs, List.mem_cons, ih (o + 1) (by omega)]
    constructor
    · rintro (rfl | ⟨i, hi, rfl⟩)
      · exact ⟨0, by omega, rfl⟩
      · exact ⟨i + 1, by omega, by rw [Nat.add_right_comm s 1 i, Nat.add_right_comm o 1 i]; rfl⟩
    · rintro ⟨i, hi, rfl⟩
      cases i with
      | zero => exact Or.inl rfl
      | succ i =>
        exact Or.inr ⟨i, by omega,
          by rw [Nat.add_right_comm s 1 i, Nat.add_right_comm o 1 i]; rfl⟩

theorem Unit.wellPlaced {r : Raid0} (h : r.Unit) {total : Nat}
    (hcap : r.nDisks * total ≤ 2 ^ r.word) : r.WellPlaced total := by
  refine ⟨r.loc, ?_, ?_, fun s _ t _ => r.loc_injective, fun s => loc_lt h.nDisks_pos⟩
  · intro start cnt hin o ho
    have hfit : start + cnt ≤ 2 ^ r.word := hin.2.2.trans hcap
    exact ⟨_, (h.mem_frags 0 hfit _).mpr ⟨o, ho, rfl⟩, by simp⟩
  · intro start cnt hin f hf i hi
    have hfit : start + cnt ≤ 2 ^ r.word := hin.2.2.trans hcap
    obtain ⟨j, hj, rfl⟩ := (h.mem_frags 0 hfit f).mp hf
    have hzero : i = 0 := Nat.lt_one_iff.mp hi
    subst hzero
    simp [loc]

theorem Unit.wrt {r : Raid0} (h : r.Unit) {total : Nat} (buf : Nat → α) {s c : Nat} (o : Nat)
    (hs : s + c ≤ r.nDisks * total) (hcap : s + c ≤ 2 ^ r.word) (ds : Disks α) :
    ∃ ds', runFrags (fun disk sector cnt off (ds : Disks α) =>
        if sector + cnt ≤ total then some (ds.put disk sector cnt fun i => buf (off + i)) else none)
      (r.frags c s c o) ds = (.errorNone, ds') ∧
      ∀ t, ds' (r.loc t).1 (r.loc t).2 =
        if s ≤ t ∧ t < s + c then buf (o + (t - s)) else ds (r.loc t).1 (r.loc t).2 := by
  induction c generalizing s o ds with
  | zero => exact ⟨ds, rfl, fun t => by rw [if_neg (by omega)]⟩
  | succ c ih =>
    have hok : (r.loc s).2 + 1 ≤ total :=
      (loc_lt h.nDisks_pos (lt_of_lt_of_le (by omega) hs)).2
    obtain ⟨ds', hrun, hds'⟩ := ih (o + 1) (s := s + 1) (by omega) (by omega)
      (ds.put (r.loc s).1 (r.loc s).2 1 fun i => buf (o + i))
    refine ⟨ds', ?_, ?_⟩
    · rw [h.frags_succ o hcap, runFrags]
      dsimp only
      rw [if_pos hok]
      exact hrun
    · intro t
      rw [hds' t]
      by_cases ht : t = s
      · subst ht
        rw [if_neg (by omega), if_pos (by omega), Disks.put, if_pos (by omega)]
        simp
      · by_cases hin : s + 1 ≤ t ∧ t < s + 1 + c
        · rw [if_pos hin, if_pos (by omega), show o + 1 + (t - (s + 1)) = o + (t - s) by omega]
        · rw [if_neg hin, if_neg (by omega), Disks.put, if_neg]
          rintro ⟨hd, hlo, hhi⟩
          exact ht (r.loc_injective (Prod.ext hd (by omega)))

theorem Unit.rd {r : Raid0} (h : r.Unit) {total : Nat} (ds : Disks α) {s c : Nat} (o : Nat)
    (hs : s + c ≤ r.nDisks * total) (hcap : s + c ≤ 2 ^ r.word) (buf : Nat → α) :
    ∃ buf', runFrags (fun disk sector cnt off (buf : Nat → α) =>
        if sector + cnt ≤ total then some (patch buf off cnt fun i => ds disk (sector + i)) else none)
      (r.frags c s c o) buf = (.errorNone, buf') ∧
      ∀ j, buf' j = if o ≤ j ∧ j < o + c then ds (r.loc (s + (j - o))).1 (r.loc (s + (j - o))).2
        else buf j := by
  induction c generalizing s o buf with
  | zero => exact ⟨buf, rfl, fun t => by rw [if_neg (by omega)]⟩
  | succ c ih =>
    have hok : (r.loc s).2 + 1 ≤ total :=
      (loc_lt h.nDisks_pos (lt_of_lt_of_le (by omega) hs)).2
    obtain ⟨buf', hrun, hbuf'⟩ := ih (o + 1) (s := s + 1) (by omega) (by omega)
      (patch buf o 1 fun i => ds (r.loc s).1 ((r.loc s).2 + i))
    refine ⟨buf', ?_, ?_⟩
    · rw [h.frags_succ o hcap, runFrags]
      dsimp only
      rw [if_pos hok]
      exact hrun
    · intro j
      rw [hbuf' j]
      by_cases hj : j = o
      · subst hj
        rw [if_neg (by omega), if_pos (by omega), patch, if_pos (by omega), Nat.sub_self]
        rfl
      · by_cases hin : o + 1 ≤ j ∧ j < o + 1 + c
        · rw [if_pos hin, if_pos (by omega), show s + 1 + (j - (o + 1)) = s + (j - o) by omega]
        · rw [if_neg hin, if_neg (by omega), patch, if_neg (by omega)]

theorem Unit.served {r : Raid0} (h : r.Unit) {total : Nat} (hcap : r.nDisks * total ≤ 2 ^ r.word)
    (last : Nat → Option α) (ds : Disks α) (reqs : List (Req α))
    (hlast : ∀ s v, last s = some v → ds (r.loc s).1 (r.loc s).2 = v)
    (hin : ∀ q ∈ reqs, q.In r total) : r.Served total last ds reqs := by
  induction reqs generalizing last ds with
  | nil => trivial
  | cons q reqs ih =>
    have hrest : ∀ q ∈ reqs, q.In r total := fun q hq => hin q (List.mem_cons_of_mem _ hq)
    cases q with
    | write start cnt buf =>
      have hr : r.InRange total start cnt := hin _ List.mem_cons_self
      obtain ⟨ds', hrun, hds'⟩ := h.wrt buf 0 hr.2.2 (hr.2.2.trans hcap) ds
      have hwrt : r.raid0DevWrt total buf start cnt ds = (.errorNone, ds') := by
        rw [raid0DevWrt, devLoop_eq_runFrags]
        exact hrun
      rw [Served, hwrt]
      refine ⟨rfl, ih _ _ ?_ hrest⟩
      intro s v hv
      refine (hds' s).trans ?_
      rw [patch] at hv
      split at hv
      · next hs =>
        rw [if_pos hs, Nat.zero_add]
        exact Option.some.inj hv
      · next hs =>
        rw [if_neg hs]
        exact hlast s v hv
    | read start cnt =>
      have hr : r.InRange total start cnt := hin _ List.mem_cons_self
      refine ⟨?_, ih _ _ hlast hrest⟩
      intro buf
      obtain ⟨buf', hrun, hbuf'⟩ := h.rd ds 0 hr.2.2 (hr.2.2.trans hcap) buf
      have hrd : r.raid0DevRd total ds start cnt buf = (.errorNone, buf') := by
        rw [raid0DevRd, devLoop_eq_runFrags]
        exact hrun
      rw [hrd]
      refine ⟨rfl, ?_⟩
      intro o ho v hv
      have hval : buf' o = ds (r.loc (start + o)).1 (r.loc (start + o)).2 := by
        rw [hbuf' o, if_pos (by omega), Nat.sub_zero]
      exact hval.trans (hlast _ v hv)

theorem not_wellPlaced_of_stripe {r : Raid0} {total : Nat} (hw : 2 ≤ r.word)
    (hshift : r.stripeShift ≠ 0) (hmask : r.stripeMask = 2 ^ r.stripeShift - 1)
    (hdisk : 0 < r.diskShift) (htotal : 2 ≤ r.nDisks * total) : ¬ r.WellPlaced total := by
  rintro ⟨m, -, hm, -, -⟩
  have hword : 2 ^ 2 ≤ 2 ^ r.word := Nat.pow_le_pow_right (by omega) hw
  have hstripe : 2 ^ 1 ≤ 2 ^ r.stripeShift := Nat.pow_le_pow_right (by omega) (by omega)
  have hone : 1 &&& r.stripeMask = 1 := by
    rw [hmask, Nat.and_two_pow_sub_one_eq_mod]
    exact Nat.mod_eq_of_lt (by omega)
  have hlow : ∀ s < 2, r.fragDisk s = 0 ∧ r.fragSector s = 0 := by
    intro s hs
    have hdiv : 2 ^ 1 ≤ 2 ^ r.diskShift := Nat.pow_le_pow_right (by omega) hdisk
    rw [fragDisk, fragSector, Nat.shiftRight_eq_div_pow, Nat.shiftRight_eq_div_pow,
      Nat.div_eq_of_lt (by omega), Nat.div_eq_of_lt (by omega), Nat.zero_and]
    exact ⟨rfl, rfl⟩
  have hin1 : r.InRange total 1 1 := ⟨by omega, by omega, by omega⟩
  have hin2 : r.InRange total 0 2 := ⟨by omega, by omega, by omega⟩
  have hcnt1 : r.fragCount 1 1 = 1 := by
    rw [fragCount, hone, if_pos (by omega), if_pos le_rfl]
  have hcnt2 : r.fragCount 0 2 = 2 := by
    rw [fragCount, Nat.zero_and, if_neg (by omega)]
    split <;> omega
  have hfrag1 : (⟨0, 0, 1, 0⟩ : Frag) ∈ r.frags 1 1 1 0 := by
    rw [frags, if_neg (by omega), hcnt1, (hlow 1 (by omega)).1, (hlow 1 (by omega)).2]
    exact List.mem_cons_self
  have hfrag2 : (⟨0, 0, 2, 0⟩ : Frag) ∈ r.frags 2 0 2 0 := by
    rw [frags, if_neg (by omega), hcnt2, (hlow 0 (by omega)).1, (hlow 0 (by omega)).2]
    exact List.mem_cons_self
  have h1 : m 1 = (0, 0) := hm 1 1 hin1 _ hfrag1 0 Nat.one_pos
  have h2 : m 1 = (0, 1) := hm 0 2 hin2 _ hfrag2 1 (by decide)
  rw [h1] at h2
  exact absurd (Prod.mk.inj h2).2 (by omega)

theorem Unit.cap_of_wellPlaced {r : Raid0} (h : r.Unit) {total : Nat} (hw : 2 ≤ r.word)
    (hplaced : r.WellPlaced total) : r.nDisks * total ≤ 2 ^ r.word := by
  obtain ⟨m, -, hm, hinj, -⟩ := hplaced
  have hword : 2 ^ 2 ≤ 2 ^ r.word := Nat.pow_le_pow_right (by omega) hw
  by_contra hcap
  have hin1 : r.InRange total 0 1 := ⟨by omega, by omega, by omega⟩
  have hin2 : r.InRange total (2 ^ r.word - 1) 2 := ⟨by omega, by omega, by omega⟩
  have hfrag1 : (⟨(r.loc 0).1, (r.loc 0).2, 1, 0⟩ : Frag) ∈ r.frags 1 0 1 0 :=
    (h.mem_frags 0 (by omega) _).mpr ⟨0, by omega, rfl⟩
  have hfrag2 : (⟨(r.loc 0).1, (r.loc 0).2, 1, 1⟩ : Frag) ∈ r.frags 2 (2 ^ r.word - 1) 2 0 := by
    rw [frags, if_neg (by omega), h.fragCount (by omega)]
    refine List.mem_cons_of_mem _ ?_
    rw [show 2 ^ r.word - 1 + 1 = 2 ^ r.word by omega, Nat.mod_self]
    exact (h.mem_frags 1 (by omega) _).mpr ⟨0, by omega, rfl⟩
  have h1 : m 0 = r.loc 0 := hm 0 1 hin1 _ hfrag1 0 Nat.one_pos
  have h2 : m (2 ^ r.word - 1 + 1) = r.loc 0 := hm _ 2 hin2 _ hfrag2 0 Nat.one_pos
  have heq := hinj 0 (by omega) (2 ^ r.word - 1 + 1) (by omega) (h1.trans h2.symm)
  omega

end Raid0

theorem diskRiad0Create_some {word : Nat} {pblkd : List BlkDev} {stStripe : Nat} {r : Raid0}
    (h : diskRiad0Create word pblkd stStripe = some r) :
    (pblkd.length = 2 ∨ pblkd.length = 4) ∧ ∃ size shift, diskRaidCheck pblkd = some size ∧
      stripeShiftOf word size.bytesPerSector stStripe = some shift ∧
      r.word = word ∧ r.nDisks = pblkd.length ∧
      r.diskShift = (if pblkd.length = 2 then 1 else 2) ∧
      r.diskMask = (if pblkd.length = 2 then 1 else 3) ∧
      r.stripeShift = shift ∧ r.stripeMask = 2 ^ shift - 1 := by
  rw [diskRiad0Create] at h
  split at h
  · cases h
  · next hok =>
    obtain ⟨size, hsize, h⟩ := Option.bind_eq_some_iff.mp h
    obtain ⟨shift, hshift, h⟩ := Option.bind_eq_some_iff.mp h
    have hr := Option.some.inj h
    subst hr
    exact ⟨by omega, size, shift, hsize, hshift, rfl, rfl, rfl, rfl, rfl, rfl⟩

theorem stripeShiftOf_eq_zero {word bytes stStripe shift : Nat}
    (h : stripeShiftOf word bytes stStripe = some shift) :
    shift = 0 ↔ stStripe = bytes % 2 ^ word := by
  have hfirst : ∀ l : List Nat, ((0 :: l).find? fun i => stStripe = (bytes <<< i) % 2 ^ word) =
      if stStripe = bytes % 2 ^ word then some 0
      else l.find? fun i => stStripe = (bytes <<< i) % 2 ^ word := by
    intro l
    rw [List.find?_cons]
    by_cases hs : stStripe = bytes % 2 ^ word <;> simp [hs]
  have hrange : List.range 16 = 0 :: (List.range 15).map Nat.succ := List.range_succ_eq_map
  rw [stripeShiftOf, hrange, hfirst] at h
  split at h
  · next hs => exact iff_of_true (Option.some.inj h).symm hs
  · next hs =>
    refine iff_of_false ?_ hs
    obtain ⟨i, -, rfl⟩ := List.mem_map.mp (List.mem_of_find?_eq_some h)
    exact Nat.succ_ne_zero i

/-- An accepted array is correct exactly if its stripes are single sectors (and an `ULONG` counts
its sectors). -/
theorem raid0_correct_iff {word : Nat} (hword : word = 32 ∨ word = 64) {pblkd : List BlkDev}
    {stStripe : Nat} {r : Raid0} (hcreate : diskRiad0Create word pblkd stStripe = some r)
    {size : RaidSize} (hsize : diskRaidCheck pblkd = some size) :
    r.Correct size.totalSector ↔
      stStripe = size.bytesPerSector % 2 ^ word ∧ pblkd.length * size.totalSector ≤ 2 ^ word ∨
        size.totalSector = 0 := by
  obtain ⟨hlen, size', shift, hsize', hshift, hw, hn, hds, hdm, hss, hsm⟩ :=
    diskRiad0Create_some hcreate
  rw [hsize] at hsize'
  obtain rfl := Option.some.inj hsize'
  have hw2 : 2 ≤ r.word := by omega
  have hunit : shift = 0 → r.Unit := by
    rintro rfl
    refine ⟨hss, hsm, ?_⟩
    rcases hlen with hlen | hlen
    · exact Or.inl ⟨hn.trans hlen, by rw [hds, if_pos hlen], by rw [hdm, if_pos hlen]⟩
    · exact Or.inr ⟨hn.trans hlen, by rw [hds, if_neg (by omega)], by rw [hdm, if_neg (by omega)]⟩
  rw [← stripeShiftOf_eq_zero hshift, ← hn, ← hw]
  constructor
  · rintro ⟨hplaced, -⟩
    by_cases htotal : size.totalSector = 0
    · exact Or.inr htotal
    refine Or.inl ?_
    have hzero : shift = 0 := by
      by_contra hne
      have hpos : 2 * 1 ≤ r.nDisks * size.totalSector := Nat.mul_le_mul (by omega) (by omega)
      refine Raid0.not_wellPlaced_of_stripe hw2 (hss ▸ hne) (by rw [hsm, hss]) ?_ hpos hplaced
      rw [hds]
      split <;> omega
    exact ⟨hzero, (hunit hzero).cap_of_wellPlaced hw2 hplaced⟩
  · rintro (⟨hzero, hcap⟩ | htotal)
    · refine ⟨(hunit hzero).wellPlaced hcap, ?_⟩
      intro α ds reqs hin
      exact (hunit hzero).served hcap _ ds reqs (fun s v hv => nomatch hv) hin
    · -- no sector is in range: every request is empty
      rw [htotal]
      refine ⟨⟨fun _ => (0, 0), ?_, ?_, ?_, ?_⟩, ?_⟩
      · intro start cnt hin o ho
        have := hin.2.2
        omega
      · intro start cnt hin f hf
        have hcnt : cnt = 0 := by have := hin.2.2; omega
        rw [hcnt] at hf
        cases hf
      · intro s hs
        omega
      · intro s hs
        omega
      · intro α ds reqs
        generalize (fun _ => none : Nat → Option α) = last
        intro hin
        induction reqs generalizing last ds with
        | nil => trivial
        | cons q reqs ih =>
          have hrest := fun last ds => ih ds last fun q hq => hin q (List.mem_cons_of_mem _ hq)
          cases q with
          | write start cnt buf =>
            have hr : r.InRange 0 start cnt := hin _ List.mem_cons_self
            have hcnt : cnt = 0 := by have := hr.2.2; omega
            subst hcnt
            exact ⟨rfl, hrest _ _⟩
          | read start cnt =>
            have hr : r.InRange 0 start cnt := hin _ List.mem_cons_self
            have hcnt : cnt = 0 := by have := hr.2.2; omega
            subst hcnt
            exact ⟨fun buf => ⟨rfl, fun o ho => absurd ho (Nat.not_lt_zero o)⟩, hrest _ _⟩

/-! Two disks of eight sectors: of 32 KiB, one sector a stripe, and of 512 bytes, 64 of them. -/

def largeSectorDisk : BlkDev := ⟨32768, 8, 32768, none, none, none⟩
def smallSectorDisk : BlkDev := ⟨512, 128, 512, none, none, none⟩

def largeRaid0 : Raid0 :=
  { word := 64, nDisks := 2, diskShift := 1, diskMask := 1, stripeShift := 0, stripeMask := 0
    nSector := 16 }

theorem raid0_correct_large :
    diskRiad0Create 64 [largeSectorDisk, largeSectorDisk] 32768 = some largeRaid0 ∧
      largeRaid0.Correct 8 := by
  have hcreate : diskRiad0Create 64 [largeSectorDisk, largeSectorDisk] 32768 = some largeRaid0 := by
    decide +kernel
  have hsize : diskRaidCheck [largeSectorDisk, largeSectorDisk] = some ⟨32768, 32768, 8⟩ := rfl
  exact ⟨hcreate, (raid0_correct_iff (Or.inr rfl) hcreate hsize).mpr
    (Or.inl ⟨by decide, by decide⟩)⟩

def smallRaid0 : Raid0 :=
  { word := 64, nDisks := 2, diskShift := 1, diskMask := 1, stripeShift := 6, stripeMask := 63
    nSector := 256 }

/-- Sector 1 written alone lands on sector 0: a read of sector 0 then returns it. -/
theorem raid0_sector_one_overwrites_zero :
    diskRiad0Create 64 [smallSectorDisk, smallSectorDisk] 32768 = some smallRaid0 ∧
      ¬ smallRaid0.Correct 128 := by
  refine ⟨by decide +kernel, ?_⟩
  rintro ⟨-, hserved⟩
  have h := hserved Nat (fun _ _ => 0)
    [.write 0 1 (fun _ => 7), .write 1 1 (fun _ => 9), .read 0 1] ?_
  · obtain ⟨-, -, hread, -⟩ := h
    have hseven := (hread fun _ => 0).2 0 Nat.one_pos 7 (by decide)
    exact absurd hseven (by decide)
  · intro q hq
    simp only [List.mem_cons, List.not_mem_nil, or_false] at hq
    rcases hq with rfl | rfl | rfl
    all_goals exact ⟨by decide, by decide, by decide⟩

namespace Raid1

variable {α : Type}

inductive Outcome (α : Type) where
  | ok
  | fail (garbage : Nat → α)

def Outcome.isOk : Outcome α → Bool
  | .ok => true
  | .fail _ => false

def raid1DevWrt (buf : Nat → α) (ulStartSector ulSectorCount : Nat)
    (out : Nat → Outcome α) : (left i : Nat) → Ret → Disks α → Ret × Disks α
  | 0, _, iRet, ds => (iRet, ds)
  | left + 1, i, iRet, ds =>
    match out i with
    | .ok => raid1DevWrt buf ulStartSector ulSectorCount out left (i + 1) iRet
        (ds.put i ulStartSector ulSectorCount buf)
    | .fail garbage => raid1DevWrt buf ulStartSector ulSectorCount out left (i + 1) .pxError
        (ds.put i ulStartSector ulSectorCount garbage)

def raid1DevRd (ds : Disks α) (ulStartSector ulSectorCount : Nat) (out : Nat → Outcome α) :
    (left i : Nat) → Ret → (Nat → α) → Ret × (Nat → α)
  | 0, _, iRet, buf => (iRet, buf)
  | left + 1, i, iRet, buf =>
    match out i with
    | .ok => (iRet, patch buf 0 ulSectorCount fun j => ds i (ulStartSector + j))
    | .fail garbage => raid1DevRd ds ulStartSector ulSectorCount out left (i + 1) .pxError
        (patch buf 0 ulSectorCount garbage)

inductive Req (α : Type) where
  | write (start cnt : Nat) (buf : Nat → α) (out : Nat → Outcome α)
  | read (start cnt : Nat) (buf : Nat → α) (out : Nat → Outcome α)

/-- The requests on `n` mirrors are served as they should: a read succeeds exactly if one mirror
answers, with the data of the last write of each sector if that write succeeded (`last`). -/
def Served (n : Nat) : (Nat → Option α) → Disks α → List (Req α) → Prop
  | _, _, [] => True
  | last, ds, .write start cnt buf out :: reqs =>
    Served n
      (patch last start cnt fun i =>
        if (raid1DevWrt buf start cnt out n 0 .errorNone ds).1 = .errorNone then some (buf i) else none)
      (raid1DevWrt buf start cnt out n 0 .errorNone ds).2 reqs
  | last, ds, .read start cnt buf out :: reqs =>
    ((raid1DevRd ds start cnt out n 0 .errorNone buf).1 = .errorNone ↔
        ∃ i < n, (out i).isOk = true) ∧
      ((∃ i < n, (out i).isOk = true) → ∀ o < cnt, ∀ v, last (start + o) = some v →
        (raid1DevRd ds start cnt out n 0 .errorNone buf).2 o = v) ∧
      Served n last ds reqs

def Req.FirstOrNone (n : Nat) : Req α → Prop
  | .write _ _ _ _ => True
  | .read _ _ _ out => (out 0).isOk = true ∨ ∀ i < n, (out i).isOk = false

theorem raid1DevWrt_spec (buf : Nat → α) (start cnt : Nat) (out : Nat → Outcome α)
    (left i : Nat) (iRet : Ret) (ds : Disks α) :
    (∀ d s, ¬ (start ≤ s ∧ s < start + cnt) →
      (raid1DevWrt buf start cnt out left i iRet ds).2 d s = ds d s) ∧
    (∀ d < i, (raid1DevWrt buf start cnt out left i iRet ds).2 d = ds d) ∧
    ((raid1DevWrt buf start cnt out left i iRet ds).1 = .errorNone →
      iRet = .errorNone ∧ ∀ d, i ≤ d → d < i + left → ∀ s, start ≤ s → s < start + cnt →
        (raid1DevWrt buf start cnt out left i iRet ds).2 d s = buf (s - start)) := by
  induction left generalizing i iRet ds with
  | zero => exact ⟨fun _ _ _ => rfl, fun _ _ => rfl, fun h => ⟨h, fun d h1 h2 => by omega⟩⟩
  | succ left ih =>
    rw [raid1DevWrt]
    cases out i with
    | ok =>
      obtain ⟨hframe, hbefore, hok⟩ := ih (i + 1) iRet (ds.put i start cnt buf)
      refine ⟨?_, ?_, ?_⟩
      · intro d s hs
        refine (hframe d s hs).trans ?_
        rw [Disks.put, if_neg fun h => hs h.2]
      · intro d hd
        refine (hbefore d (by omega)).trans ?_
        funext s
        rw [Disks.put, if_neg fun h => by omega]
      · intro hret
        obtain ⟨hiret, hall⟩ := hok hret
        refine ⟨hiret, ?_⟩
        intro d hlo hhi s h1 h2
        by_cases hd : d = i
        · subst hd
          refine (congrFun (hbefore d (Nat.lt_succ_self d)) s).trans ?_
          rw [Disks.put, if_pos ⟨rfl, h1, h2⟩]
        · exact hall d (by omega) (by omega) s h1 h2
    | fail garbage =>
      obtain ⟨hframe, hbefore, hok⟩ := ih (i + 1) .pxError (ds.put i start cnt garbage)
      refine ⟨?_, ?_, fun hret => nomatch (hok hret).1⟩
      · intro d s hs
        refine (hframe d s hs).trans ?_
        rw [Disks.put, if_neg fun h => hs h.2]
      · intro d hd
        refine (hbefore d (by omega)).trans ?_
        funext s
        rw [Disks.put, if_neg fun h => by omega]

theorem raid1DevRd_none (ds : Disks α) (start cnt : Nat) {out : Nat → Outcome α} {left i : Nat}
    (h : ∀ j < left, (out (i + j)).isOk = false) (iRet : Ret) (buf : Nat → α) (hleft : 0 < left) :
    (raid1DevRd ds start cnt out left i iRet buf).1 = .pxError := by
  induction left generalizing i iRet buf with
  | zero => omega
  | succ left ih =>
    have hi : (out i).isOk = false := h 0 (by omega)
    rw [raid1DevRd]
    cases hout : out i with
    | ok => rw [hout] at hi; cases hi
    | fail garbage =>
      cases left with
      | zero => rfl
      | succ left =>
        refine ih (i := i + 1) ?_ _ _ (Nat.succ_pos left)
        intro j hj
        rw [Nat.add_assoc, Nat.add_comm 1 j]
        exact h (j + 1) (by omega)

theorem raid1DevRd_first (ds : Disks α) (start cnt : Nat) {out : Nat → Outcome α} {left i j : Nat}
    (hj : j < left) (hok : (out (i + j)).isOk = true) (h : ∀ l < j, (out (i + l)).isOk = false)
    (iRet : Ret) (buf : Nat → α) :
    (raid1DevRd ds start cnt out left i iRet buf).1 = (if j = 0 then iRet else .pxError) ∧
      ∀ o < cnt, (raid1DevRd ds start cnt out left i iRet buf).2 o = ds (i + j) (start + o) := by
  induction left generalizing i j iRet buf with
  | zero => omega
  | succ left ih =>
    rw [raid1DevRd]
    cases j with
    | zero =>
      rw [Nat.add_zero] at hok
      cases hout : out i with
      | fail garbage => rw [hout] at hok; cases hok
      | ok => exact ⟨rfl, fun o ho => if_pos ⟨Nat.zero_le o, by omega⟩⟩
    | succ j =>
      have hi : (out i).isOk = false := h 0 (by omega)
      cases hout : out i with
      | ok => rw [hout] at hi; cases hi
      | fail garbage =>
        have hnext := ih (i := i + 1) (j := j) (by omega)
          (by rw [Nat.add_assoc, Nat.add_comm 1 j]; exact hok)
          (fun l hl => by rw [Nat.add_assoc, Nat.add_comm 1 l]; exact h (l + 1) (by omega))
          .pxError (patch buf 0 cnt garbage)
        rw [Nat.add_assoc, Nat.add_comm 1 j] at hnext
        refine ⟨?_, hnext.2⟩
        rw [if_neg (Nat.succ_ne_zero j)]
        exact hnext.1.trans (by split <;> rfl)

def Holds (n : Nat) (last : Nat → Option α) (ds : Disks α) : Prop :=
  ∀ s v, last s = some v → ∀ d < n, ds d s = v

theorem Holds.write {n : Nat} {last : Nat → Option α} {ds : Disks α} (h : Holds n last ds)
    (start cnt : Nat) (buf : Nat → α) (out : Nat → Outcome α) :
    Holds n
      (patch last start cnt fun i =>
        if (raid1DevWrt buf start cnt out n 0 .errorNone ds).1 = .errorNone then some (buf i) else none)
      (raid1DevWrt buf start cnt out n 0 .errorNone ds).2 := by
  obtain ⟨hframe, -, hok⟩ := raid1DevWrt_spec buf start cnt out n 0 .errorNone ds
  intro s v hv d hd
  rw [patch] at hv
  split at hv
  · next hs =>
    split at hv
    · next hret =>
      rw [(hok hret).2 d (Nat.zero_le d) (by omega) s hs.1 hs.2]
      exact Option.some.inj hv
    · cases hv
  · next hs =>
    rw [hframe d s hs]
    exact h s v hv d hd

theorem read_spec {n : Nat} (hn : 0 < n) {last : Nat → Option α} {ds : Disks α}
    (h : Holds n last ds) (start cnt : Nat) (buf : Nat → α) (out : Nat → Outcome α) :
    (((raid1DevRd ds start cnt out n 0 .errorNone buf).1 = .errorNone ↔
        ∃ i < n, (out i).isOk = true) ↔ (Req.read start cnt buf out).FirstOrNone n) ∧
      ((∃ i < n, (out i).isOk = true) → ∀ o < cnt, ∀ v, last (start + o) = some v →
        (raid1DevRd ds start cnt out n 0 .errorNone buf).2 o = v) := by
  by_cases hany : ∃ i < n, (out i).isOk = true
  · -- the first mirror that answers
    let j := Nat.find hany
    obtain ⟨hj, hok⟩ : j < n ∧ (out j).isOk = true := Nat.find_spec hany
    have hfail : ∀ l < j, (out l).isOk = false := fun l hl => by
      have hmin := Nat.find_min hany hl
      rcases hcase : (out l).isOk with _ | _
      · rfl
      · exact absurd ⟨by omega, hcase⟩ hmin
    obtain ⟨hret, hdata⟩ := raid1DevRd_first ds start cnt (i := 0) (j := j) hj
      (by rwa [Nat.zero_add]) (fun l hl => by rw [Nat.zero_add]; exact hfail l hl) .errorNone buf
    refine ⟨?_, ?_⟩
    · rw [hret]
      by_cases hzero : j = 0
      · rw [if_pos hzero]
        exact iff_of_true (iff_of_true rfl hany) (Or.inl (hzero ▸ hok))
      · rw [if_neg hzero]
        refine iff_of_false (fun hiff => nomatch hiff.mpr hany) ?_
        rintro (h0 | hnone)
        · have := hfail 0 (by omega)
          rw [h0] at this
          cases this
        · rw [hnone j hj] at hok
          cases hok
    · intro _ o ho v hv
      rw [hdata o ho, Nat.zero_add]
      exact h _ v hv j hj
  · have hnone : ∀ i < n, (out i).isOk = false := by
      intro i hi
      rcases hcase : (out i).isOk with _ | _
      · rfl
      · exact absurd ⟨i, hi, hcase⟩ hany
    have hret := raid1DevRd_none ds start cnt (i := 0)
      (fun j hj => by rw [Nat.zero_add]; exact hnone j hj) .errorNone buf hn
    refine ⟨?_, fun hex => absurd hex hany⟩
    rw [hret]
    exact iff_of_true (iff_of_false (fun h => nomatch h) hany) (Or.inr hnone)

theorem served_iff {n : Nat} (hn : 0 < n) {last : Nat → Option α} {ds : Disks α}
    (h : Holds n last ds) (reqs : List (Req α)) :
    Served n last ds reqs ↔ ∀ q ∈ reqs, q.FirstOrNone n := by
  induction reqs generalizing last ds with
  | nil => exact iff_of_true trivial fun q hq => nomatch hq
  | cons q reqs ih =>
    rw [List.forall_mem_cons]
    cases q with
    | write start cnt buf out =>
      rw [Served, ih (h.write start cnt buf out)]
      exact (and_iff_right trivial).symm
    | read start cnt buf out =>
      obtain ⟨hcode, hdata⟩ := read_spec hn h start cnt buf out
      rw [Served, ih h, hcode]
      exact and_congr_right fun _ => and_iff_right hdata

end Raid1

/-- The requests on two or four mirrors are served as they should exactly if the first mirror
answers every read that any mirror answers. -/
theorem raid1_served_iff {α : Type} {n : Nat} (hn : n = 2 ∨ n = 4) (ds : Disks α)
    (reqs : List (Raid1.Req α)) :
    Raid1.Served n (fun _ => none) ds reqs ↔ ∀ q ∈ reqs, q.FirstOrNone n :=
  Raid1.served_iff (by omega) (fun _ _ h => by cases h) reqs

def degradedReads (bad : Nat) : List (Raid1.Req Nat) :=
  [.write 5 2 (fun i => 10 + i) (fun _ => .ok),
    .read 5 2 (fun _ => 0) (fun i => if i = bad then .fail fun _ => 0 else .ok)]

theorem raid1_served_second_bad :
    Raid1.Served 2 (fun _ => none) (fun _ _ => 0) (degradedReads 1) := by
  refine (raid1_served_iff (Or.inl rfl) _ _).mpr ?_
  intro q hq
  simp only [degradedReads, List.mem_cons, List.not_mem_nil, or_false] at hq
  rcases hq with rfl | rfl
  · trivial
  · exact Or.inl (by decide)

/-- The read of which the second mirror answers returns `PX_ERROR`. -/
theorem raid1_degraded_read_fails :
    ¬ Raid1.Served 2 (fun _ => none) (fun _ _ => 0) (degradedReads 0) := by
  rintro ⟨hcode, -⟩
  have hok : ∃ i < 2, ((fun i => if i = 0 then .fail fun _ => 0 else .ok :
      Nat → Raid1.Outcome Nat) i).isOk = true := ⟨1, by decide, by decide⟩
  exact absurd (hcode.mpr hok) (by decide)

end SylixOS.DiskRaid
