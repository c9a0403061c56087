import SylixOS.VmmMunmap

/-! The length of an area that `API_VmmMmap` creates over a regular file, and what `API_VmmMsync`
writes back, with words of 64 bits and ranges of less than `2 ^ 31` pages, which its `INT` counts. -/

namespace SylixOS.VmmMmap

/-- The arguments of `API_VmmMmap` with a null address and the descriptor of a regular file. -/
structure MmapArg where
  stLen : ℕ
  sharedChange : Bool
  privateChange : Bool
  prealloc : Bool
  writable : Bool
  ulFlag : ℕ
  iFd : ℤ
  off : ℤ

/-- The regular file behind the descriptor. `fails` stands for `iosFdGetFlag`, `fstat64`, the
allocation of the control block and the driver's `mmap`. -/
structure RegFile where
  rdonly : Bool
  fails : Bool
  st_size : ℤ

def RegFile.validLen (r : RegFile) (off : ℤ) : ℕ := roundUp ((off + r.st_size) % 2 ^ 64).toNat

def RegFile.mapLen (r : RegFile) (off : ℤ) (stLen : ℕ) : ℕ :=
  if r.st_size < (off + stLen) % 2 ^ 64 then
    if r.st_size = 0 ∧ r.validLen off = 0 then pageSize else r.validLen off
  else stLen

def mmapNew (malloc : ℕ → Option ℕ) (s : List Mapn) (a : MmapArg) (stLen : ℕ) (r : RegFile) :
    Option (Mapn × List Mapn) :=
  if r.fails = true ∨ a.sharedChange = true ∧ a.writable = true ∧ r.rdonly = true then none
  else if r.st_size < a.off then none
  else
    (malloc (r.mapLen a.off stLen)).map fun pvAddr =>
      let m : Mapn :=
        { pvAddr
          stLen := r.mapLen a.off stLen
          ulFlag := a.ulFlag
          iFd := a.iFd
          reg := true
          off := a.off
          offFSize := r.st_size
          shared := a.sharedChange
          prealloc := a.prealloc }
      (m, mapnLink m s)

def vmmMmap (malloc : ℕ → Option ℕ) (s : List Mapn) (a : MmapArg) (r : RegFile) :
    Option (Mapn × List Mapn) :=
  if a.sharedChange = true ∧ a.privateChange = true then none
  else if ¬(pageSize : ℤ) ∣ a.off ∨ a.stLen = 0 then none
  else mmapNew malloc s a (roundUp a.stLen) r

abbrev File := ℤ → Option UInt8

/-- The pages as the processor sees them: what `API_VmmGetFlag` tells of `LW_VMM_FLAG_WRITABLE`, if
there is a page, and the bytes in memory. -/
structure Vm where
  getFlag : ℕ → Option Bool
  mem : ℕ → UInt8
  pwriteOk : ℤ → Bool

def pwrite (w : Vm) (ulAddr stLen : ℕ) (off : ℤ) (f : File) : Option File :=
  if w.pwriteOk off then
    some fun x => if off ≤ x ∧ x < off + stLen then some (w.mem (ulAddr + (x - off).toNat)) else f x
  else none

/-- One page of the write loop in `API_VmmMsync`, or what is left behind the whole pages. -/
def msyncPage (w : Vm) (ulAddr stLen : ℕ) (off : ℤ) (f : File) : Option File :=
  if w.getFlag ulAddr = some true then pwrite w ulAddr stLen off f else some f

def msyncPages (w : Vm) : ℕ → ℕ → ℤ → File → Option File
  | 0, _, _, f => some f
  | n + 1, ulAddr, off, f =>
    (msyncPage w ulAddr pageSize off f).bind (msyncPages w n (ulAddr + pageSize) (off + pageSize))

def Mapn.offAt (m : Mapn) (x : ℕ) : ℤ := m.off + ((x : ℤ) - m.pvAddr)

def Mapn.stWrite (m : Mapn) (pvAddr stLen : ℕ) : ℕ :=
  min ((m.offFSize - m.offAt pvAddr) % 2 ^ 64).toNat stLen

def Mapn.writeBack (m : Mapn) (w : Vm) (pvAddr stLen : ℕ) (f : File) : Option File :=
  let ulPageNum := m.stWrite pvAddr stLen / pageSize
  let stExcess := m.stWrite pvAddr stLen % pageSize
  (msyncPages w ulPageNum pvAddr (m.offAt pvAddr) f).bind fun f =>
    if stExcess = 0 then some f
    else msyncPage w (pvAddr + ulPageNum * pageSize) stExcess
      (m.offAt pvAddr + (ulPageNum * pageSize : ℕ)) f

/-- `API_VmmMsync` without invalidation; it yields the file where it returns `ERROR_NONE`. -/
def vmmMsync (w : Vm) (s : List Mapn) (pvAddr stLen : ℕ) (f : File) : Option File :=
  if ¬pageSize ∣ pvAddr ∨ stLen = 0 then none
  else
    match mapnFindCur s pvAddr with
    | none => none
    | some m =>
      if m.reg = false then some f
      else if m.pvAddr + m.stLen < pvAddr + stLen then none
      else if m.shared then m.writeBack w pvAddr stLen f
      else some f

def Vm.Writable (w : Vm) (y : ℕ) : Prop := w.getFlag (y / pageSize * pageSize) = some true

instance (w : Vm) (y : ℕ) : Decidable (w.Writable y) := inferInstanceAs (Decidable (_ = _))

structure Wrote (w : Vm) (pvAddr stLen : ℕ) (off : ℤ) (f f' : File) : Prop where
  own : ∀ i < stLen, f' (off + i) =
    if w.Writable (pvAddr + i) then some (w.mem (pvAddr + i)) else f (off + i)
  others : ∀ x, x < off ∨ off + stLen ≤ x → f' x = f x

variable {w : Vm} {f f' g : File} {s s' : List Mapn} {m : Mapn} {p n c : ℕ} {o : ℤ}

theorem Wrote.then (h : Wrote w p c o f g) (h' : Wrote w (p + c) n (o + c) g f') :
    Wrote w p (c + n) o f f' := by
  refine ⟨fun i hi => ?_, fun x hx => ?_⟩
  · rcases Nat.lt_or_ge i c with hlt | hge
    · rw [h'.others _ (by omega), h.own i hlt]
    · obtain ⟨j, rfl⟩ := Nat.exists_eq_add_of_le hge
      have hoff : o + ((c + j : ℕ) : ℤ) = o + c + j := by omega
      rw [hoff, h'.own j (by omega), ← Nat.add_assoc, h.others _ (by omega)]
  · rw [h'.others x (by omega), h.others x (by omega)]

theorem msyncPage_wrote (hp : pageSize ∣ p) (hn : n ≤ pageSize)
    (h : msyncPage w p n o f = some f') : Wrote w p n o f f' := by
  have hpage : ∀ i < n, (p + i) / pageSize * pageSize = p := by
    intro i hi
    unfold pageSize at *
    omega
  unfold msyncPage pwrite at h
  split_ifs at h with hflag hok
  · obtain rfl := Option.some.inj h
    refine ⟨fun i hi => ?_, fun x hx => if_neg (by omega)⟩
    have hwritable : w.Writable (p + i) := by rwa [Vm.Writable, hpage i hi]
    have haddr : (o + (i : ℤ) - o).toNat = i := by omega
    rw [if_pos (by omega), if_pos hwritable, haddr]
  · obtain rfl := Option.some.inj h
    refine ⟨fun i hi => (if_neg ?_).symm, fun x _ => rfl⟩
    rwa [Vm.Writable, hpage i hi]

theorem msyncPages_wrote (hp : pageSize ∣ p) (h : msyncPages w n p o f = some f') :
    Wrote w p (n * pageSize) o f f' := by
  induction n generalizing p o f with
  | zero =>
    obtain rfl := Option.some.inj h
    exact ⟨fun i hi => absurd hi (by omega), fun _ _ => rfl⟩
  | succ n ih =>
    obtain ⟨g, hfirst, hrest⟩ := Option.bind_eq_some_iff.mp h
    rw [Nat.succ_mul, Nat.add_comm]
    exact (msyncPage_wrote hp le_rfl hfirst).then (ih (Nat.dvd_add hp (Nat.dvd_refl _)) hrest)

theorem Mapn.writeBack_wrote (hp : pageSize ∣ p) (h : m.writeBack w p n f = some f') :
    Wrote w p (m.stWrite p n) (m.offAt p) f f' := by
  obtain ⟨g, hpages, hexcess⟩ := Option.bind_eq_some_iff.mp h
  have hwhole := msyncPages_wrote hp hpages
  have hsum : m.stWrite p n / pageSize * pageSize + m.stWrite p n % pageSize = m.stWrite p n :=
    Nat.div_add_mod' _ _
  split_ifs at hexcess with hzero
  · obtain rfl := Option.some.inj hexcess
    rwa [← hsum, hzero, Nat.add_zero]
  · rw [← hsum]
    exact hwhole.then (msyncPage_wrote (Nat.dvd_add hp (Nat.dvd_mul_left _ _))
      (Nat.mod_lt _ (by decide)).le hexcess)

structure Mallocs (malloc : ℕ → Option ℕ) (s : List Mapn) : Prop where
  aligned : ∀ {n addr}, malloc n = some addr → pageSize ∣ addr
  pos : ∀ {n addr}, malloc n = some addr → 0 < n
  space : ∀ {n addr}, malloc n = some addr → addr + n ≤ 2 ^ 62
  apart : ∀ {n addr}, malloc n = some addr → ∀ k ∈ s,
    k.pvAddr + k.stLen ≤ addr ∨ addr + n ≤ k.pvAddr

/-- What the area and a write-back promise; `modified` are the addresses written through it. -/
structure Synced (m : Mapn) (w : Vm) (modified : ℕ → Prop) (size : ℤ) (p n : ℕ) (f' : File) :
    Prop where
  inside : ∀ x, size ≤ x → f' x = none
  stored : m.shared = true → ∀ y, p ≤ y → y < p + n → modified y → m.offAt y < size →
    f' (m.offAt y) = some (w.mem y)

theorem mem_mapnLink {k : Mapn} : k ∈ mapnLink m s ↔ k = m ∨ k ∈ s := by
  induction s with
  | nil => exact List.mem_cons
  | cons l s ih =>
    rw [mapnLink]
    split_ifs
    · exact List.mem_cons
    · rw [List.mem_cons, List.mem_cons, ih]
      exact or_left_comm

theorem Granular.link (h : Granular s) (hm : m.Ok)
    (hfree : ∀ k ∈ s, k.pvAddr + k.stLen ≤ m.pvAddr ∨ m.pvAddr + m.stLen ≤ k.pvAddr) :
    Granular (mapnLink m s) := by
  refine ⟨?_, fun k hk => (mem_mapnLink.mp hk).elim (fun he => he ▸ hm) (h.ok k)⟩
  have hsorted := h.sorted
  have hpos : ∀ k ∈ s, 0 < k.stLen := fun k hk => (h.ok k hk).pos
  clear h
  induction s with
  | nil => exact List.pairwise_singleton _ _
  | cons l s ih =>
    have hl := hfree l List.mem_cons_self
    have hbehind : ∀ k ∈ s, l.pvAddr + l.stLen ≤ k.pvAddr := fun k hk =>
      List.rel_of_pairwise_cons hsorted hk
    rw [mapnLink]
    split_ifs with hlt
    · have hlow : m.pvAddr + m.stLen ≤ l.pvAddr := by
        have hlpos := hpos l List.mem_cons_self
        omega
      refine List.pairwise_cons.mpr ⟨fun k hk => ?_, hsorted⟩
      rcases List.mem_cons.mp hk with rfl | hk
      · exact hlow
      · exact hlow.trans ((Nat.le_add_right _ _).trans (hbehind k hk))
    · refine List.pairwise_cons.mpr ⟨fun k hk => ?_, ih
        (fun k hk => hfree k (List.mem_cons_of_mem l hk)) (List.pairwise_cons.mp hsorted).2
        fun k hk => hpos k (List.mem_cons_of_mem l hk)⟩
      rcases mem_mapnLink.mp hk with rfl | hk
      · have hmpos := hm.pos
        omega
      · exact hbehind k hk

theorem roundUp_dvd (n : ℕ) : pageSize ∣ roundUp n := Nat.dvd_mul_left _ _

theorem roundUp_lt (n : ℕ) : roundUp n < 2 ^ 64 :=
  (Nat.div_mul_le_self _ _).trans_lt (Nat.mod_lt _ (by decide))

theorem RegFile.mapLen_dvd (r : RegFile) (o : ℤ) (hn : pageSize ∣ n) :
    pageSize ∣ r.mapLen o n := by
  unfold mapLen
  split_ifs
  · exact Nat.dvd_refl _
  · exact roundUp_dvd _
  · exact hn

theorem RegFile.mapLen_le_iff (r : RegFile) (ho : (pageSize : ℤ) ∣ o) (hoff : -2 ^ 63 ≤ o)
    (hle : o ≤ r.st_size) (hsize : 0 ≤ r.st_size) (hsize' : r.st_size < 2 ^ 63) (hn : pageSize ∣ n)
    (hpos : 0 < r.mapLen o n) (hspace : r.mapLen o n ≤ 2 ^ 62) (hn' : n < 2 ^ 64) :
    r.mapLen o n ≤ n ↔ (0 ≤ o + n ∧ o + n ≤ r.st_size) ∨ o + r.st_size ≤ n := by
  unfold mapLen validLen roundUp at *
  unfold pageSize at *
  split_ifs at * <;> omega

structure Mapn.Ready (m : Mapn) (w : Vm) (modified : ℕ → Prop) (p n : ℕ) (f : File) : Prop where
  ends : m.offFSize < m.offAt p → ∀ y, p ≤ y → y < p + n → ¬w.Writable y
  kept : ∀ y, p ≤ y → y < p + n → modified y → m.offAt y < m.offFSize →
    w.Writable y ∨ f (m.offAt y) = some (w.mem y)

theorem Mapn.synced_iff {modified : ℕ → Prop} (hshared : m.shared = true) (hp : pageSize ∣ p)
    (hfar : m.offAt p - m.offFSize ≤ 2 ^ 62) (hnear : m.offFSize - m.offAt p < 2 ^ 64)
    (hn : n ≤ 2 ^ 62) (hfile : ∀ x, m.offFSize ≤ x → f x = none)
    (h : m.writeBack w p n f = some f') :
    Synced m w modified m.offFSize p n f' ↔ m.Ready w modified p n f := by
  have hwrote := m.writeBack_wrote hp h
  have hat : ∀ y, p ≤ y → m.offAt y = m.offAt p + ((y - p : ℕ) : ℤ) := by
    intro y hy
    unfold offAt
    omega
  have hown : ∀ y, p ≤ y → y < p + m.stWrite p n →
      f' (m.offAt y) = if w.Writable y then some (w.mem y) else f (m.offAt y) := by
    intro y hy hlt
    have hi := hwrote.own (y - p) (by omega)
    rwa [Nat.add_sub_of_le hy, ← hat y hy] at hi
  rcases lt_or_ge m.offFSize (m.offAt p) with hbehind | hwithin
  · have hall : m.stWrite p n = n := by
      unfold stWrite
      omega
    rw [hall] at hwrote hown
    refine ⟨fun hs => ⟨fun _ y hy hlt hw => ?_, fun y hy _ _ hin => ?_⟩,
      fun hr => ⟨fun x hx => ?_, fun _ y hy _ _ hin => ?_⟩⟩
    · have hnone := hs.inside (m.offAt y) (by rw [hat y hy]; omega)
      rw [hown y hy hlt, if_pos hw] at hnone
      cases hnone
    · rw [hat y hy] at hin
      omega
    · by_cases hout : x < m.offAt p ∨ m.offAt p + n ≤ x
      · rw [hwrote.others x hout, hfile x hx]
      · have hx' : m.offAt p + (((x - m.offAt p).toNat : ℕ) : ℤ) = x := by omega
        have hown := hwrote.own (x - m.offAt p).toNat (by omega)
        rw [hx', if_neg (hr.ends hbehind _ (Nat.le_add_right _ _) (by omega))] at hown
        rw [hown, hfile x hx]
    · rw [hat y hy] at hin
      omega
  · have hmin : (m.stWrite p n : ℤ) = min (m.offFSize - m.offAt p) n := by
      unfold stWrite
      omega
    refine ⟨fun hs => ⟨fun hlt => absurd hlt hwithin.not_gt, fun y hy hlt hmod hin => ?_⟩,
      fun hr => ⟨fun x hx => ?_, fun _ y hy hlt hmod hin => ?_⟩⟩
    · have hstored := hs.stored hshared y hy hlt hmod hin
      rw [hat y hy] at hin
      rw [hown y hy (by omega)] at hstored
      by_cases hw : w.Writable y
      · exact Or.inl hw
      · exact Or.inr (by rwa [if_neg hw] at hstored)
    · rw [hwrote.others x (by omega), hfile x hx]
    · have hkept := hr.kept y hy hlt hmod hin
      rw [hat y hy] at hin
      rw [hown y hy (by omega)]
      by_cases hw : w.Writable y
      · rw [if_pos hw]
      · rw [if_neg hw]
        exact hkept.resolve_left hw

theorem vmmMmap_some {malloc : ℕ → Option ℕ} {a : MmapArg} {r : RegFile}
    (h : vmmMmap malloc s a r = some (m, s')) :
    (pageSize : ℤ) ∣ a.off ∧ a.off ≤ r.st_size ∧ malloc m.stLen = some m.pvAddr ∧
      m.stLen = r.mapLen a.off (roundUp a.stLen) ∧ m.reg = true ∧ m.off = a.off ∧
      m.offFSize = r.st_size ∧ m.shared = a.sharedChange ∧ s' = mapnLink m s := by
  unfold vmmMmap at h
  split_ifs at h with hboth harg
  unfold mmapNew at h
  split_ifs at h with hfails hoff
  obtain ⟨pvAddr, hmalloc, heq⟩ := Option.map_eq_some_iff.mp h
  cases heq
  exact ⟨by_contra fun hno => harg (Or.inl hno), Int.not_lt.mp hoff, hmalloc, rfl, rfl, rfl, rfl,
    rfl, rfl⟩

/-- The area and the write-back keep their promise exactly where the range ends in the file, or
file and offset together are not longer than it; and, in a shared area, no page behind the file
is writable, and what was modified on a page that is not writable is in the file already. -/
theorem mmap_msync_iff {malloc : ℕ → Option ℕ} {a : MmapArg} {r : RegFile} {modified : ℕ → Prop}
    (hs : Granular s) (hmalloc : Mallocs malloc s) (hoff : -2 ^ 63 ≤ a.off) (hsize : 0 ≤ r.st_size)
    (hsize' : r.st_size < 2 ^ 63) (hfile : ∀ x, r.st_size ≤ x → f x = none)
    (hmap : vmmMmap malloc s a r = some (m, s')) (hge : m.pvAddr ≤ p)
    (hle : p + n ≤ m.pvAddr + m.stLen) (hsync : vmmMsync w s' p n f = some f') :
    (m.stLen ≤ roundUp a.stLen ∧ Synced m w modified r.st_size p n f') ↔
      ((0 ≤ a.off + roundUp a.stLen ∧ a.off + roundUp a.stLen ≤ r.st_size) ∨
        a.off + r.st_size ≤ roundUp a.stLen) ∧
      (a.sharedChange = true → m.Ready w modified p n f) := by
  obtain ⟨hdvd, hin, hgrant, hlen, hreg, hoffEq, hsizeEq, hshared, rfl⟩ := vmmMmap_some hmap
  have hspace := hmalloc.space hgrant
  have hpos := hmalloc.pos hgrant
  have hok : m.Ok :=
    ⟨hmalloc.aligned hgrant, hlen ▸ r.mapLen_dvd a.off (roundUp_dvd _), hpos, by omega⟩
  unfold vmmMsync at hsync
  split_ifs at hsync with hp
  rw [not_or, not_not] at hp
  have hfind : mapnFindCur (mapnLink m s) p = some m :=
    (hs.link hok (hmalloc.apart hgrant)).mapnFindCur_eq (mem_mapnLink.mpr (Or.inl rfl))
      ⟨hge, by omega⟩
  rw [hfind] at hsync
  simp only [hreg, Bool.true_eq_false, if_false, if_neg (Nat.not_lt.mpr hle)] at hsync
  refine and_congr ?_ ?_
  · rw [hlen] at hpos hspace ⊢
    exact r.mapLen_le_iff hdvd hoff hin hsize hsize' (roundUp_dvd _) hpos (by omega) (roundUp_lt _)
  · rw [← hsizeEq] at hfile ⊢
    cases hsh : m.shared with
    | false =>
      rw [hsh] at hsync hshared
      obtain rfl := Option.some.inj hsync
      exact iff_of_true ⟨hfile, fun hno => absurd (hsh.symm.trans hno) Bool.false_ne_true⟩
        fun hyes => absurd (hshared.trans hyes) Bool.false_ne_true
    | true =>
      rw [hsh, if_pos rfl] at hsync
      rw [← hshared, hsh, forall_prop_of_true rfl]
      refine Mapn.synced_iff hsh hp.1 ?_ ?_ (by omega) hfile hsync
      · unfold Mapn.offAt
        omega
      · unfold Mapn.offAt
        omega

def zeroFile : File := fun x => if 0 ≤ x ∧ x < 8192 then some 0 else none

def zeroStat : RegFile := ⟨false, false, 8192⟩

def freshMalloc (n : ℕ) : Option ℕ := if 0 < n ∧ n ≤ 2 ^ 61 then some 65536 else none

def twoPagesAt (off : ℤ) : MmapArg := ⟨8192, true, false, false, true, 7, 3, off⟩

theorem freshMalloc_mallocs : Mallocs freshMalloc [] := by
  have hcases : ∀ {n addr}, freshMalloc n = some addr → 0 < n ∧ n ≤ 2 ^ 61 ∧ 65536 = addr := by
    intro n addr h
    unfold freshMalloc at h
    split_ifs at h with hn
    exact ⟨hn.1, hn.2, Option.some.inj h⟩
  refine ⟨fun h => ?_, fun h => (hcases h).1, fun h => ?_, fun _ k hk => absurd hk List.not_mem_nil⟩
  · rw [← (hcases h).2.2]
    decide
  · have hbound := hcases h
    omega

def firstWritable : Vm := ⟨fun y => some (decide (y = 65536)), fun _ => 7, fun _ => true⟩

def wholeArea : Mapn := ⟨65536, 8192, 7, 3, true, 0, 8192, true, false⟩

theorem wholeArea_mapped :
    vmmMmap freshMalloc [] (twoPagesAt 0) zeroStat = some (wholeArea, [wholeArea]) := rfl

def halfWritten : File := fun x => if 0 ≤ x ∧ x < 4096 then some 7 else zeroFile x

theorem zeroFile_behind (x : ℤ) (hx : zeroStat.st_size ≤ x) : zeroFile x = none :=
  if_neg fun h => by
    change 8192 ≤ x at hx
    omega

/-- The whole file is mapped from its begin, and one byte of the second page was modified. -/
theorem mmap_msync_whole :
    vmmMsync firstWritable [wholeArea] 65536 8192 zeroFile = some halfWritten ∧
      ((wholeArea.stLen ≤ roundUp (twoPagesAt 0).stLen ∧
          Synced wholeArea firstWritable (· = 69632) zeroStat.st_size 65536 8192 halfWritten) ↔
        ((0 ≤ (twoPagesAt 0).off + roundUp (twoPagesAt 0).stLen ∧
            (twoPagesAt 0).off + roundUp (twoPagesAt 0).stLen ≤ zeroStat.st_size) ∨
          (twoPagesAt 0).off + zeroStat.st_size ≤ roundUp (twoPagesAt 0).stLen) ∧
        ((twoPagesAt 0).sharedChange = true →
          wholeArea.Ready firstWritable (· = 69632) 65536 8192 zeroFile)) :=
  ⟨rfl, mmap_msync_iff ⟨List.Pairwise.nil, fun _ hk => absurd hk List.not_mem_nil⟩
    freshMalloc_mallocs (by decide) (by decide) (by decide) zeroFile_behind wholeArea_mapped
    (by decide) (by decide) rfl⟩

/-- The same two pages from the second page of the file on: the area has three pages, and the write
back of the third one puts a page behind the file. -/
theorem mmap_longer_than_file :
    ∃ m s' f', vmmMmap freshMalloc [] (twoPagesAt 4096) zeroStat = some (m, s') ∧
      roundUp (twoPagesAt 4096).stLen < m.stLen ∧
      vmmMsync ⟨fun _ => some true, fun _ => 7, fun _ => true⟩ s' 73728 4096 zeroFile = some f' ∧
      ∃ x, zeroStat.st_size ≤ x ∧ f' x = some 7 :=
  ⟨_, _, _, rfl, by decide, rfl, 12288, by decide, rfl⟩

end SylixOS.VmmMmap
