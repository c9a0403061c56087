import SylixOS.RamFsLib

/-! The descriptors of one regular file of the memory file system (`ramFs.c`, with the checks that
`ioSys.c` and `lseek` make before). -/

namespace SylixOS.RamFs
open SylixOS.ByteBuffer SylixOS.LinkedChain

inductive AccMode where
  | rdonly
  | wronly
  | rdwr
  deriving DecidableEq, Repr

structure OpenFlag where
  accMode : AccMode
  append : Bool
  trunc : Bool

structure FdEntry where
  oftPtr : Nat
  iFlag : OpenFlag

structure FdNode where
  oftSize : Nat
  ulRef : Nat

structure OpenFile where
  store : Store
  file : File
  fdnode : Option FdNode
  fdentry : Nat → Option FdEntry

inductive Whence where
  | seekSet
  | seekCur
  | seekEnd

variable (c : Config) (σ : OpenFile) (iFd : Nat)

def sizeT (n : Nat) : Nat := n % 2 ^ c.word

def ssizeT (n : Nat) : Int := (n : Int).bmod (2 ^ c.word)

def OpenFile.setPtr (e : FdEntry) (oftPtr : Nat) : OpenFile :=
  { σ with fdentry := Function.update σ.fdentry iFd (some { e with oftPtr := oftPtr }) }

def ramFsOpenFile (iFlags : OpenFlag) : OpenFile :=
  if σ.fdentry iFd ≠ none then σ
  else
    let node := match σ.fdnode with
      | some node => { node with ulRef := node.ulRef + 1 }
      | none => ⟨σ.file.size, 1⟩
    let σ := { σ with fdentry := Function.update σ.fdentry iFd (some ⟨0, iFlags⟩) }
    if iFlags.trunc ∧ iFlags.accMode ≠ .rdonly then
      let cut := ramTruncate c σ.store σ.file 0
      { σ with store := cut.1, file := cut.2, fdnode := some { node with oftSize := 0 } }
    else { σ with fdnode := some node }

def ramFsClose : OpenFile :=
  match σ.fdentry iFd, σ.fdnode with
  | some _, some node =>
    { σ with
      fdentry := Function.update σ.fdentry iFd none
      fdnode := if node.ulRef - 1 = 0 then none else some { node with ulRef := node.ulRef - 1 } }
  | _, _ => σ

def File.reach (f : File) (oftOffset : Nat) : File :=
  if f.vSize < oftOffset then { f with vSize := oftOffset } else f

def ramFsSeek (e : FdEntry) (oftOffset : Nat) : Option OpenFile :=
  if 2 ^ c.word - 1 < oftOffset then none
  else some { σ.setPtr iFd e oftOffset with file := σ.file.reach (sizeT c oftOffset) }

def ramFsNRead64 (e : FdEntry) : Int :=
  (((σ.file.size + 2 ^ c.word - sizeT c e.oftPtr) % 2 ^ c.word : Nat) : Int).bmod (2 ^ 64)

def lseekOffset (e : FdEntry) (oftOffset : Int) : Whence → Int
  | .seekSet => oftOffset
  | .seekCur => oftOffset + e.oftPtr
  | .seekEnd => oftOffset + (e.oftPtr + ramFsNRead64 c σ e)

def lseek (oftOffset : Int) (iWhence : Whence) : Option (Nat × OpenFile) :=
  match σ.fdentry iFd with
  | none => none
  | some e =>
    let oftOffset := lseekOffset c σ e oftOffset iWhence
    if oftOffset < 0 then none
    else (ramFsSeek c σ iFd e oftOffset.toNat).map fun σ => (oftOffset.toNat, σ)

def ramFsRead (stMaxBytes : Nat) : Option (List UInt8) × OpenFile :=
  match σ.fdentry iFd with
  | none => (none, σ)
  | some e =>
    if e.iFlag.accMode = .wronly then (none, σ)
    else if stMaxBytes ≠ 0 then
      let r := ramRead c σ.store σ.file stMaxBytes (sizeT c e.oftPtr)
      let σ := { σ with file := r.2 }
      (some r.1,
        if 0 < ssizeT c r.1.length then σ.setPtr iFd e (e.oftPtr + r.1.length) else σ)
    else (some [], σ)

def ramFsPRead (stMaxBytes : Nat) (oftPos : Int) : Option (List UInt8) × OpenFile :=
  match σ.fdentry iFd with
  | none => (none, σ)
  | some e =>
    if e.iFlag.accMode = .wronly ∨ oftPos < 0 then (none, σ)
    else if stMaxBytes ≠ 0 then
      let r := ramRead c σ.store σ.file stMaxBytes (sizeT c oftPos.toNat)
      (some r.1, { σ with file := r.2 })
    else (some [], σ)

def writePtr (e : FdEntry) (node : FdNode) : Nat :=
  if e.iFlag.append then node.oftSize else e.oftPtr

def ramFsWrite (src : Bytes) (stNBytes : Nat) (alloc : Alloc) : Option Nat × OpenFile :=
  match σ.fdentry iFd, σ.fdnode with
  | some e, some node =>
    if e.iFlag.accMode = .rdonly then (none, σ)
    else
      let oftPtr := writePtr e node
      if stNBytes ≠ 0 then
        let r := ramWrite c σ.store σ.file src stNBytes (sizeT c oftPtr) alloc
        let σ := { σ with store := r.2.1, file := r.2.2 }
        if 0 < ssizeT c r.1 then
          (some r.1, { σ.setPtr iFd e (oftPtr + r.1) with
            fdnode := some { node with oftSize := r.2.2.size } })
        else (some r.1, σ.setPtr iFd e oftPtr)
      else (some 0, σ.setPtr iFd e oftPtr)
  | _, _ => (none, σ)

def ramFsPWrite (src : Bytes) (stNBytes : Nat) (oftPos : Int) (alloc : Alloc) :
    Option Nat × OpenFile :=
  match σ.fdentry iFd, σ.fdnode with
  | some e, some node =>
    if e.iFlag.accMode = .rdonly ∨ oftPos < 0 then (none, σ)
    else if stNBytes ≠ 0 then
      let r := ramWrite c σ.store σ.file src stNBytes (sizeT c oftPos.toNat) alloc
      let σ := { σ with store := r.2.1, file := r.2.2 }
      if 0 < ssizeT c r.1 then
        (some r.1, { σ with fdnode := some { node with oftSize := r.2.2.size } })
      else (some r.1, σ)
    else (some 0, σ)
  | _, _ => (none, σ)

def ramFsTruncate (oftSize : Int) : OpenFile :=
  match σ.fdentry iFd with
  | none => σ
  | some e =>
    if e.iFlag.accMode = .rdonly ∨ oftSize < 0 ∨ 2 ^ c.word - 1 < oftSize then σ
    else
      let stTru := sizeT c oftSize.toNat
      if σ.file.size < stTru then { σ with file := ramIncrease σ.file stTru }
      else if stTru < σ.file.size then
        let cut := ramTruncate c σ.store σ.file stTru
        { σ with store := cut.1, file := cut.2 }
      else σ

inductive FdOp where
  | open (iFd : Nat) (iFlags : OpenFlag)
  | close (iFd : Nat)
  | lseek (iFd : Nat) (oftOffset : Int) (iWhence : Whence)
  | read (iFd : Nat) (stMaxBytes : Nat)
  | pread (iFd : Nat) (stMaxBytes : Nat) (oftPos : Int)
  | write (iFd : Nat) (src : Bytes) (stNBytes : Nat) (alloc : Alloc)
  | pwrite (iFd : Nat) (src : Bytes) (stNBytes : Nat) (oftPos : Int) (alloc : Alloc)
  | ftruncate (iFd : Nat) (oftLength : Int)

def fdStep : FdOp → OpenFile
  | .open iFd iFlags => ramFsOpenFile c σ iFd iFlags
  | .close iFd => ramFsClose σ iFd
  | .lseek iFd oftOffset iWhence => ((lseek c σ iFd oftOffset iWhence).map Prod.snd).getD σ
  | .read iFd stMaxBytes => (ramFsRead c σ iFd stMaxBytes).2
  | .pread iFd stMaxBytes oftPos => (ramFsPRead c σ iFd stMaxBytes oftPos).2
  | .write iFd src stNBytes alloc => (ramFsWrite c σ iFd src stNBytes alloc).2
  | .pwrite iFd src stNBytes oftPos alloc => (ramFsPWrite c σ iFd src stNBytes oftPos alloc).2
  | .ftruncate iFd oftLength => ramFsTruncate c σ iFd oftLength

def newFile (s : Store) : OpenFile := ⟨s, emptyFile, none, fun _ => none⟩

section Sizes

variable {c} {s : Store} {f : File}

def SameSizes (f f' : File) : Prop := f'.size = f.size ∧ f'.vSize = f.vSize

theorem SameSizes.refl (f : File) : SameSizes f f := ⟨rfl, rfl⟩

theorem SameSizes.trans {f' f'' : File} (h : SameSizes f f') (h' : SameSizes f' f'') :
    SameSizes f f'' :=
  ⟨h'.1.trans h.1, h'.2.trans h.2⟩

theorem ramGetbuf_sizes (L : Links Nat) (f : File) (stOft : Nat) :
    SameSizes f (ramGetbuf c L f stOft).2 := by
  rw [ramGetbuf]
  split
  · exact SameSizes.refl f
  · dsimp only
    split
    · exact SameSizes.refl f
    · exact ⟨rfl, rfl⟩

theorem ramGetbufNext_sizes (L : Links Nat) (f : File) :
    SameSizes f (ramGetbufNext L f).2 := by
  rw [ramGetbufNext]
  split
  · exact ⟨rfl, rfl⟩
  · exact SameSizes.refl f

theorem readLoop_length (fuel : Nat) {pramb : Option Nat} {st n : Nat} (hst : st < c.bdatasize)
    (hn : n < fuel) :
    (readLoop c s fuel pramb st n f).1.length = n ∧
      SameSizes f (readLoop c s fuel pramb st n f).2 := by
  induction fuel generalizing pramb st n f with
  | zero => exact absurd hn (Nat.not_lt_zero n)
  | succ fuel ih =>
    cases pramb with
    | none => exact ⟨List.length_replicate, SameSizes.refl f⟩
    | some b =>
      rw [readLoop]
      dsimp only
      split
      · refine ⟨?_, SameSizes.refl f⟩
        rw [bytesFrom, List.length_map, List.length_range]
      · obtain ⟨hlen, hsizes⟩ := ih (n := n - (c.bdatasize - st))
          (f := (ramGetbufNext s.links f).2) (show 0 < c.bdatasize by omega) (by omega)
        refine ⟨?_, (ramGetbufNext_sizes s.links f).trans hsizes⟩
        rw [List.length_append, hlen, bytesFrom, List.length_map, List.length_range]
        omega

theorem ramRead_length (f : File) (stSize stOft : Nat) :
    (ramRead c s f stSize stOft).1.length = min stSize (f.vSize - stOft) ∧
      SameSizes f (ramRead c s f stSize stOft).2 := by
  have hpos : 0 < c.bdatasize := by
    rw [Config.bdatasize, Config.bsize]
    have hge : 2 ^ 11 ≤ 2 ^ c.shift := Nat.pow_le_pow_right (by decide) c.shift_ge
    rcases c.word_eq with h | h <;> rw [h] <;> omega
  rw [ramRead]
  split
  · rename_i hend
    rw [Nat.sub_eq_zero_of_le hend, Nat.min_zero]
    exact ⟨rfl, SameSizes.refl f⟩
  · dsimp only
    obtain ⟨hlen, hsizes⟩ := readLoop_length (s := s) (f := (ramGetbuf c s.links f stOft).2)
      (min (f.vSize - stOft) stSize + 1) (Nat.mod_lt stOft hpos) (Nat.lt_succ_self _)
    exact ⟨hlen.trans (Nat.min_comm _ _), (ramGetbuf_sizes s.links f stOft).trans hsizes⟩

theorem automemLoop_sizes (clear : Bool) (alloc : Alloc) (left i : Nat) (s : Store) (f : File) :
    SameSizes f (automemLoop clear alloc left i s f).2.2 := by
  induction left generalizing i s f with
  | zero => exact SameSizes.refl f
  | succ left ih =>
    rw [automemLoop]
    split
    · exact SameSizes.refl f
    · refine SameSizes.trans ?_ (ih _ _ _)
      exact ⟨rfl, rfl⟩

theorem ramAutomem_sizes (s : Store) (f : File) (ulNBlk stStart stLen : Nat) (alloc : Alloc) :
    SameSizes f (ramAutomem c s f ulNBlk stStart stLen alloc).2.2 := by
  rw [ramAutomem]
  split
  · exact SameSizes.refl f
  · dsimp only
    split
    · exact SameSizes.refl f
    · exact automemLoop_sizes _ _ _ _ _ _

theorem writeLoop_sizes (src : Bytes) (fuel : Nat) (pramb : Option Nat) (st n w : Nat) (s : Store)
    (f : File) : SameSizes f (writeLoop c src fuel pramb st n w s f).2.2 := by
  induction fuel generalizing pramb st n w s f with
  | zero => exact SameSizes.refl f
  | succ fuel ih =>
    cases pramb with
    | none => exact SameSizes.refl f
    | some b =>
      rw [writeLoop]
      dsimp only
      split
      · exact SameSizes.refl f
      · split
        · exact SameSizes.refl f
        · exact (ramGetbufNext_sizes s.links f).trans (ih _ _ _ _ _ _)

theorem ramWrite_sizes (s : Store) (f : File) (src : Bytes) (stNBytes stOft : Nat) (alloc : Alloc) :
    ∃ stEnd < 2 ^ c.word,
      SameSizes (f.grow stEnd) (ramWrite c s f src stNBytes stOft alloc).2.2 := by
  have hpos : 0 < 2 ^ c.word := Nat.two_pow_pos c.word
  have hmem := ramAutomem_sizes (c := c) s f
    (blocksFor c ((stOft + stNBytes) % 2 ^ c.word)) stOft stNBytes alloc
  have hgrow : ∀ {f' : File} (m : Nat), SameSizes f f' → SameSizes (f.grow m) (f'.grow m) := by
    intro f' m h
    rw [File.grow, File.grow, h.1, h.2]
    split
    · exact ⟨rfl, rfl⟩
    · exact h
  rw [ramWrite]
  dsimp only
  split
  · rename_i heq
    rw [heq] at hmem
    have hzero : f.grow 0 = f := if_neg (Nat.not_lt_zero _)
    exact ⟨0, hpos, hzero ▸ hmem⟩
  · rename_i s' f' heq
    rw [heq] at hmem
    have hbuf := hmem.trans (ramGetbuf_sizes (c := c) s'.links f' stOft)
    exact ⟨_, Nat.mod_lt _ hpos, hgrow _ (hbuf.trans (writeLoop_sizes ..))⟩

theorem reach_sizes (f : File) (oft : Nat) :
    (f.reach oft).size = f.size ∧ (f.reach oft).vSize = max f.vSize oft := by
  rw [File.reach]
  split
  · rename_i hlt
    exact ⟨rfl, (Nat.max_eq_right hlt.le).symm⟩
  · rename_i hge
    exact ⟨rfl, (Nat.max_eq_left (not_lt.mp hge)).symm⟩

theorem lseek_sizes {σ σ' : OpenFile} {iFd oft : Nat} {oftOffset : Int} {iWhence : Whence}
    (h : lseek c σ iFd oftOffset iWhence = some (oft, σ')) :
    σ'.file.size = σ.file.size ∧ σ'.file.vSize = max σ.file.vSize oft ∧
      σ'.fdnode = σ.fdnode := by
  rw [lseek] at h
  split at h
  · exact nomatch h
  · dsimp only at h
    split at h
    · exact nomatch h
    · obtain ⟨σ'', hseek, heq⟩ := Option.map_eq_some_iff.mp h
      obtain ⟨hoft, rfl⟩ := Prod.mk.inj heq
      rw [hoft, ramFsSeek] at hseek
      split at hseek
      · exact nomatch hseek
      · have hpos : 0 < 2 ^ c.word := Nat.two_pow_pos c.word
        have hmod : sizeT c oft = oft := Nat.mod_eq_of_lt (by omega)
        obtain ⟨hsize, hvsize⟩ := reach_sizes σ.file oft
        rw [hmod] at hseek
        obtain rfl := Option.some.inj hseek
        exact ⟨hsize, hvsize, rfl⟩

end Sizes

end SylixOS.RamFs
