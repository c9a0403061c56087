import SylixOS.RamFsDesc
import SylixOS.RamFsVolume

/-! Where a file of the memory file system ends: for `stat` it is `RAMN_stSize`, for a read
`RAMN_stVSize`, and for an append `FDNODE_oftSize`. -/

namespace SylixOS.RamFs
open SylixOS.ByteBuffer

variable (c : Config)

/-- A read returns the bytes in front of the end that `stat` reports, and an append starts there. -/
def EndsRight (σ : OpenFile) : FdOp → Prop
  | .read iFd stMaxBytes => ∀ e, σ.fdentry iFd = some e → ∀ bytes,
    (ramFsRead c σ iFd stMaxBytes).1 = some bytes →
      bytes.length = min stMaxBytes (σ.file.size - e.oftPtr)
  | .pread iFd stMaxBytes oftPos => ∀ bytes,
    (ramFsPRead c σ iFd stMaxBytes oftPos).1 = some bytes →
      bytes.length = min stMaxBytes (σ.file.size - oftPos.toNat)
  | .write iFd _ _ _ => ∀ e node, σ.fdentry iFd = some e → σ.fdnode = some node →
    e.iFlag.accMode ≠ .rdonly → e.iFlag.append = true → sizeT c (writePtr e node) = σ.file.size
  | _ => True

/-- What the calls made so far have left: the farthest offset sought since the file was last cut,
and the size behind the last call that wrote anything (or cut the file as it was opened, or opened
it first). -/
structure History where
  sought : Nat
  noted : Nat

def History.wrote (h : History) (r : Option Nat × OpenFile) : History :=
  if 0 < ssizeT c (r.1.getD 0) then { h with noted := r.2.file.size } else h

def History.cut (h : History) (σ σ' : OpenFile) : History :=
  if σ'.file.size < σ.file.size then { h with sought := 0 } else h

def History.next (h : History) (σ : OpenFile) : FdOp → History
  | .open iFd iFlags =>
    if σ.fdentry iFd ≠ none then h
    else if iFlags.trunc ∧ iFlags.accMode ≠ .rdonly then ⟨0, 0⟩
    else if σ.fdnode.isNone then { h with noted := σ.file.size }
    else h
  | .lseek iFd oftOffset iWhence =>
    match lseek c σ iFd oftOffset iWhence with
    | some (oft, _) => { h with sought := max h.sought oft }
    | none => h
  | .write iFd src stNBytes alloc => h.wrote c (ramFsWrite c σ iFd src stNBytes alloc)
  | .pwrite iFd src stNBytes oftPos alloc => h.wrote c (ramFsPWrite c σ iFd src stNBytes oftPos alloc)
  | .ftruncate iFd oftLength => h.cut σ (ramFsTruncate c σ iFd oftLength)
  | _ => h

def ReadFits (sought size n oft : Nat) : Prop :=
  n = 0 ∨
    if oft < 2 ^ c.word then oft + n ≤ size ∨ sought ≤ max size oft
    else size ≤ sizeT c oft ∧ sought ≤ sizeT c oft

instance (sought size n oft : Nat) : Decidable (ReadFits c sought size n oft) :=
  inferInstanceAs (Decidable (_ ∨ _))

def Fits (h : History) (σ : OpenFile) : FdOp → Prop
  | .read iFd stMaxBytes => ∀ e, σ.fdentry iFd = some e → e.iFlag.accMode ≠ .wronly →
    ReadFits c h.sought σ.file.size stMaxBytes e.oftPtr
  | .pread iFd stMaxBytes oftPos => ∀ e, σ.fdentry iFd = some e →
    ¬(e.iFlag.accMode = .wronly ∨ oftPos < 0) →
      ReadFits c h.sought σ.file.size stMaxBytes oftPos.toNat
  | .write iFd _ _ _ => ∀ e node, σ.fdentry iFd = some e → σ.fdnode = some node →
    e.iFlag.accMode ≠ .rdonly → e.iFlag.append = true → h.noted = σ.file.size
  | _ => True

def EachFdOp (P : History → OpenFile → FdOp → Prop) :
    History → OpenFile → List FdOp → Prop
  | _, _, [] => True
  | h, σ, op :: ops => P h σ op ∧ EachFdOp P (h.next c σ op) (fdStep c σ op) ops

structure Tracks (h : History) (σ : OpenFile) : Prop where
  vSize : σ.file.vSize = max σ.file.size h.sought
  size : σ.file.size < 2 ^ c.word
  noted : h.noted < 2 ^ c.word
  node : ∀ node, σ.fdnode = some node → node.oftSize = h.noted

variable {c} {h : History} {σ : OpenFile}

theorem readFits_iff {sought size n oft : Nat} (hsize : size < 2 ^ c.word) :
    min n (max size sought - sizeT c oft) = min n (size - oft) ↔
      ReadFits c sought size n oft := by
  rw [ReadFits]
  split
  · rename_i hlt
    rw [sizeT, Nat.mod_eq_of_lt hlt]
    omega
  · omega

namespace Tracks

theorem same (tracks : Tracks c h σ) {σ' : OpenFile} (hfile : SameSizes σ.file σ'.file)
    (hnode : σ'.fdnode = σ.fdnode) : Tracks c h σ' := by
  refine ⟨?_, ?_, tracks.noted, ?_⟩
  · rw [hfile.1, hfile.2]
    exact tracks.vSize
  · rw [hfile.1]
    exact tracks.size
  · rw [hnode]
    exact tracks.node

theorem grow (tracks : Tracks c h σ) {f : File} {m : Nat} (hm : m < 2 ^ c.word)
    (hfile : SameSizes (σ.file.grow m) f) : f.vSize = max f.size h.sought ∧ f.size < 2 ^ c.word := by
  have hsize := tracks.size
  have hvsize := tracks.vSize
  rw [hfile.1, hfile.2, File.grow]
  split
  · dsimp only
    split <;> omega
  · exact ⟨hvsize, hsize⟩

theorem open_ (tracks : Tracks c h σ) (iFd : Nat) (iFlags : OpenFlag) :
    Tracks c (h.next c σ (.open iFd iFlags)) (ramFsOpenFile c σ iFd iFlags) := by
  rw [History.next, ramFsOpenFile]
  by_cases hused : σ.fdentry iFd ≠ none
  · rw [if_pos hused, if_pos hused]
    exact tracks
  · rw [if_neg hused, if_neg hused]
    by_cases htrunc : iFlags.trunc = true ∧ iFlags.accMode ≠ .rdonly
    · have hpos : 0 < 2 ^ c.word := Nat.two_pow_pos c.word
      rw [if_pos htrunc]
      dsimp only
      rw [if_pos htrunc]
      refine ⟨rfl, hpos, hpos, ?_⟩
      rintro node hnode
      exact Option.some.inj hnode ▸ rfl
    · rw [if_neg htrunc]
      dsimp only
      rw [if_neg htrunc]
      cases hnode : σ.fdnode with
      | none =>
        refine ⟨tracks.vSize, tracks.size, tracks.size, ?_⟩
        rintro node hnode
        exact Option.some.inj hnode ▸ rfl
      | some node =>
        refine ⟨tracks.vSize, tracks.size, tracks.noted, ?_⟩
        rintro node' hnode'
        exact Option.some.inj hnode' ▸ tracks.node node hnode

theorem close (tracks : Tracks c h σ) (iFd : Nat) : Tracks c h (ramFsClose σ iFd) := by
  rw [ramFsClose]
  split
  · rename_i e node _ hnode
    refine ⟨tracks.vSize, tracks.size, tracks.noted, ?_⟩
    intro node' hnode'
    dsimp only at hnode'
    split at hnode'
    · exact nomatch hnode'
    · exact Option.some.inj hnode' ▸ tracks.node node hnode
  · exact tracks

theorem lseek (tracks : Tracks c h σ) (iFd : Nat) (oftOffset : Int) (iWhence : Whence) :
    Tracks c (h.next c σ (.lseek iFd oftOffset iWhence))
      (fdStep c σ (.lseek iFd oftOffset iWhence)) := by
  rw [History.next, fdStep]
  cases hseek : RamFs.lseek c σ iFd oftOffset iWhence with
  | none => exact tracks
  | some r =>
    obtain ⟨oft, σ'⟩ := r
    obtain ⟨hsize, hvsize, hnode⟩ := lseek_sizes hseek
    refine ⟨?_, hsize ▸ tracks.size, tracks.noted, hnode ▸ tracks.node⟩
    dsimp only [Option.map_some, Option.getD_some]
    rw [hvsize, hsize, tracks.vSize, Nat.max_assoc]

theorem read (tracks : Tracks c h σ) (iFd n : Nat) : Tracks c h (ramFsRead c σ iFd n).2 := by
  rw [ramFsRead]
  split
  · exact tracks
  · rename_i e _
    have hsizes := (ramRead_length (c := c) (s := σ.store) σ.file n (sizeT c e.oftPtr)).2
    split
    · exact tracks
    · split
      · dsimp only
        split
        · exact tracks.same hsizes rfl
        · exact tracks.same hsizes rfl
      · exact tracks

theorem pread (tracks : Tracks c h σ) (iFd n : Nat) (oftPos : Int) :
    Tracks c h (ramFsPRead c σ iFd n oftPos).2 := by
  rw [ramFsPRead]
  split
  · exact tracks
  · have hsizes := (ramRead_length (c := c) (s := σ.store) σ.file n (sizeT c oftPos.toNat)).2
    split
    · exact tracks
    · split
      · exact tracks.same hsizes rfl
      · exact tracks

theorem written (tracks : Tracks c h σ) {σ' : OpenFile} {r m : Nat} (hm : m < 2 ^ c.word)
    (hfile : SameSizes (σ.file.grow m) σ'.file) (hr : 0 < ssizeT c r)
    (hnode : ∀ node, σ'.fdnode = some node → node.oftSize = σ'.file.size) :
    Tracks c (h.wrote c (some r, σ')) σ' := by
  obtain ⟨hvsize, hsize⟩ := tracks.grow hm hfile
  have hwrote : h.wrote c (some r, σ') = { h with noted := σ'.file.size } := if_pos hr
  rw [hwrote]
  exact ⟨hvsize, hsize, hsize, hnode⟩

theorem unwritten (tracks : Tracks c h σ) {σ' : OpenFile} {r : Option Nat} {m : Nat}
    (hm : m < 2 ^ c.word) (hfile : SameSizes (σ.file.grow m) σ'.file)
    (hr : ¬0 < ssizeT c (r.getD 0)) (hnode : σ'.fdnode = σ.fdnode) :
    Tracks c (h.wrote c (r, σ')) σ' := by
  obtain ⟨hvsize, hsize⟩ := tracks.grow hm hfile
  have hwrote : h.wrote c (r, σ') = h := if_neg hr
  rw [hwrote]
  exact ⟨hvsize, hsize, tracks.noted, hnode ▸ tracks.node⟩

theorem not_pos_zero : ¬0 < ssizeT c 0 := by
  rw [ssizeT]
  simp

theorem idle (tracks : Tracks c h σ) {σ' : OpenFile} {r : Option Nat}
    (hfile : σ'.file = σ.file) (hr : r.getD 0 = 0) (hnode : σ'.fdnode = σ.fdnode) :
    Tracks c (h.wrote c (r, σ')) σ' := by
  have hgrow : SameSizes (σ.file.grow 0) σ'.file := by
    rw [hfile, File.grow, if_neg (Nat.not_lt_zero _)]
    exact SameSizes.refl _
  refine tracks.unwritten (Nat.two_pow_pos c.word) hgrow ?_ hnode
  rw [hr]
  exact not_pos_zero

theorem write (tracks : Tracks c h σ) (iFd : Nat) (src : Bytes) (n : Nat) (alloc : Alloc) :
    Tracks c (h.wrote c (ramFsWrite c σ iFd src n alloc)) (ramFsWrite c σ iFd src n alloc).2 := by
  rw [ramFsWrite]
  split
  · rename_i e node _ _
    split
    · exact tracks.idle rfl rfl rfl
    · dsimp only
      split
      · obtain ⟨m, hm, hsizes⟩ := ramWrite_sizes (c := c) σ.store σ.file src n
          (sizeT c (writePtr e node)) alloc
        split
        · rename_i hwrote
          refine tracks.written hm hsizes hwrote ?_
          intro node' hnode'
          exact Option.some.inj hnode' ▸ rfl
        · rename_i hwrote
          exact tracks.unwritten hm hsizes hwrote rfl
      · exact tracks.idle rfl rfl rfl
  · exact tracks.idle rfl rfl rfl

theorem pwrite (tracks : Tracks c h σ) (iFd : Nat) (src : Bytes) (n : Nat) (oftPos : Int)
    (alloc : Alloc) :
    Tracks c (h.wrote c (ramFsPWrite c σ iFd src n oftPos alloc))
      (ramFsPWrite c σ iFd src n oftPos alloc).2 := by
  rw [ramFsPWrite]
  split
  · split
    · exact tracks.idle rfl rfl rfl
    · dsimp only
      split
      · obtain ⟨m, hm, hsizes⟩ := ramWrite_sizes (c := c) σ.store σ.file src n
          (sizeT c oftPos.toNat) alloc
        split
        · rename_i hwrote
          refine tracks.written hm hsizes hwrote ?_
          intro node' hnode'
          exact Option.some.inj hnode' ▸ rfl
        · rename_i hwrote
          exact tracks.unwritten hm hsizes hwrote rfl
      · exact tracks.idle rfl rfl rfl
  · exact tracks.idle rfl rfl rfl

theorem uncut (tracks : Tracks c h σ) : Tracks c (h.cut σ σ) σ := by
  have hcut : h.cut σ σ = h := if_neg (Nat.lt_irrefl _)
  rwa [hcut]

theorem ftruncate (tracks : Tracks c h σ) (iFd : Nat) (oftLength : Int) :
    Tracks c (h.next c σ (.ftruncate iFd oftLength)) (ramFsTruncate c σ iFd oftLength) := by
  have hlt : sizeT c oftLength.toNat < 2 ^ c.word := Nat.mod_lt _ (Nat.two_pow_pos c.word)
  rw [History.next, ramFsTruncate]
  split
  · exact tracks.uncut
  · split
    · exact tracks.uncut
    · dsimp only
      split
      · rename_i hgrow
        obtain ⟨hvsize, hsize⟩ := tracks.grow hlt (SameSizes.refl _)
        have hle : ¬(σ.file.grow (sizeT c oftLength.toNat)).size < σ.file.size := by
          rw [File.grow, if_pos hgrow]
          exact Nat.not_lt_of_gt hgrow
        have hcut : h.cut σ { σ with file := σ.file.grow (sizeT c oftLength.toNat) } = h :=
          if_neg hle
        rw [ramIncrease, hcut]
        exact ⟨hvsize, hsize, tracks.noted, tracks.node⟩
      · split
        · rename_i hless
          have hcut : h.cut σ { σ with
              store := (ramTruncate c σ.store σ.file (sizeT c oftLength.toNat)).1
              file := (ramTruncate c σ.store σ.file (sizeT c oftLength.toNat)).2 } =
                { h with sought := 0 } :=
            if_pos hless
          rw [hcut]
          exact ⟨(Nat.max_zero _).symm, hlt, tracks.noted, tracks.node⟩
        · exact tracks.uncut

theorem step (tracks : Tracks c h σ) (op : FdOp) :
    Tracks c (h.next c σ op) (fdStep c σ op) := by
  cases op with
  | «open» iFd iFlags => exact tracks.open_ iFd iFlags
  | close iFd => exact tracks.close iFd
  | lseek iFd oftOffset iWhence => exact tracks.lseek iFd oftOffset iWhence
  | read iFd n => exact tracks.read iFd n
  | pread iFd n oftPos => exact tracks.pread iFd n oftPos
  | write iFd src n alloc => exact tracks.write iFd src n alloc
  | pwrite iFd src n oftPos alloc => exact tracks.pwrite iFd src n oftPos alloc
  | ftruncate iFd oftLength => exact tracks.ftruncate iFd oftLength

theorem read_length (tracks : Tracks c h σ) (n oft : Nat) :
    (ramRead c σ.store σ.file n (sizeT c oft)).1.length = min n (σ.file.size - oft) ↔
      ReadFits c h.sought σ.file.size n oft := by
  rw [(ramRead_length σ.file n (sizeT c oft)).1, tracks.vSize]
  exact readFits_iff tracks.size

theorem read_iff (tracks : Tracks c h σ) (iFd n : Nat) :
    EndsRight c σ (.read iFd n) ↔ Fits c h σ (.read iFd n) := by
  rw [EndsRight, Fits]
  refine forall₂_congr fun e he => ?_
  rw [ramFsRead, he]
  dsimp only
  by_cases hmode : e.iFlag.accMode = .wronly
  · rw [if_pos hmode]
    exact ⟨fun _ hne => absurd hmode hne, fun _ _ hnone => nomatch hnone⟩
  · rw [if_neg hmode]
    by_cases hn : n ≠ 0
    · rw [if_pos hn, ← tracks.read_length]
      exact ⟨fun hall _ => hall _ rfl, fun hfits bytes hbytes =>
        Option.some.inj hbytes ▸ hfits hmode⟩
    · obtain rfl := not_not.mp hn
      refine ⟨fun _ _ => Or.inl rfl, fun _ bytes hbytes => ?_⟩
      rw [if_neg hn] at hbytes
      rw [← Option.some.inj hbytes, Nat.zero_min]
      rfl

theorem pread_iff (tracks : Tracks c h σ) (iFd n : Nat) (oftPos : Int) :
    EndsRight c σ (.pread iFd n oftPos) ↔ Fits c h σ (.pread iFd n oftPos) := by
  rw [EndsRight, Fits, ramFsPRead]
  cases he : σ.fdentry iFd with
  | none => exact ⟨fun _ _ hnone => (nomatch hnone), fun _ _ hnone => (nomatch hnone)⟩
  | some e =>
    dsimp only
    by_cases hmode : e.iFlag.accMode = .wronly ∨ oftPos < 0
    · rw [if_pos hmode]
      refine ⟨fun _ e' he' hne => absurd hmode ?_, fun _ _ hnone => nomatch hnone⟩
      exact Option.some.inj he' ▸ hne
    · rw [if_neg hmode]
      by_cases hn : n ≠ 0
      · rw [if_pos hn, ← tracks.read_length]
        exact ⟨fun hall _ _ _ => hall _ rfl, fun hfits bytes hbytes =>
          Option.some.inj hbytes ▸ hfits e rfl hmode⟩
      · obtain rfl := not_not.mp hn
        refine ⟨fun _ _ _ _ => Or.inl rfl, fun _ bytes hbytes => ?_⟩
        rw [if_neg hn] at hbytes
        rw [← Option.some.inj hbytes, Nat.zero_min]
        rfl

theorem write_iff (tracks : Tracks c h σ) (iFd : Nat) (src : Bytes) (n : Nat) (alloc : Alloc) :
    EndsRight c σ (.write iFd src n alloc) ↔ Fits c h σ (.write iFd src n alloc) := by
  rw [EndsRight, Fits]
  refine forall₂_congr fun e node => forall₂_congr fun he hnode => ?_
  refine forall₂_congr fun hmode happend => ?_
  rw [writePtr, if_pos happend, tracks.node node hnode, sizeT, Nat.mod_eq_of_lt tracks.noted]

theorem endsRight_iff (tracks : Tracks c h σ) (op : FdOp) : EndsRight c σ op ↔ Fits c h σ op := by
  cases op with
  | read iFd n => exact tracks.read_iff iFd n
  | pread iFd n oftPos => exact tracks.pread_iff iFd n oftPos
  | write iFd src n alloc => exact tracks.write_iff iFd src n alloc
  | _ => exact Iff.rfl

theorem run_iff (tracks : Tracks c h σ) (ops : List FdOp) :
    EachFdOp c (fun _ => EndsRight c) h σ ops ↔ EachFdOp c (Fits c) h σ ops := by
  induction ops generalizing h σ with
  | nil => exact Iff.rfl
  | cons op ops ih => exact and_congr (tracks.endsRight_iff op) (ih (tracks.step op))

end Tracks

/-- From a new file on, reads return the bytes in front of the end and appends start there
exactly if no read sees that an offset behind the end was sought, and no append comes when the
size is not what the last write left. -/
theorem ramFs_ends_iff (c : Config) (s : Store) (ops : List FdOp) :
    EachFdOp c (fun _ => EndsRight c) ⟨0, 0⟩ (newFile s) ops ↔
      EachFdOp c (Fits c) ⟨0, 0⟩ (newFile s) ops := by
  have hpos : 0 < 2 ^ c.word := Nat.two_pow_pos c.word
  have hclosed : ∀ node, (newFile s).fdnode = some node → node.oftSize = 0 := by
    intro node hnode
    exact nomatch (show none = some node from hnode)
  exact Tracks.run_iff ⟨rfl, hpos, hpos, hclosed⟩ ops

def appending : OpenFlag := ⟨.rdwr, true, false⟩

/-- An empty file is read after a seek to offset 10, or appended to after it has been extended to
ten bytes. -/
theorem ramFs_misses_end :
    ¬EachFdOp pageConfig (fun _ => EndsRight pageConfig) ⟨0, 0⟩ (newFile (mounted 100).store)
        [.open 3 appending, .lseek 3 10 .seekSet, .pread 3 4 0] ∧
      ¬EachFdOp pageConfig (fun _ => EndsRight pageConfig) ⟨0, 0⟩ (newFile (mounted 100).store)
        [.open 3 appending, .ftruncate 3 10, .write 3 (fun _ => 1) 1 fun _ => none] := by
  constructor
  · rintro ⟨-, -, hread, -⟩
    exact absurd (hread (List.replicate 4 0) rfl) (by decide)
  · rintro ⟨-, -, happend, -⟩
    exact absurd (happend ⟨0, appending⟩ ⟨0, 1⟩ rfl rfl (by decide) rfl) (by decide)

end SylixOS.RamFs
