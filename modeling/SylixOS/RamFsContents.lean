import SylixOS.RamFsVolume

/-! The contents of one file. Beside the file goes the array of bytes it
should hold: the last value written to each offset since the offset was cut
off, and zero where there is none. -/

namespace SylixOS.RamFs
open SylixOS.ByteBuffer SylixOS.LinkedChain SylixOS.ListLink

inductive FileOp where
  | write (src : Bytes) (stNBytes stOft : Nat) (alloc : Alloc)
  | truncate (stOft : Nat)
  | increase (stNewSize : Nat)
  | read (stSize stOft : Nat)
  | other (s' : Store)

variable (c : Config)

def fileStep (s : Store) (f : File) : FileOp → Store × File
  | .write src stNBytes stOft alloc => (ramWrite c s f src stNBytes stOft alloc).2
  | .truncate stOft => ramTruncate c s f stOft
  | .increase stNewSize => (s, ramIncrease f stNewSize)
  | .read stSize stOft => (s, (ramRead c s f stSize stOft).2)
  | .other s' => (s', f)

def arrayStep (s : Store) (f : File) (array : Bytes) : FileOp → Bytes
  | .write src stNBytes stOft alloc =>
    patch array stOft (ramWrite c s f src stNBytes stOft alloc).1 src
  | .truncate stOft => fun p => if p < stOft then array p else 0
  | _ => array

def FileLegal (s : Store) (f : File) : FileOp → Prop
  | .write _ stNBytes stOft alloc =>
    stNBytes < 2 ^ c.word ∧ stOft < 2 ^ c.word ∧ FreshAlloc c alloc s.live
  | .truncate stOft => stOft < 2 ^ c.word
  | .increase stNewSize => stNewSize < 2 ^ c.word
  | .read _ stOft => stOft < 2 ^ c.word
  | .other s' => StoreOk c s' ∧
    ∀ l, Chained s f l → Chained s' f l ∧ ∀ b ∈ l, s'.data b = s.data b

def ReadsRight (s : Store) (f : File) (array : Bytes) : Prop :=
  ∀ stOft < 2 ^ c.word, ∀ stSize, (ramRead c s f stSize stOft).1 =
    (List.range (min (f.size - stOft) stSize)).map fun i => array (stOft + i)

def fileByte (s : Store) (f : File) (p : Nat) : UInt8 :=
  match f.bStart.bind (walk s.links.next (p / c.bdatasize)) with
  | some b => s.data b (p % c.bdatasize)
  | none => 0

def grownByte (s : Store) (f : File) (stNBytes stOft : Nat) (alloc : Alloc) (p : Nat) : UInt8 :=
  if p < f.cnt * c.bdatasize then fileByte c s f p
  else
    match (writeNews c s f stNBytes stOft alloc)[p / c.bdatasize - f.cnt]? with
    | some new => if automemClear c f.cnt stOft stNBytes then 0 else new.2 (p % c.bdatasize)
    | none => 0

def writeSize (s : Store) (f : File) (stNBytes stOft : Nat) (alloc : Alloc) : Nat :=
  if WriteFits c s f stNBytes stOft alloc then
    max f.size (stOft + writeLen c s f stNBytes stOft alloc) else f.size

/-- The call makes no byte visible that it does not write and that is not zero: none in the part
the file grows by, and none in a new block that fills a hole. -/
def Clean (s : Store) (f : File) : FileOp → Prop
  | .write _ stNBytes stOft alloc => ∀ p < writeSize c s f stNBytes stOft alloc,
    ¬ (stOft ≤ p ∧ p < stOft + writeLen c s f stNBytes stOft alloc) →
      (f.size ≤ p ∨ f.cnt * c.bdatasize ≤ p) → grownByte c s f stNBytes stOft alloc p = 0
  | .truncate stOft => ∀ p, f.size ≤ p → p < stOft → fileByte c s f p = 0
  | .increase stNewSize => ∀ p, f.size ≤ p → p < stNewSize → fileByte c s f p = 0
  | _ => True

def FileCutOk (f : File) : FileOp → Prop
  | .truncate stOft => CutsAtEnd c f.cnt stOft
  | _ => True

variable {c} {s : Store} {f : File} {l : List Nat} {array : Bytes}

theorem fileByte_eq (h : Chained s f l) (p : Nat) : fileByte c s f p = byteAt c s l p := by
  have hblock : f.bStart.bind (walk s.links.next (p / c.bdatasize)) = l[p / c.bdatasize]? := by
    rw [h.start]
    cases l with
    | nil => rfl
    | cons a t =>
      have hwalk := walk_next (n := p / c.bdatasize) h.line (i := 0) (b := a) rfl
      rw [Nat.zero_add] at hwalk
      rw [List.head?_cons, Option.bind_some, hwalk]
  rw [fileByte, hblock]
  rfl

theorem byteAt_grown (hs : StoreOk c s) (h : Chained s f l) {n stOft : Nat} {alloc : Alloc}
    (halloc : FreshAlloc c alloc s.live) (p : Nat) :
    byteAt c (writeGrown c s f n stOft alloc) (writeLine c s f n stOft alloc l) p =
      grownByte c s f n stOft alloc p := by
  obtain ⟨-, -, hother, hnew, -, -⟩ := newBlocks_spec hs h (writeBlocks c n stOft) halloc
    (automemClear c f.cnt stOft n)
  have hpos : 0 < c.bdatasize := by
    have := c.bdatasize_ge
    omega
  have hdisj : ∀ b ∈ l, b ∉ (writeNews c s f n stOft alloc).map Prod.fst := by
    have htouch := (newBlocks_spec hs h (writeBlocks c n stOft) halloc
      (automemClear c f.cnt stOft n)).1
    have hnodup := htouch.chained.line.nodup
    intro b hb hb'
    exact (List.nodup_append.mp hnodup).2.2 b hb b hb' rfl
  rw [grownByte, h.cnt, fileByte_eq h]
  by_cases hlt : p < l.length * c.bdatasize
  · have hidx : p / c.bdatasize < l.length := (Nat.div_lt_iff_lt_mul hpos).mpr hlt
    rw [if_pos hlt, byteAt, byteAt, writeLine, List.getElem?_append_left hidx,
      List.getElem?_eq_getElem hidx]
    dsimp only
    rw [writeGrown, writeNews, hother _ (hdisj _ (List.getElem_mem hidx))]
  · have hidx : l.length ≤ p / c.bdatasize := (Nat.le_div_iff_mul_le hpos).mpr (by omega)
    rw [if_neg hlt, byteAt, writeLine, List.getElem?_append_right hidx, List.getElem?_map]
    cases hget : (writeNews c s f n stOft alloc)[p / c.bdatasize - l.length]? with
    | none => rfl
    | some new =>
      have hdata := hnew new (List.mem_of_getElem? hget)
      simp only [Option.map_some]
      rw [writeGrown, writeNews, hdata, h.cnt]
      split <;> rfl

structure Holds (c : Config) (s : Store) (f : File) (l : List Nat) (array : Bytes) : Prop where
  store : StoreOk c s
  chained : Chained s f l
  vSize : f.vSize = f.size
  size : f.size ≤ 2 ^ c.word
  below : ∀ p < f.size, byteAt c s l p = array p
  above : ∀ p, f.size ≤ p → array p = 0

theorem readsRight_iff (hs : StoreOk c s) (h : Chained s f l) (hv : f.vSize = f.size)
    (hsize : f.size ≤ 2 ^ c.word) :
    ReadsRight c s f array ↔ ∀ p < f.size, byteAt c s l p = array p := by
  constructor
  · intro hread p hp
    have hone := hread p (by omega) 1
    rw [(ramRead_spec h (by omega) (hs.length_lt h)).1, hv,
      show min (f.size - p) 1 = 1 by omega] at hone
    simpa using hone
  · intro hbytes stOft hoft stSize
    rw [(ramRead_spec h hoft (hs.length_lt h)).1, hv]
    apply List.map_congr_left
    intro i hi
    rw [List.mem_range] at hi
    exact hbytes _ (by omega)

theorem Holds.readsRight (h : Holds c s f l array) : ReadsRight c s f array :=
  (readsRight_iff h.store h.chained h.vSize h.size).mpr h.below

theorem grow_size (f : File) (hv : f.vSize = f.size) (m : Nat) :
    (f.grow m).size = max f.size m ∧ (f.grow m).vSize = (f.grow m).size := by
  rw [File.grow]
  split
  · dsimp only
    rw [if_pos (by omega)]
    omega
  · exact ⟨by omega, hv⟩

theorem Holds.resize_iff (h : Holds c s f l array) {s' : Store} {f' : File} {l' : List Nat} {m : Nat}
    (array' : Bytes) (hsize : f'.size = m)
    (hbytes : ∀ p < m, byteAt c s' l' p = byteAt c s l p)
    (harray : ∀ p < m, array' p = array p) :
    (∀ p < f'.size, byteAt c s' l' p = array' p) ↔
      ∀ p, f.size ≤ p → p < m → byteAt c s l p = 0 := by
  rw [hsize]
  constructor
  · intro hall p hp hpm
    rw [← hbytes p hpm, hall p hpm, harray p hpm, h.above p hp]
  · intro hzero p hp
    rw [hbytes p hp, harray p hp]
    by_cases hlt : p < f.size
    · exact h.below p hlt
    · rw [hzero p (by omega) hp, h.above p (by omega)]

theorem Holds.array_eq_zero (h : Holds c s f l array) {p : Nat}
    (hp : f.size ≤ p ∨ f.cnt * c.bdatasize ≤ p) : array p = 0 := by
  by_cases hlt : p < f.size
  · rw [← h.below p hlt]
    apply byteAt_behind
    rw [← h.chained.cnt]
    omega
  · exact h.above p (by omega)

structure Steps (c : Config) (s : Store) (f : File) (array : Bytes) (op : FileOp) (l' : List Nat) :
    Prop where
  store : StoreOk c (fileStep c s f op).1
  chained : Chained (fileStep c s f op).1 (fileStep c s f op).2 l'
  vSize : (fileStep c s f op).2.vSize = (fileStep c s f op).2.size
  size : (fileStep c s f op).2.size ≤ 2 ^ c.word
  above : ∀ p, (fileStep c s f op).2.size ≤ p → arrayStep c s f array op p = 0
  below_iff : (∀ p < (fileStep c s f op).2.size,
    byteAt c (fileStep c s f op).1 l' p = arrayStep c s f array op p) ↔ Clean c s f op

theorem Steps.holds {op : FileOp} {l' : List Nat} (h : Steps c s f array op l')
    (hclean : Clean c s f op) :
    Holds c (fileStep c s f op).1 (fileStep c s f op).2 l' (arrayStep c s f array op) :=
  ⟨h.store, h.chained, h.vSize, h.size, h.below_iff.mpr hclean, h.above⟩

theorem Steps.readsRight_iff {op : FileOp} {l' : List Nat} (h : Steps c s f array op l') :
    ReadsRight c (fileStep c s f op).1 (fileStep c s f op).2 (arrayStep c s f array op) ↔
      Clean c s f op :=
  (RamFs.readsRight_iff h.store h.chained h.vSize h.size).trans h.below_iff

theorem add_writeLen_lt (hs : StoreOk c s) (h : Chained s f l) {n stOft : Nat} {alloc : Alloc}
    (hoft : stOft < 2 ^ c.word) (halloc : FreshAlloc c alloc s.live) :
    stOft + writeLen c s f n stOft alloc < 2 ^ c.word := by
  obtain ⟨htouch, hstore, -⟩ := newBlocks_spec hs h (writeBlocks c n stOft) halloc
    (automemClear c f.cnt stOft n)
  have hbound := hstore.length_mul_lt htouch.chained
  rw [List.length_append, List.length_map, ← h.cnt] at hbound
  rw [writeLen]
  split
  · simp only [writeNews]
    omega
  · omega

theorem Holds.write (h : Holds c s f l array) {src : Bytes} {n stOft : Nat} {alloc : Alloc}
    (hlegal : FileLegal c s f (.write src n stOft alloc)) :
    Steps c s f array (.write src n stOft alloc) (writeLine c s f n stOft alloc l) := by
  obtain ⟨-, hoft, halloc⟩ := hlegal
  obtain ⟨hlen, htouch, hstore, hbytes, hsize, hvsize⟩ := ramWrite_spec h.store h.chained (n := n)
    hoft halloc src
  have hlt := add_writeLen_lt h.store h.chained (n := n) hoft halloc
  have hsize' : (ramWrite c s f src n stOft alloc).2.2.size = writeSize c s f n stOft alloc := by
    rw [hsize, writeSize]
    split
    · rw [Nat.mod_eq_of_lt hlt, (grow_size f h.vSize _).1]
    · rfl
  have hle : writeSize c s f n stOft alloc ≤ 2 ^ c.word := by
    have := h.size
    rw [writeSize]
    split
    · omega
    · omega
  refine ⟨hstore, htouch.chained, ?_, hsize'.le.trans hle, ?_, ?_⟩
  · dsimp only [fileStep]
    rw [hsize, hvsize]
    split
    · exact (grow_size f h.vSize _).2
    · exact h.vSize
  · intro p hp
    dsimp only [fileStep, arrayStep] at hp ⊢
    rw [hsize', writeSize] at hp
    rw [hlen, patch_outside]
    · split at hp
      · exact h.above p (by omega)
      · exact h.above p hp
    · split at hp
      · omega
      · rename_i hfits
        rw [writeLen, if_neg hfits]
        omega
  · dsimp only [fileStep, arrayStep, Clean]
    rw [hsize', hlen]
    constructor
    · intro hall p hp hout hvis
      have heq := hall p hp
      rw [hbytes p, if_neg hout, byteAt_grown h.store h.chained halloc, patch_outside _ _ (by omega),
        h.array_eq_zero hvis] at heq
      exact heq
    · intro hclean p hp
      rw [hbytes p]
      by_cases hin : stOft ≤ p ∧ p < stOft + writeLen c s f n stOft alloc
      · rw [if_pos hin, patch_inside _ _ hin.1 hin.2]
      · rw [if_neg hin, byteAt_grown h.store h.chained halloc, patch_outside _ _ (by omega)]
        by_cases hvis : f.size ≤ p ∨ f.cnt * c.bdatasize ≤ p
        · rw [hclean p hp hin hvis, h.array_eq_zero hvis]
        · rw [grownByte, if_pos (by omega), fileByte_eq h.chained, h.below p (by omega)]

theorem byteAt_take {k p : Nat} {s' : Store} (hdata : s'.data = s.data)
    (hp : p < k * c.bdatasize) : byteAt c s' (l.take k) p = byteAt c s l p := by
  have hpos : 0 < c.bdatasize := by
    have := c.bdatasize_ge
    omega
  have hidx : p / c.bdatasize < k := (Nat.div_lt_iff_lt_mul hpos).mpr hp
  rw [byteAt, byteAt, List.getElem?_take, if_pos hidx, hdata]

theorem Holds.step (h : Holds c s f l array) {op : FileOp} (hlegal : FileLegal c s f op)
    (hcut : FileCutOk c f op) : ∃ l', Steps c s f array op l' := by
  cases op with
  | write src n stOft alloc => exact ⟨_, h.write hlegal⟩
  | truncate stOft =>
    obtain ⟨htouch, hstore, hdata, hsize, hvsize⟩ := ramTruncate_spec h.store h.chained hcut
    have hword : stOft < 2 ^ c.word := hlegal
    refine ⟨_, hstore, htouch.chained, hvsize.trans hsize.symm, ?_, ?_, ?_⟩
    · exact hsize.le.trans hword.le
    · intro p hp
      dsimp only [fileStep] at hp
      exact if_neg (by omega)
    · have hiff := h.resize_iff (arrayStep c s f array (.truncate stOft)) hsize
        (fun p hp => byteAt_take hdata (hp.trans_le (le_blocksFor_mul c stOft)))
        (fun p hp => if_pos hp)
      simp only [← fileByte_eq h.chained] at hiff
      exact hiff
  | increase m =>
    have hword : m < 2 ^ c.word := hlegal
    obtain ⟨hsize, hvsize⟩ := grow_size f h.vSize m
    refine ⟨l, h.store, h.chained.grow m, hvsize, ?_, ?_, ?_⟩
    · have := h.size
      exact hsize.le.trans (by omega)
    · intro p hp
      have hp' : (f.grow m).size ≤ p := hp
      exact h.above p (by omega)
    · have hiff := h.resize_iff _ hsize (fun p _ => rfl) (fun p _ => rfl)
      refine hiff.trans ?_
      simp only [Clean, fileByte_eq h.chained]
      constructor
      · intro hz p hp hpm
        exact hz p hp (by omega)
      · intro hz p hp hpm
        exact hz p hp (by omega)
  | read stSize stOft =>
    have hoft : stOft < 2 ^ c.word := hlegal
    obtain ⟨-, hch, hsame⟩ := ramRead_spec h.chained hoft
      (h.store.length_lt h.chained)
    have hsize := congrArg File.size hsame
    have hvsize := congrArg File.vSize hsame
    refine ⟨l, h.store, hch, ?_, ?_, ?_, ?_⟩
    · exact hvsize.trans (h.vSize.trans hsize.symm)
    · exact hsize.le.trans h.size
    · intro p hp
      exact h.above p (hsize.symm.le.trans hp)
    · refine ⟨fun _ => trivial, fun _ p hp => h.below p (lt_of_lt_of_eq hp hsize)⟩
  | other s' =>
    obtain ⟨hstore, hother⟩ := hlegal
    obtain ⟨hch, hdata⟩ := hother l h.chained
    refine ⟨l, hstore, hch, h.vSize, h.size, h.above, fun _ => trivial, fun _ p hp => ?_⟩
    have hsame : byteAt c s' l p = byteAt c s l p := by
      simp only [byteAt]
      cases hget : l[p / c.bdatasize]? with
      | none => rfl
      | some b => simp only [hdata b (List.mem_of_getElem? hget)]
    exact hsame.trans (h.below p hp)

def fileRun (c : Config) (s : Store) (f : File) (array : Bytes) :
    List FileOp → (Store × File) × Bytes
  | [] => ((s, f), array)
  | op :: ops =>
    let r := fileStep c s f op
    fileRun c r.1 r.2 (arrayStep c s f array op) ops

def EachCall (c : Config) (P : Store → File → FileOp → Prop) (s : Store) (f : File) :
    List FileOp → Prop
  | [] => True
  | op :: ops =>
    P s f op ∧ EachCall c P (fileStep c s f op).1 (fileStep c s f op).2 ops

theorem Holds.run_iff (h : Holds c s f l array) (ops : List FileOp)
    (hlegal : EachCall c (FileLegal c) s f ops)
    (hcut : EachCall c (fun _ f op => FileCutOk c f op) s f ops) :
    (∀ k, ReadsRight c (fileRun c s f array (ops.take k)).1.1
        (fileRun c s f array (ops.take k)).1.2 (fileRun c s f array (ops.take k)).2) ↔
      EachCall c (Clean c) s f ops := by
  induction ops generalizing s f l array with
  | nil =>
    refine ⟨fun _ => trivial, fun _ k => ?_⟩
    rw [List.take_nil]
    exact h.readsRight
  | cons op ops ih =>
    obtain ⟨l', hstep⟩ := h.step hlegal.1 hcut.1
    constructor
    · intro hall
      have hclean : Clean c s f op := hstep.readsRight_iff.mp (hall 1)
      exact ⟨hclean, (ih (hstep.holds hclean) hlegal.2 hcut.2).mp fun k => hall (k + 1)⟩
    · rintro ⟨hclean, hrest⟩ k
      cases k with
      | zero => exact h.readsRight
      | succ k => exact (ih (hstep.holds hclean) hlegal.2 hcut.2).mpr hrest k

/-- From a new file on, and as long as no truncation cuts it in the middle, reads return what was
written exactly when no call makes a byte visible that is not zero and that it does not write. -/
theorem ram_contents_iff (c : Config) {s : Store} (hs : StoreOk c s) (ops : List FileOp)
    (hlegal : EachCall c (FileLegal c) s emptyFile ops)
    (hcut : EachCall c (fun _ f op => FileCutOk c f op) s emptyFile ops) :
    (∀ k, ReadsRight c (fileRun c s emptyFile (fun _ => 0) (ops.take k)).1.1
        (fileRun c s emptyFile (fun _ => 0) (ops.take k)).1.2
        (fileRun c s emptyFile (fun _ => 0) (ops.take k)).2) ↔
      EachCall c (Clean c) s emptyFile ops := by
  have hnew : Chained s emptyFile [] :=
    ⟨⟨List.nodup_nil, trivial⟩, rfl, rfl, rfl, (fun b hb => nomatch hb), (fun b hb => nomatch hb)⟩
  have hholds : Holds c s emptyFile [] fun _ => 0 :=
    ⟨hs, hnew, rfl, Nat.zero_le _, fun p hp => absurd hp (Nat.not_lt_zero p), fun _ _ => rfl⟩
  exact hholds.run_iff ops hlegal hcut

def afterCalls (calls : List FileOp) (k : Nat) : (Store × File) × Bytes :=
  fileRun pageConfig (mounted 100).store emptyFile (fun _ => 0) (calls.take k)

def cleanCalls : List FileOp :=
  [.write (fun i => UInt8.ofNat i) 8000 0 fourBlocks, .truncate 6096, .increase 9000]

theorem ram_contents_iff_clean :
    StoreOk pageConfig (mounted 100).store ∧
      ∀ k, ReadsRight pageConfig (afterCalls cleanCalls k).1.1 (afterCalls cleanCalls k).1.2
        (afterCalls cleanCalls k).2 := by
  have hstore : StoreOk pageConfig (mounted 100).store := ⟨rfl, by decide, by decide⟩
  have hlen : writeLen pageConfig (mounted 100).store emptyFile 8000 0 fourBlocks = 8000 := by
    decide +kernel
  have hsize : writeSize pageConfig (mounted 100).store emptyFile 8000 0 fourBlocks = 8000 := by
    decide +kernel
  have hcut : CutsAtEnd pageConfig (afterCalls cleanCalls 1).1.2.cnt 6096 := by
    decide +kernel
  have hwritten : (afterCalls cleanCalls 1).1.2.size = 8000 := by
    decide +kernel
  have hshrunk : (afterCalls cleanCalls 2).1.2.size = 6096 := by
    decide +kernel
  -- three blocks are left, so the part the file grows by is behind them
  have hbehind : ∀ i, i = 3 ∨ i = 4 → (afterCalls cleanCalls 2).1.2.bStart.bind
      (walk (afterCalls cleanCalls 2).1.1.links.next i) = none := by
    rintro i (rfl | rfl)
    · decide +kernel
    · decide +kernel
  have hword : 6096 < 2 ^ 64 ∧ 9000 < 2 ^ 64 := by decide
  refine ⟨hstore, (ram_contents_iff pageConfig hstore cleanCalls
    ⟨⟨by decide, by decide, fresh_fourBlocks⟩, hword.1, hword.2, trivial⟩
    ⟨trivial, hcut, trivial, trivial⟩).mpr ⟨?_, ?_, ?_, trivial⟩⟩
  · intro p hp hout _
    rw [hsize] at hp
    rw [hlen] at hout
    omega
  · intro p hlo hhi
    have : 8000 ≤ p := hwritten.symm.le.trans hlo
    omega
  · intro p hlo hhi
    have hge : 6096 ≤ p := hshrunk.symm.le.trans hlo
    have hidx := hbehind (p / 2032) (by omega)
    have hzero : fileByte pageConfig (afterCalls cleanCalls 2).1.1 (afterCalls cleanCalls 2).1.2 p =
        0 := by
      rw [fileByte, show pageConfig.bdatasize = 2032 by decide, hidx]
    exact hzero

def gapCall : List FileOp := [.write (fun _ => 1) 1 5 fourBlocks]

theorem ram_gap_reads_garbage :
    EachCall pageConfig (FileLegal pageConfig) (mounted 100).store emptyFile gapCall ∧
      ¬ ∀ k, ReadsRight pageConfig (afterCalls gapCall k).1.1 (afterCalls gapCall k).1.2
        (afterCalls gapCall k).2 := by
  refine ⟨⟨⟨by decide, by decide, fresh_fourBlocks⟩, trivial⟩, ?_⟩
  intro hall
  have hread := hall 1 0 (by decide) 1
  revert hread
  decide +kernel

end SylixOS.RamFs
