import Mathlib.Logic.Function.Basic
import SylixOS.ByteBuffer

/-! The two readers of a DOS partition table: `__diskPartitionScan`
(`diskPartition.c`) and `__oemFdiskGet` (`oemFdisk.c`). Both follow the chain
of extended boot records with the same loop; they differ in what they store
for a partition and in how many they store. -/

namespace SylixOS.MbrScan
open SylixOS.ByteBuffer Function

structure Entry where
  activeFlag : UInt8
  partType : UInt8
  startSector : Nat
  nSector : Nat
  deriving DecidableEq, Repr

def mbrTable : Nat := 446
def diskPartType : Nat := 0x4
def diskPartStartSector : Nat := 0x8
def diskPartNSector : Nat := 0xc
def diskPartActive : UInt8 := 0x80

def entryAt (buf : Bytes) (i : Nat) : Entry :=
  { activeFlag := buf (mbrTable + i * 16)
    partType := buf (mbrTable + i * 16 + diskPartType)
    startSector := getLE 4 buf (mbrTable + i * 16 + diskPartStartSector)
    nSector := getLE 4 buf (mbrTable + i * 16 + diskPartNSector) }

def entries (buf : Bytes) : List Entry := [entryAt buf 0, entryAt buf 1, entryAt buf 2, entryAt buf 3]

def isExtended (partType : UInt8) : Bool :=
  partType = 0x05 ∨ partType = 0x0f ∨ partType = 0x15 ∨ partType = 0x1f ∨ partType = 0x85

def isValid (partType : UInt8) : Bool := ¬ isExtended partType ∧ partType ≠ 0x00

structure Disk where
  word : Nat
  secSize : Nat
  sector : Nat → Option Bytes

structure Reader (ρ : Type) where
  record : (base : Nat) → Entry → ρ
  limit : Nat

variable {ρ : Type}

/-- The loop over the entries of one table. The base sectors are overwritten by every extended
entry; `recur` reads the table it names. The result is the counter or `PX_ERROR` (`none`), with
the entries stored. -/
def scanEntries (D : Disk) (R : Reader ρ)
    (recur : (start ext counter : Nat) → (Nat → ρ) → Option (Option Nat × (Nat → ρ))) :
    List Entry → (start ext counter : Nat) → (Nat → ρ) → Option (Option Nat × (Nat → ρ))
  | [], _, _, counter, info => some (if counter = 0 then none else some counter, info)
  | e :: es, start, ext, counter, info =>
    if isValid e.partType then
      let info := update info counter (R.record start e)
      let counter := counter + 1
      if R.limit ≤ counter then some (some counter, info)
      else scanEntries D R recur es start ext counter info
    else if isExtended e.partType then
      let ext := if start = 0 then e.startSector else ext
      let start := if start = 0 then e.startSector else (e.startSector + ext) % 2 ^ D.word
      match recur start ext counter info with
      | none => none
      | some (none, info) => some (some counter, info)
      | some (some counter, info) =>
        if R.limit ≤ counter then some (some counter, info)
        else scanEntries D R recur es start ext counter info
    else if R.limit ≤ counter then some (some counter, info)
    else scanEntries D R recur es start ext counter info

/-- One call on the table in sector `start`. The calls nest along the chain of tables, which may
be a cycle: `none` is a chain longer than `fuel`. -/
def scanTable (D : Disk) (R : Reader ρ) :
    (fuel start ext counter : Nat) → (Nat → ρ) → Option (Option Nat × (Nat → ρ))
  | 0, _, _, _, _ => none
  | fuel + 1, start, ext, counter, info =>
    match D.sector start with
    | none => some (none, info)
    | some buf =>
      if buf (D.secSize - 2) ≠ 0x55 ∨ buf (D.secSize - 1) ≠ 0xaa then some (none, info)
      else scanEntries D R (scanTable D R fuel) (entries buf) start ext counter info

structure DiskpartNode where
  startSector : Nat
  nSector : Nat
  isActive : Bool
  partType : UInt8
  deriving DecidableEq, Repr, Inhabited

structure OemfdiskPinfo where
  size : Nat
  oft : Nat
  isActive : Bool
  partType : UInt8
  deriving DecidableEq, Repr, Inhabited

def maxDiskparts : Nat := 16

def diskPartitionReader (D : Disk) : Reader DiskpartNode where
  record ulStartSector e :=
    { startSector := (ulStartSector + e.startSector) % 2 ^ D.word, nSector := e.nSector
      isActive := e.activeFlag = diskPartActive, partType := e.partType }
  limit := maxDiskparts

def diskPartitionScan (D : Disk) (fuel : Nat) (pdpt : Nat → DiskpartNode) :
    Option (Option Nat × (Nat → DiskpartNode)) :=
  scanTable D (diskPartitionReader D) fuel 0 0 0 pdpt

def oemFdiskReader (D : Disk) (uiNPart : Nat) : Reader OemfdiskPinfo where
  record _ e :=
    { size := e.nSector * D.secSize % 2 ^ 64, oft := e.startSector * D.secSize % 2 ^ 64
      isActive := e.activeFlag = 0x80, partType := e.partType }
  limit := uiNPart

def oemFdiskGet (D : Disk) (uiNPart fuel : Nat) (fdpInfo : Nat → OemfdiskPinfo) :
    Option (Option Nat × (Nat → OemfdiskPinfo)) :=
  scanTable D (oemFdiskReader D uiNPart) fuel 0 0 0 fdpInfo

/-- The reports agree: the same number of partitions, each with the same type, active flag, size
and byte offset. -/
def Agree (D : Disk) (scan : Option Nat × (Nat → DiskpartNode))
    (get : Option Nat × (Nat → OemfdiskPinfo)) : Prop :=
  scan.1 = get.1 ∧ ∀ i < scan.1.getD 0,
    (scan.2 i).partType = (get.2 i).partType ∧ (scan.2 i).isActive = (get.2 i).isActive ∧
      (scan.2 i).nSector * D.secSize = (get.2 i).size ∧
      (scan.2 i).startSector * D.secSize = (get.2 i).oft

def visitReader (limit : Nat) : Reader (Nat × Entry) where
  record base e := (base, e)
  limit := limit

def visits (D : Disk) (limit fuel : Nat) : Option (Option Nat × (Nat → Nat × Entry)) :=
  scanTable D (visitReader limit) fuel 0 0 0 fun _ => (0, ⟨0, 0, 0, 0⟩)

def Keeps (c : Nat) (info : Nat → ρ) (out : Option Nat × (Nat → ρ)) : Prop :=
  (∀ i < c, out.2 i = info i) ∧ ∀ n, out.1 = some n → c ≤ n

theorem Keeps.trans {c c' : Nat} {info info' : Nat → ρ} {out : Option Nat × (Nat → ρ)}
    (h : Keeps c info (some c', info')) (h' : Keeps c' info' out) : Keeps c info out := by
  have hcc : c ≤ c' := h.2 c' rfl
  exact ⟨fun i hi => (h'.1 i (by omega)).trans (h.1 i hi), fun n hn => hcc.trans (h'.2 n hn)⟩

theorem keeps_update {c : Nat} (info : Nat → ρ) (x : ρ) :
    Keeps c info (some (c + 1), update info c x) :=
  ⟨fun i hi => update_of_ne (by omega) _ _,
    fun n hn => by have := Option.some.inj hn; omega⟩

section Loop

variable {D : Disk} {R : Reader ρ}
  {recur : (start ext counter : Nat) → (Nat → ρ) → Option (Option Nat × (Nat → ρ))}

theorem scanEntries_keeps
    (hrecur : ∀ s x c info out, recur s x c info = some out → Keeps c info out)
    (es : List Entry) (s x c : Nat) (info : Nat → ρ) {out : Option Nat × (Nat → ρ)}
    (h : scanEntries D R recur es s x c info = some out) :
    Keeps c info out ∧ (0 < c → out.1 ≠ none) := by
  induction es generalizing s x c info with
  | nil =>
    have hout := Option.some.inj h
    subst hout
    refine ⟨⟨fun _ _ => rfl, ?_⟩, ?_⟩
    · intro n hn
      dsimp only at hn
      split at hn
      · cases hn
      · exact (Option.some.inj hn).le
    · intro hc
      dsimp only
      rw [if_neg (by omega)]
      exact fun hne => nomatch hne
  | cons e es ih =>
    rw [scanEntries] at h
    split at h
    · -- a partition
      dsimp only at h
      split at h
      · rw [← Option.some.inj h]
        exact ⟨keeps_update info _, fun _ hne => nomatch hne⟩
      · obtain ⟨hk, hne⟩ := ih _ _ _ _ h
        exact ⟨(keeps_update info _).trans hk, fun _ => hne (Nat.succ_pos c)⟩
    · split at h
      · -- an extended entry
        dsimp only at h
        split at h
        · cases h
        · next info' hcall =>
          rw [← Option.some.inj h]
          exact ⟨⟨(hrecur _ _ _ _ _ hcall).1, fun n hn => (Option.some.inj hn).le⟩,
            fun _ hne => nomatch hne⟩
        · next c' info' hcall =>
          have hk' : Keeps c info (some c', info') := hrecur _ _ _ _ _ hcall
          split at h
          · rw [← Option.some.inj h]
            exact ⟨hk', fun _ hne => nomatch hne⟩
          · obtain ⟨hk, hne⟩ := ih _ _ _ _ h
            exact ⟨hk'.trans hk, fun hc => hne (hc.trans_le (hk'.2 c' rfl))⟩
      · split at h
        · rw [← Option.some.inj h]
          exact ⟨⟨fun _ _ => rfl, fun n hn => (Option.some.inj hn).le⟩, fun _ hne => nomatch hne⟩
        · exact ih _ _ _ _ h

end Loop

theorem scanTable_keeps {D : Disk} {R : Reader ρ} (fuel s x c : Nat) (info : Nat → ρ)
    {out : Option Nat × (Nat → ρ)} (h : scanTable D R fuel s x c info = some out) :
    Keeps c info out := by
  induction fuel generalizing s x c info out with
  | zero => cases h
  | succ fuel ih =>
    rw [scanTable] at h
    split at h
    · rw [← Option.some.inj h]
      exact ⟨fun _ _ => rfl, fun n hn => nomatch hn⟩
    · split at h
      · rw [← Option.some.inj h]
        exact ⟨fun _ _ => rfl, fun n hn => nomatch hn⟩
      · exact (scanEntries_keeps (fun s x c info out => ih s x c info) _ _ _ _ _ h).1

theorem scanEntries_mono {D : Disk} {R : Reader ρ}
    {recur recur' : (start ext counter : Nat) → (Nat → ρ) → Option (Option Nat × (Nat → ρ))}
    (hrecur : ∀ s x c info out, recur s x c info = some out → recur' s x c info = some out)
    (es : List Entry) (s x c : Nat) (info : Nat → ρ) {out : Option Nat × (Nat → ρ)}
    (h : scanEntries D R recur es s x c info = some out) :
    scanEntries D R recur' es s x c info = some out := by
  induction es generalizing s x c info with
  | nil => exact h
  | cons e es ih =>
    rw [scanEntries] at h ⊢
    split at h
    · next hv =>
      rw [if_pos hv]
      dsimp only at h ⊢
      split at h
      · next hl => rw [if_pos hl]; exact h
      · next hl => rw [if_neg hl]; exact ih _ _ _ _ h
    · next hv =>
      rw [if_neg hv]
      split at h
      · next hx =>
        rw [if_pos hx]
        dsimp only at h ⊢
        split at h
        · cases h
        · next info' hcall => rw [hrecur _ _ _ _ _ hcall]; exact h
        · next c' info' hcall =>
          rw [hrecur _ _ _ _ _ hcall]
          dsimp only
          split at h
          · next hl => rw [if_pos hl]; exact h
          · next hl => rw [if_neg hl]; exact ih _ _ _ _ h
      · next hx =>
        rw [if_neg hx]
        split at h
        · next hl => rw [if_pos hl]; exact h
        · next hl => rw [if_neg hl]; exact ih _ _ _ _ h

theorem scanTable_succ {D : Disk} {R : Reader ρ} (fuel s x c : Nat) (info : Nat → ρ)
    {out : Option Nat × (Nat → ρ)} (h : scanTable D R fuel s x c info = some out) :
    scanTable D R (fuel + 1) s x c info = some out := by
  induction fuel generalizing s x c info out with
  | zero => cases h
  | succ fuel ih =>
    rw [scanTable] at h
    rw [scanTable]
    cases hsec : D.sector s with
    | none => simpa only [hsec] using h
    | some buf =>
      simp only [hsec] at h ⊢
      split at h
      · next hsig => rw [if_pos hsig]; exact h
      · next hsig =>
        rw [if_neg hsig]
        exact scanEntries_mono (fun s x c info out => ih s x c info) _ _ _ _ _ h

theorem scanTable_le {D : Disk} {R : Reader ρ} {fuel fuel' : Nat} (hle : fuel ≤ fuel')
    {s x c : Nat} {info : Nat → ρ} {out : Option Nat × (Nat → ρ)}
    (h : scanTable D R fuel s x c info = some out) : scanTable D R fuel' s x c info = some out := by
  induction hle with
  | refl => exact h
  | step _ ih => exact scanTable_succ _ _ _ _ _ ih

section Simulation

variable {τ : Type} (Rel : ρ → τ → Prop)

def Sim (L c : Nat) (out : Option Nat × (Nat → ρ)) (out' : Option Nat × (Nat → τ)) : Prop :=
  (out.1 = out'.1 ∧ out'.1.getD 0 ≤ L ∧
      ∀ i, i < c ∨ i < out'.1.getD 0 → Rel (out.2 i) (out'.2 i)) ∨
    (out.1 = some L ∧ (∃ n, out'.1 = some n ∧ L ≤ n) ∧ ∀ i < L, Rel (out.2 i) (out'.2 i))

variable {Rel}

theorem Sim.of_le {L c c' : Nat} {out : Option Nat × (Nat → ρ)} {out' : Option Nat × (Nat → τ)}
    (h : Sim Rel L c' out out') (hcc : c ≤ c') : Sim Rel L c out out' := by
  rcases h with ⟨heq, hle, hrel⟩ | h
  · exact Or.inl ⟨heq, hle, fun i hi => hrel i (hi.imp (fun h => by omega) id)⟩
  · exact Or.inr h

theorem Sim.stopped {L c c' : Nat} {info : Nat → ρ} {info' : Nat → τ}
    {out' : Option Nat × (Nat → τ)} (hL : L ≤ c') (hrel : ∀ i < L, Rel (info i) (info' i))
    (hk : Keeps c' info' out') (hne : out'.1 ≠ none) : Sim Rel L c (some L, info) out' := by
  obtain ⟨n, hn⟩ := Option.ne_none_iff_exists'.mp hne
  refine Or.inr ⟨rfl, ⟨n, hn, hL.trans (hk.2 n hn)⟩, ?_⟩
  intro i hi
  rw [hk.1 i (by omega)]
  exact hrel i hi

theorem scanEntries_sim {D : Disk} {R : Reader ρ} {R' : Reader τ} (hword : 32 ≤ D.word)
    (hlimit : R.limit ≤ R'.limit)
    (hrecord : ∀ base e, base < 2 ^ D.word → e.startSector < 2 ^ 32 → e.nSector < 2 ^ 32 →
      Rel (R.record base e) (R'.record base e))
    {recur : (start ext counter : Nat) → (Nat → ρ) → Option (Option Nat × (Nat → ρ))}
    {recur' : (start ext counter : Nat) → (Nat → τ) → Option (Option Nat × (Nat → τ))}
    (hrecur : ∀ s x c info info' out', s < 2 ^ D.word → x < 2 ^ D.word → c < R.limit →
      (∀ i < c, Rel (info i) (info' i)) → recur' s x c info' = some out' →
        ∃ out, recur s x c info = some out ∧ Sim Rel R.limit c out out')
    (hkeeps : ∀ s x c info out, recur' s x c info = some out → Keeps c info out)
    (es : List Entry) (hes : ∀ e ∈ es, e.startSector < 2 ^ 32 ∧ e.nSector < 2 ^ 32)
    {s x c : Nat} (hs : s < 2 ^ D.word) (hx : x < 2 ^ D.word) (hc : c < R.limit)
    {info : Nat → ρ} {info' : Nat → τ} (hinfo : ∀ i < c, Rel (info i) (info' i))
    {out' : Option Nat × (Nat → τ)} (h : scanEntries D R' recur' es s x c info' = some out') :
    ∃ out, scanEntries D R recur es s x c info = some out ∧ Sim Rel R.limit c out out' := by
  induction es generalizing s x c info info' with
  | nil =>
    rw [← Option.some.inj h]
    refine ⟨_, rfl, Or.inl ⟨rfl, ?_, ?_⟩⟩
    · dsimp only
      split <;> simp only [Option.getD_none, Option.getD_some] <;> omega
    · intro i hi
      refine hinfo i ?_
      rcases hi with hi | hi
      · exact hi
      · dsimp only at hi
        split at hi <;> simp only [Option.getD_none, Option.getD_some] at hi <;> omega
  | cons e es ih =>
    have he := hes e List.mem_cons_self
    have hrest : ∀ e ∈ es, e.startSector < 2 ^ 32 ∧ e.nSector < 2 ^ 32 :=
      fun e he => hes e (List.mem_cons_of_mem _ he)
    rw [scanEntries] at h ⊢
    split at h
    · next hv =>
      rw [if_pos hv]
      dsimp only at h ⊢
      have hupd : ∀ i < c + 1, Rel (update info c (R.record s e) i)
          (update info' c (R'.record s e) i) := by
        intro i hi
        by_cases hic : i = c
        · subst hic
          rw [update_self, update_self]
          exact hrecord s e hs he.1 he.2
        · rw [update_of_ne hic, update_of_ne hic]
          exact hinfo i (by omega)
      by_cases hl : R.limit ≤ c + 1
      · have hL : R.limit = c + 1 := by omega
        rw [if_pos hl]
        refine ⟨_, rfl, ?_⟩
        rw [hL]
        split at h
        · rw [← Option.some.inj h]
          exact Or.inl ⟨rfl, le_rfl, fun i hi => hupd i
            (hi.elim (fun h => by omega) fun h => h)⟩
        · obtain ⟨hk, hne⟩ := scanEntries_keeps hkeeps _ _ _ _ _ h
          exact Sim.stopped le_rfl hupd hk (hne (Nat.succ_pos c))
      · rw [if_neg hl]
        rw [if_neg (by omega)] at h
        obtain ⟨out, hout, hsim⟩ := ih hrest hs hx (by omega) hupd h
        exact ⟨out, hout, hsim.of_le (Nat.le_succ c)⟩
    · next hv =>
      rw [if_neg hv]
      split at h
      · next hext =>
        rw [if_pos hext]
        dsimp only at h ⊢
        have hpow : 2 ^ 32 ≤ 2 ^ D.word := Nat.pow_le_pow_right (by omega) hword
        have hx' : (if s = 0 then e.startSector else x) < 2 ^ D.word := by split <;> omega
        have hs' : (if s = 0 then e.startSector
            else (e.startSector + if s = 0 then e.startSector else x) % 2 ^ D.word) < 2 ^ D.word := by
          split
          · omega
          · exact Nat.mod_lt _ (Nat.two_pow_pos _)
        split at h
        · cases h
        · next info2 hcall =>
          obtain ⟨⟨r, info1⟩, hcall1, hsim⟩ := hrecur _ _ _ info _ _ hs' hx' hc hinfo hcall
          rcases hsim with ⟨heq, -, hrel⟩ | ⟨-, ⟨n, hn, -⟩, -⟩
          · dsimp only at heq
            subst heq
            rw [hcall1, ← Option.some.inj h]
            exact ⟨_, rfl, Or.inl ⟨rfl, hc.le, fun i hi => hrel i (Or.inl (hi.elim id id))⟩⟩
          · cases hn
        · next c' info2 hcall =>
          obtain ⟨⟨r, info1⟩, hcall1, hsim⟩ := hrecur _ _ _ info _ _ hs' hx' hc hinfo hcall
          have hcc : c ≤ c' := (hkeeps _ _ _ _ _ hcall).2 c' rfl
          rcases hsim with ⟨heq, hle, hrel⟩ | ⟨heq, ⟨n, hn, hLn⟩, hrel⟩
          · dsimp only at heq
            subst heq
            rw [hcall1]
            dsimp only
            have hle' : c' ≤ R.limit := hle
            have hrel' : ∀ i < c', Rel (info1 i) (info2 i) := fun i hi => hrel i (Or.inr hi)
            by_cases hl : R.limit ≤ c'
            · have hL : c' = R.limit := by omega
              rw [if_pos hl]
              refine ⟨_, rfl, ?_⟩
              split at h
              · rw [← Option.some.inj h]
                exact Or.inl ⟨rfl, hle', fun i hi => hrel i hi⟩
              · obtain ⟨hk, hne⟩ := scanEntries_keeps hkeeps _ _ _ _ _ h
                rw [hL]
                exact Sim.stopped hl (fun i hi => hrel' i (by omega)) hk (hne (by omega))
            · rw [if_neg hl]
              rw [if_neg (by omega)] at h
              obtain ⟨out, hout, hsim⟩ := ih hrest hs' hx' (by omega) hrel' h
              exact ⟨out, hout, hsim.of_le hcc⟩
          · dsimp only at heq
            subst heq
            have hn' : c' = n := Option.some.inj hn
            rw [hcall1]
            dsimp only
            rw [if_pos le_rfl]
            refine ⟨_, rfl, ?_⟩
            split at h
            · rw [← Option.some.inj h]
              exact Or.inr ⟨rfl, ⟨c', rfl, by omega⟩, hrel⟩
            · obtain ⟨hk, hne⟩ := scanEntries_keeps hkeeps _ _ _ _ _ h
              exact Sim.stopped (by omega) hrel hk (hne (by omega))
      · next hext =>
        rw [if_neg hext, if_neg (by omega)]
        rw [if_neg (by omega)] at h
        exact ih hrest hs hx hc hinfo h

theorem entries_lt (buf : Bytes) : ∀ e ∈ entries buf, e.startSector < 2 ^ 32 ∧ e.nSector < 2 ^ 32 := by
  have hall : ∀ i, (entryAt buf i).startSector < 2 ^ 32 ∧ (entryAt buf i).nSector < 2 ^ 32 :=
    fun i => ⟨getLE_lt 4 buf _, getLE_lt 4 buf _⟩
  intro e he
  simp only [entries, List.mem_cons, List.not_mem_nil, or_false] at he
  rcases he with rfl | rfl | rfl | rfl <;> exact hall _

variable (Rel) in
theorem scanTable_sim {D : Disk} (R : Reader ρ) (R' : Reader τ) (hword : 32 ≤ D.word)
    (hlimit : R.limit ≤ R'.limit)
    (hrecord : ∀ base e, base < 2 ^ D.word → e.startSector < 2 ^ 32 → e.nSector < 2 ^ 32 →
      Rel (R.record base e) (R'.record base e))
    (fuel : Nat) {s x c : Nat} (hs : s < 2 ^ D.word) (hx : x < 2 ^ D.word) (hc : c < R.limit)
    {info : Nat → ρ} {info' : Nat → τ} (hinfo : ∀ i < c, Rel (info i) (info' i))
    {out' : Option Nat × (Nat → τ)} (h : scanTable D R' fuel s x c info' = some out') :
    ∃ out, scanTable D R fuel s x c info = some out ∧ Sim Rel R.limit c out out' := by
  induction fuel generalizing s x c info info' out' with
  | zero => cases h
  | succ fuel ih =>
    rw [scanTable] at h ⊢
    have hfail : ∀ {out'' : Option Nat × (Nat → τ)}, some (none, info') = some out'' →
        Sim Rel R.limit c (none, info) out'' := by
      intro out'' heq
      rw [← Option.some.inj heq]
      exact Or.inl ⟨rfl, Nat.zero_le _, fun i hi => hinfo i (hi.elim id fun h => absurd h (by simp))⟩
    cases hsec : D.sector s with
    | none =>
      simp only [hsec] at h ⊢
      exact ⟨_, rfl, hfail h⟩
    | some buf =>
      simp only [hsec] at h ⊢
      split at h
      · next hsig =>
        rw [if_pos hsig]
        exact ⟨_, rfl, hfail h⟩
      · next hsig =>
        rw [if_neg hsig]
        exact scanEntries_sim hword hlimit hrecord
          (fun s x c info info' out' hs hx hc hinfo => ih hs hx hc hinfo)
          (fun s x c info out => scanTable_keeps fuel s x c info) _ (entries_lt buf) hs hx hc hinfo h

theorem Sim.same {L c : Nat} {out : Option Nat × (Nat → ρ)} {out' : Option Nat × (Nat → τ)}
    (h : Sim Rel L c out out') (hle : out'.1.getD 0 ≤ L) :
    out.1 = out'.1 ∧ ∀ i < out'.1.getD 0, Rel (out.2 i) (out'.2 i) := by
  rcases h with ⟨heq, -, hrel⟩ | ⟨heq, ⟨n, hn, hLn⟩, hrel⟩
  · exact ⟨heq, fun i hi => hrel i (Or.inr hi)⟩
  · rw [hn, Option.getD_some] at hle ⊢
    have hnL : n = L := by omega
    subst hnL
    exact ⟨heq, hrel⟩

end Simulation

theorem scanTable_count_le {D : Disk} {R : Reader ρ} (hword : 32 ≤ D.word) (hlimit : 0 < R.limit)
    {fuel : Nat} {info : Nat → ρ} {out : Option Nat × (Nat → ρ)}
    (h : scanTable D R fuel 0 0 0 info = some out) : out.1.getD 0 ≤ R.limit := by
  have hzero : 0 < 2 ^ D.word := Nat.two_pow_pos _
  obtain ⟨out', hout', hsim⟩ := scanTable_sim (fun _ _ => True) R R hword le_rfl
    (fun _ _ _ _ _ => trivial) fuel hzero hzero hlimit (fun _ _ => trivial) h
  rw [h] at hout'
  obtain rfl := Option.some.inj hout'
  rcases hsim with ⟨-, hle, -⟩ | ⟨heq, -⟩
  · exact hle
  · rw [heq]
    exact le_rfl

/-- At most `LW_CFG_MAX_DISKPARTS` partitions are met, each with base sector 0: in the first
table, in front of any extended entry that leads away from sector 0. -/
def PrimaryOnly (D : Disk) (uiNPart : Nat) : Prop :=
  ∃ fuel vis, visits D uiNPart fuel = some vis ∧ vis.1.getD 0 ≤ maxDiskparts ∧
    ∀ i < vis.1.getD 0, (vis.2 i).1 = 0

def Reports (D : Disk) (x : Nat × Entry) (node : DiskpartNode) : Prop :=
  x.1 < 2 ^ D.word ∧ x.2.startSector < 2 ^ 32 ∧
    node = (diskPartitionReader D).record x.1 x.2

def Lists (D : Disk) (x : Nat × Entry) (info : OemfdiskPinfo) : Prop :=
  x.2.startSector < 2 ^ 32 ∧ x.2.nSector < 2 ^ 32 ∧
    info = (oemFdiskReader D 0).record x.1 x.2

theorem reports_alike_iff {D : Disk} (hword : 32 ≤ D.word) (hpos : 0 < D.secSize)
    (hsize : D.secSize < 2 ^ 32) {x : Nat × Entry} {node : DiskpartNode} {info : OemfdiskPinfo}
    (hnode : Reports D x node) (hinfo : Lists D x info) :
    (node.partType = info.partType ∧ node.isActive = info.isActive ∧
      node.nSector * D.secSize = info.size ∧ node.startSector * D.secSize = info.oft) ↔
      x.1 = 0 := by
  obtain ⟨base, e⟩ := x
  obtain ⟨hbase, hstart, rfl⟩ := hnode
  obtain ⟨-, hn, rfl⟩ := hinfo
  have hmul : ∀ n < 2 ^ 32, n * D.secSize % 2 ^ 64 = n * D.secSize := by
    intro n hn
    refine Nat.mod_eq_of_lt ?_
    calc n * D.secSize < 2 ^ 32 * 2 ^ 32 := Nat.mul_lt_mul'' hn hsize
      _ = 2 ^ 64 := by norm_num
  have hpow : 2 ^ 32 ≤ 2 ^ D.word := Nat.pow_le_pow_right (by omega) hword
  dsimp only [diskPartitionReader, oemFdiskReader] at hbase hstart hn ⊢
  rw [hmul _ hstart, hmul _ hn]
  constructor
  · rintro ⟨-, -, -, hoft⟩
    have heq : (base + e.startSector) % 2 ^ D.word = e.startSector :=
      Nat.eq_of_mul_eq_mul_right hpos hoft
    by_contra hne
    by_cases hwrap : base + e.startSector < 2 ^ D.word
    · rw [Nat.mod_eq_of_lt hwrap] at heq
      omega
    · rw [Nat.mod_eq_sub_mod (by omega), Nat.mod_eq_of_lt (by omega)] at heq
      omega
  · rintro rfl
    refine ⟨rfl, rfl, rfl, ?_⟩
    rw [Nat.zero_add, Nat.mod_eq_of_lt (by omega)]

/-- The readers agree on a disk on which both end exactly if every partition is met with base
sector 0 and the table of the scan has room for all of them. -/
theorem mbr_readers_agree_iff {D : Disk} (hword : D.word = 32 ∨ D.word = 64)
    (hpos : 512 ≤ D.secSize) (hsize : D.secSize < 2 ^ 32) {uiNPart : Nat}
    (hroom : maxDiskparts ≤ uiNPart) {fuel fuel' : Nat} {pdpt : Nat → DiskpartNode}
    {fdpInfo : Nat → OemfdiskPinfo} {scan : Option Nat × (Nat → DiskpartNode)}
    {get : Option Nat × (Nat → OemfdiskPinfo)}
    (hscan : diskPartitionScan D fuel pdpt = some scan)
    (hget : oemFdiskGet D uiNPart fuel' fdpInfo = some get) :
    Agree D scan get ↔ PrimaryOnly D uiNPart := by
  have hw : 32 ≤ D.word := by omega
  have hzero : 0 < 2 ^ D.word := Nat.two_pow_pos _
  have hmax : 0 < maxDiskparts := by decide
  have hpart : 0 < uiNPart := hmax.trans_le hroom
  -- all three traversals with the same fuel
  have key : ∀ vis F, fuel ≤ F → fuel' ≤ F → visits D uiNPart F = some vis →
      (Agree D scan get ↔
        vis.1.getD 0 ≤ maxDiskparts ∧ ∀ i < vis.1.getD 0, (vis.2 i).1 = 0) := by
    intro vis F hF hF' hvis
    have hscanF := scanTable_le hF hscan
    have hgetF := scanTable_le hF' hget
    have hcount : vis.1.getD 0 ≤ uiNPart :=
      scanTable_count_le (R := visitReader uiNPart) hw hpart hvis
    obtain ⟨get', hget', hsimG⟩ := scanTable_sim (fun info x => Lists D x info)
      (oemFdiskReader D uiNPart) (visitReader uiNPart) hw (le_refl uiNPart)
      (fun _ _ _ hs hn => ⟨hs, hn, rfl⟩) F hzero hzero hpart
      (fun i hi => absurd hi (Nat.not_lt_zero i)) hvis
    have hgetEq : get' = get := Option.some.inj (hget'.symm.trans hgetF)
    subst hgetEq
    obtain ⟨hcodeG, hrelG⟩ := hsimG.same hcount
    obtain ⟨scan', hscan', hsimS⟩ := scanTable_sim (fun node x => Reports D x node)
      (diskPartitionReader D) (visitReader uiNPart) hw hroom
      (fun _ _ hb hs _ => ⟨hb, hs, rfl⟩) F hzero hzero hmax
      (fun i hi => absurd hi (Nat.not_lt_zero i)) hvis
    have hscanEq : scan' = scan := Option.some.inj (hscan'.symm.trans hscanF)
    subst hscanEq
    have halike : vis.1.getD 0 ≤ maxDiskparts → ∀ i < vis.1.getD 0, _ := fun hle i hi =>
      reports_alike_iff hw (by omega) hsize ((hsimS.same hle).2 i hi) (hrelG i hi)
    constructor
    · rintro ⟨hcode, hall⟩
      have hle : vis.1.getD 0 ≤ maxDiskparts := by
        rw [← hcodeG, ← hcode]
        exact scanTable_count_le (R := diskPartitionReader D) hw hmax hscan
      refine ⟨hle, ?_⟩
      intro i hi
      refine (halike hle i hi).mp (hall i ?_)
      rw [hcode, hcodeG]
      exact hi
    · rintro ⟨hle, hbase⟩
      have hcodeS := (hsimS.same hle).1
      refine ⟨hcodeS.trans hcodeG.symm, ?_⟩
      intro i hi
      rw [hcodeS] at hi
      exact (halike hle i hi).mpr (hbase i hi)
  have hgetF : oemFdiskGet D uiNPart (max fuel fuel') fdpInfo = some get :=
    scanTable_le (le_max_right _ _) hget
  obtain ⟨vis, hvis, -⟩ := scanTable_sim (fun _ _ => True)
    (visitReader uiNPart) (oemFdiskReader D uiNPart) hw (le_refl uiNPart)
    (fun _ _ _ _ _ => trivial) _ hzero hzero hpart
    (fun _ _ => trivial) hgetF
  constructor
  · intro hagree
    exact ⟨_, vis, hvis, (key vis _ (le_max_left _ _) (le_max_right _ _) hvis).mp hagree⟩
  · rintro ⟨F, vis', hvis', hprimary⟩
    refine (key vis' (max F (max fuel fuel')) ?_ ?_ (scanTable_le (le_max_left _ _) hvis')).mpr
      hprimary
    · exact (le_max_left _ _).trans (le_max_right _ _)
    · exact (le_max_right _ _).trans (le_max_right _ _)

/-! A disk of 512-byte sectors with a primary partition at sector 63, and with an extended one at
sector 2048 that holds one logical partition. -/

def tableSector (es : List (Nat × Nat × Nat)) : Bytes :=
  putFields
    (fun i => if i = 510 then 0x55 else if i = 511 then 0xaa else 0) mbrTable
    (es.flatMap fun e => [(4, 0), (4, e.1), (4, e.2.1), (4, e.2.2)])

def primaryDisk : Disk :=
  { word := 64, secSize := 512
    sector := fun s => if s = 0 then some (tableSector [(0x0c, 63, 1000)]) else some fun _ => 0 }

def logicalDisk : Disk :=
  { word := 64, secSize := 512
    sector := fun s =>
      if s = 0 then some (tableSector [(0x0c, 63, 1000), (0x05, 2048, 4096)])
      else if s = 2048 then some (tableSector [(0x0c, 63, 2000)])
      else some fun _ => 0 }

theorem mbr_readers_agree_primary : ∃ scan get,
    diskPartitionScan primaryDisk 2 (fun _ => default) = some scan ∧
      oemFdiskGet primaryDisk 16 2 (fun _ => default) = some get ∧ Agree primaryDisk scan get := by
  have hscan : (diskPartitionScan primaryDisk 2 fun _ => default).isSome = true := by
    decide +kernel
  have hget : (oemFdiskGet primaryDisk 16 2 fun _ => default).isSome = true := by decide +kernel
  obtain ⟨scan, hscan⟩ := Option.isSome_iff_exists.mp hscan
  obtain ⟨get, hget⟩ := Option.isSome_iff_exists.mp hget
  refine ⟨scan, get, hscan, hget, (mbr_readers_agree_iff (Or.inr rfl) (by decide) (by decide)
    (by decide) hscan hget).mpr ?_⟩
  have hvis : (visits primaryDisk 16 2).map (fun vis => (vis.1, (vis.2 0).1)) =
      some (some 1, 0) := by decide +kernel
  obtain ⟨⟨n, v⟩, hvis, heq⟩ := Option.map_eq_some_iff.mp hvis
  obtain ⟨hn, hv⟩ := Prod.mk.inj heq
  dsimp only at hn hv
  subst hn
  refine ⟨2, _, hvis, show 1 ≤ maxDiskparts by decide, ?_⟩
  intro i hi
  have hzero : i = 0 := Nat.lt_one_iff.mp hi
  subst hzero
  exact hv

/-- The logical partition at sector 2111: `__oemFdiskGet` reports the offset of sector 63. -/
theorem mbr_readers_differ_on_logical : ∃ scan get,
    diskPartitionScan logicalDisk 3 (fun _ => default) = some scan ∧
      oemFdiskGet logicalDisk 16 3 (fun _ => default) = some get ∧
      scan.1 = some 2 ∧ get.1 = some 2 ∧ (scan.2 1).startSector = 2111 ∧
      (get.2 1).oft = 63 * 512 ∧ ¬ Agree logicalDisk scan get := by
  have hscan : (diskPartitionScan logicalDisk 3 fun _ => default).map
      (fun r => (r.1, (r.2 1).startSector)) = some (some 2, 2111) := by decide +kernel
  have hget : (oemFdiskGet logicalDisk 16 3 fun _ => default).map
      (fun r => (r.1, (r.2 1).oft)) = some (some 2, 63 * 512) := by decide +kernel
  obtain ⟨scan, hscan, heqS⟩ := Option.map_eq_some_iff.mp hscan
  obtain ⟨get, hget, heqG⟩ := Option.map_eq_some_iff.mp hget
  obtain ⟨hn, hstart⟩ := Prod.mk.inj heqS
  obtain ⟨hn', hoft⟩ := Prod.mk.inj heqG
  refine ⟨scan, get, hscan, hget, hn, hn', hstart, hoft, ?_⟩
  rintro ⟨-, hall⟩
  have hone := (hall 1 (by rw [hn]; decide)).2.2.2
  rw [hstart, hoft] at hone
  exact absurd hone (by decide)

end SylixOS.MbrScan
