import Mathlib.Order.WellFounded
import Mathlib.Data.Finite.Prod
import Mathlib.Data.Set.Finite.Lattice
import Mathlib.Order.Interval.Finset.Nat
import Mathlib.Order.Preorder.Finite
import SylixOS.MbrScan

/-! Which calls the two readers of a DOS partition table make, and when there are finitely many of
them. -/

namespace SylixOS

section Graph

variable {α : Type*} {r : α → α → Prop} {a : α}

theorem not_self_of_acc (hacc : Acc r a) : ¬ r a a := by
  induction hacc with
  | intro a _ ih => exact fun hself => ih a hself hself

theorem not_cycle_of_acc {b : α} (hacc : Acc (Function.swap r) a)
    (hab : Relation.ReflTransGen r a b) : ¬ Relation.TransGen r b b := by
  have hb : Acc (Function.swap r) b := by
    induction hab with
    | refl => exact hacc
    | tail _ hstep ih => exact ih.inv hstep
  exact fun hcycle => not_self_of_acc hb.transGen (Relation.transGen_swap.mpr hcycle)

theorem acc_iff_no_cycle {s : Set α} (hs : s.Finite)
    (hmem : ∀ b, Relation.ReflTransGen r a b → ∀ c, r b c → b ∈ s) :
    Acc (Function.swap r) a ↔ ∀ b, Relation.ReflTransGen r a b → ¬ Relation.TransGen r b b := by
  refine ⟨fun hacc b => not_cycle_of_acc hacc, fun hno => ?_⟩
  by_contra hacc
  obtain ⟨f, rfl, hf⟩ := not_acc_iff_exists_descending_chain.mp hacc
  have hreach : ∀ n, Relation.ReflTransGen r (f 0) (f n) := by
    intro n
    induction n with
    | zero => exact Relation.ReflTransGen.refl
    | succ n ih => exact ih.tail (hf n)
  have hpath : ∀ n k, Relation.TransGen r (f n) (f (n + k + 1)) := by
    intro n k
    induction k with
    | zero => exact Relation.TransGen.single (hf n)
    | succ k ih => exact ih.tail (hf _)
  obtain ⟨m, n, hlt, heq⟩ := Set.Finite.exists_lt_map_eq_of_forall_mem
    (fun n => hmem _ (hreach n) _ (hf n)) hs
  obtain ⟨k, rfl⟩ := Nat.exists_eq_add_of_lt hlt
  exact hno _ (hreach m) (by simpa only [heq] using hpath m k)

end Graph

namespace MbrScan

structure Call where
  start : Nat
  ext : Nat
  counter : Nat

def counting (limit : Nat) : Reader Unit where
  record _ _ := ()
  limit := limit

def returns (D : Disk) (limit fuel : Nat) (k : Call) : Option (Option Nat) :=
  (scanTable D (counting limit) fuel k.start k.ext k.counter fun _ => ()).map Prod.fst

def nested (D : Disk) (start ext counter : Nat) (e : Entry) : Call where
  start := if start = 0 then e.startSector else (e.startSector + ext) % 2 ^ D.word
  ext := if start = 0 then e.startSector else ext
  counter := counter

inductive MadeBy (D : Disk) (limit : Nat) : List Entry → (start ext counter : Nat) → Call → Prop
  | here {e es start ext counter} : isValid e.partType = false → isExtended e.partType = true →
      MadeBy D limit (e :: es) start ext counter (nested D start ext counter e)
  | valid {e es start ext counter k} : isValid e.partType = true → counter + 1 < limit →
      MadeBy D limit es start ext (counter + 1) k → MadeBy D limit (e :: es) start ext counter k
  | empty {e es start ext counter k} : isValid e.partType = false → isExtended e.partType = false →
      MadeBy D limit es start ext counter k → MadeBy D limit (e :: es) start ext counter k
  | behind {e es start ext counter k fuel counter'} : isValid e.partType = false →
      isExtended e.partType = true →
      returns D limit fuel (nested D start ext counter e) = some (some counter') →
      counter' < limit →
      MadeBy D limit es (nested D start ext counter e).start (nested D start ext counter e).ext
        counter' k →
      MadeBy D limit (e :: es) start ext counter k

def Makes (D : Disk) (limit : Nat) (k k' : Call) : Prop :=
  ∃ buf, D.sector k.start = some buf ∧
    ¬(buf (D.secSize - 2) ≠ 0x55 ∨ buf (D.secSize - 1) ≠ 0xaa) ∧
    MadeBy D limit (entries buf) k.start k.ext k.counter k'

def returnsBy (D : Disk) (limit fuel : Nat) (es : List Entry) (start ext counter : Nat) :
    Option (Option Nat) :=
  (scanEntries D (counting limit) (scanTable D (counting limit) fuel) es start ext counter
    fun _ => ()).map Prod.fst

variable {D : Disk} {limit fuel s x c : Nat} {e : Entry} {es : List Entry} {k k' : Call}

theorem returnsBy_valid (hvalid : isValid e.partType = true) :
    returnsBy D limit fuel (e :: es) s x c =
      if limit ≤ c + 1 then some (some (c + 1)) else returnsBy D limit fuel es s x (c + 1) := by
  rw [returnsBy, scanEntries, if_pos hvalid]
  exact apply_ite (Option.map Prod.fst) (limit ≤ c + 1) _ _

theorem returnsBy_empty (hvalid : isValid e.partType = false)
    (hext : isExtended e.partType = false) (hc : c < limit) :
    returnsBy D limit fuel (e :: es) s x c = returnsBy D limit fuel es s x c := by
  rw [returnsBy, scanEntries, hvalid, hext]
  exact congrArg (Option.map Prod.fst) (if_neg (not_le.mpr hc))

theorem returnsBy_ext (hvalid : isValid e.partType = false) (hext : isExtended e.partType = true) :
    returnsBy D limit fuel (e :: es) s x c =
      match returns D limit fuel (nested D s x c e) with
      | none => none
      | some none => some (some c)
      | some (some counter) =>
        if limit ≤ counter then some (some counter)
        else returnsBy D limit fuel es (nested D s x c e).start (nested D s x c e).ext counter := by
  have hstart : (if s = 0 then e.startSector
      else (e.startSector + if s = 0 then e.startSector else x) % 2 ^ D.word) =
        (nested D s x c e).start := by
    rw [nested]
    split <;> rfl
  have hext' : (if s = 0 then e.startSector else x) = (nested D s x c e).ext := rfl
  have hcounter : (nested D s x c e).counter = c := rfl
  rw [returnsBy, scanEntries, hvalid, hext, returns, hcounter]
  simp only [Bool.false_eq_true, if_false, if_true, hstart]
  simp only [hext']
  cases scanTable D (counting limit) fuel (nested D s x c e).start (nested D s x c e).ext c
    fun _ => () with
  | none => rfl
  | some out =>
    obtain ⟨ret, info⟩ := out
    cases ret with
    | none => rfl
    | some counter => exact apply_ite (Option.map Prod.fst) (limit ≤ counter) _ _

theorem returns_le {fuel' : Nat} (hle : fuel ≤ fuel') {ret : Option Nat}
    (h : returns D limit fuel k = some ret) : returns D limit fuel' k = some ret := by
  obtain ⟨out, hout, rfl⟩ := Option.map_eq_some_iff.mp h
  rw [returns, scanTable_le hle hout]
  rfl

theorem returnsBy_le {fuel' : Nat} (hle : fuel ≤ fuel') {ret : Option Nat}
    (h : returnsBy D limit fuel es s x c = some ret) :
    returnsBy D limit fuel' es s x c = some ret := by
  obtain ⟨out, hout, rfl⟩ := Option.map_eq_some_iff.mp h
  rw [returnsBy, scanEntries_mono (fun _ _ _ _ _ hcall => scanTable_le hle hcall) es s x c _ hout]
  rfl

theorem returns_unique {fuel' : Nat} {ret ret' : Option Nat}
    (h : returns D limit fuel k = some ret) (h' : returns D limit fuel' k = some ret') :
    ret = ret' :=
  Option.some.inj ((returns_le (le_max_left fuel fuel') h).symm.trans
    (returns_le (le_max_right fuel fuel') h'))

theorem returns_succ :
    returns D limit (fuel + 1) k =
      match D.sector k.start with
      | none => some none
      | some buf =>
        if buf (D.secSize - 2) ≠ 0x55 ∨ buf (D.secSize - 1) ≠ 0xaa then some none
        else returnsBy D limit fuel (entries buf) k.start k.ext k.counter := by
  rw [returns, scanTable]
  cases D.sector k.start with
  | none => rfl
  | some buf =>
    exact apply_ite (Option.map Prod.fst) (buf (D.secSize - 2) ≠ 0x55 ∨
      buf (D.secSize - 1) ≠ 0xaa) _ _

theorem MadeBy.counter_lt (made : MadeBy D limit es s x c k) (hc : c < limit) :
    k.counter < limit := by
  induction made with
  | here => exact hc
  | valid _ hlt _ ih => exact ih hlt
  | empty _ _ _ ih => exact ih hc
  | behind _ _ _ hlt _ ih => exact ih hlt

theorem MadeBy.ext_lt (made : MadeBy D limit es s x c k) (hes : ∀ e ∈ es, e.startSector < 2 ^ 32)
    (hx : x < 2 ^ 32) : k.ext < 2 ^ 32 := by
  have hnested : ∀ {e s x c}, e.startSector < 2 ^ 32 → x < 2 ^ 32 →
      (nested D s x c e).ext < 2 ^ 32 := by
    intro e s x c he hx
    rw [nested]
    split
    · exact he
    · exact hx
  induction made with
  | here => exact hnested (hes _ List.mem_cons_self) hx
  | valid _ _ _ ih => exact ih (fun e he => hes e (List.mem_cons_of_mem _ he)) hx
  | empty _ _ _ ih => exact ih (fun e he => hes e (List.mem_cons_of_mem _ he)) hx
  | behind _ _ _ _ _ ih =>
    exact ih (fun e he => hes e (List.mem_cons_of_mem _ he))
      (hnested (hes _ List.mem_cons_self) hx)

theorem MadeBy.ends (made : MadeBy D limit es s x c k) (hc : c < limit) {ret : Option Nat}
    (h : returnsBy D limit fuel es s x c = some ret) : ∃ ret', returns D limit fuel k = some ret' := by
  induction made with
  | here hvalid hext =>
    rw [returnsBy_ext hvalid hext] at h
    exact Option.ne_none_iff_exists'.mp fun hnone => by simp [hnone] at h
  | valid hvalid hlt _ ih =>
    rw [returnsBy_valid hvalid, if_neg (not_le.mpr hlt)] at h
    exact ih hlt h
  | empty hvalid hext _ ih =>
    rw [returnsBy_empty hvalid hext hc] at h
    exact ih hc h
  | @behind e es s x c k fuel' counter hvalid hext hback hlt _ ih =>
    rw [returnsBy_ext hvalid hext] at h
    cases hcall : returns D limit fuel (nested D s x c e) with
    | none => simp [hcall] at h
    | some ret' =>
      obtain rfl := returns_unique hback hcall
      simp only [hcall, if_neg (not_le.mpr hlt)] at h
      exact ih hlt h

theorem returnsBy_ends (es : List Entry) (hc : c < limit)
    (hends : ∀ k, MadeBy D limit es s x c k → ∃ fuel ret, returns D limit fuel k = some ret) :
    ∃ fuel ret, returnsBy D limit fuel es s x c = some ret := by
  induction es generalizing s x c with
  | nil => exact ⟨0, _, rfl⟩
  | cons e es ih =>
    cases hvalid : isValid e.partType with
    | true =>
      by_cases hlast : limit ≤ c + 1
      · exact ⟨0, _, by rw [returnsBy_valid hvalid, if_pos hlast]⟩
      · obtain ⟨fuel, ret, h⟩ := ih (not_le.mp hlast) fun k made =>
          hends k (.valid hvalid (not_le.mp hlast) made)
        exact ⟨fuel, ret, by rw [returnsBy_valid hvalid, if_neg hlast, h]⟩
    | false =>
      cases hext : isExtended e.partType with
      | false =>
        obtain ⟨fuel, ret, h⟩ := ih hc fun k made => hends k (.empty hvalid hext made)
        exact ⟨fuel, ret, by rw [returnsBy_empty hvalid hext hc, h]⟩
      | true =>
        obtain ⟨fuel, back, hback⟩ := hends _ (.here hvalid hext)
        cases back with
        | none => exact ⟨fuel, _, by rw [returnsBy_ext hvalid hext, hback]⟩
        | some counter =>
          by_cases hfull : limit ≤ counter
          · refine ⟨fuel, some counter, ?_⟩
            rw [returnsBy_ext hvalid hext, hback]
            exact if_pos hfull
          · obtain ⟨fuel', ret, h⟩ := ih (not_le.mp hfull) fun k made =>
              hends k (.behind hvalid hext hback (not_le.mp hfull) made)
            refine ⟨max fuel fuel', ret, ?_⟩
            rw [returnsBy_ext hvalid hext, returns_le (le_max_left _ _) hback]
            exact (if_neg hfull).trans (returnsBy_le (le_max_right _ _) h)

theorem Makes.counter_lt (makes : Makes D limit k k') (hc : k.counter < limit) :
    k'.counter < limit := by
  obtain ⟨buf, -, -, made⟩ := makes
  exact made.counter_lt hc

theorem ends_iff_acc (hc : k.counter < limit) :
    (∃ fuel ret, returns D limit fuel k = some ret) ↔ Acc (Function.swap (Makes D limit)) k := by
  constructor
  · rintro ⟨fuel, ret, h⟩
    induction fuel generalizing k ret with
    | zero => exact nomatch h
    | succ fuel ih =>
      refine Acc.intro k fun k' makes => ?_
      have hc' := makes.counter_lt hc
      obtain ⟨buf, hsector, hmark, made⟩ := makes
      rw [returns_succ, hsector] at h
      obtain ⟨ret', h'⟩ := made.ends hc ((if_neg hmark).symm.trans h)
      exact ih hc' ret' h'
  · intro hacc
    induction hacc with
    | intro k _ ih =>
      cases hsector : D.sector k.start with
      | none => exact ⟨1, none, by rw [returns_succ, hsector]⟩
      | some buf =>
        by_cases hmark : buf (D.secSize - 2) ≠ 0x55 ∨ buf (D.secSize - 1) ≠ 0xaa
        · refine ⟨1, none, ?_⟩
          rw [returns_succ, hsector]
          exact if_pos hmark
        · obtain ⟨fuel, ret, h⟩ := returnsBy_ends (entries buf) hc fun k' made =>
            ih k' ⟨buf, hsector, hmark, made⟩ (made.counter_lt hc)
          refine ⟨fuel + 1, ret, ?_⟩
          rw [returns_succ, hsector]
          exact (if_neg hmark).trans h

def rootCall : Call := ⟨0, 0, 0⟩

/-- Some call that is made is nested in a call with the same arguments: the same table is read again
with the same base, and no partition has been recorded between the two. -/
def Loops (D : Disk) (limit : Nat) : Prop :=
  ∃ k, Relation.ReflTransGen (Makes D limit) rootCall k ∧ Relation.TransGen (Makes D limit) k k

def callRange (size limit : Nat) : Set Call :=
  {k | k.start < size ∧ k.ext < 2 ^ 32 ∧ k.counter < limit}

theorem callRange_finite (size limit : Nat) : (callRange size limit).Finite := by
  refine Set.Finite.of_injOn (f := fun k : Call => (k.start, k.ext, k.counter))
    (t := Set.Iio size ×ˢ Set.Iio (2 ^ 32) ×ˢ Set.Iio limit) (fun k hk => hk) ?_
    ((Set.finite_Iio size).prod ((Set.finite_Iio _).prod (Set.finite_Iio limit)))
  rintro ⟨s, x, c⟩ - ⟨s', x', c'⟩ - heq
  obtain ⟨rfl, h⟩ := Prod.mk.inj heq
  obtain ⟨rfl, rfl⟩ := Prod.mk.inj h
  rfl

theorem reached_bounds (hlimit : 0 < limit)
    (hreach : Relation.ReflTransGen (Makes D limit) rootCall k) :
    k.ext < 2 ^ 32 ∧ k.counter < limit := by
  induction hreach with
  | refl => exact ⟨Nat.two_pow_pos 32, hlimit⟩
  | tail _ makes ih =>
    refine ⟨?_, makes.counter_lt ih.2⟩
    obtain ⟨buf, -, -, made⟩ := makes
    exact made.ext_lt (fun e he => (entries_lt buf e he).1) ih.1

theorem ends_iff_not_loops {size : Nat} (hsize : ∀ s, size ≤ s → D.sector s = none)
    (hlimit : 0 < limit) :
    (∃ fuel ret, returns D limit fuel rootCall = some ret) ↔ ¬ Loops D limit := by
  rw [ends_iff_acc hlimit, acc_iff_no_cycle (callRange_finite size limit)]
  · simp [Loops]
  · rintro k hreach k' ⟨buf, hsector, -⟩
    refine ⟨?_, reached_bounds hlimit hreach⟩
    by_contra hlt
    rw [hsize k.start (not_lt.mp hlt)] at hsector
    exact nomatch hsector

variable {ρ : Type}

theorem scanTable_ends_iff {R : Reader ρ} (hword : 32 ≤ D.word) (hlimit : 0 < R.limit)
    (info : Nat → ρ) :
    (∃ fuel out, scanTable D R fuel 0 0 0 info = some out) ↔
      ∃ fuel ret, returns D R.limit fuel rootCall = some ret := by
  have hzero : 0 < 2 ^ D.word := Nat.two_pow_pos _
  constructor
  · rintro ⟨fuel, out, h⟩
    obtain ⟨out', h', -⟩ := scanTable_sim (fun _ _ => True) (counting R.limit) R hword le_rfl
      (fun _ _ _ _ _ => trivial) fuel hzero hzero hlimit (fun _ _ => trivial) h
    exact ⟨fuel, out'.1, Option.map_eq_some_iff.mpr ⟨out', h', rfl⟩⟩
  · rintro ⟨fuel, ret, h⟩
    obtain ⟨out, h', -⟩ := Option.map_eq_some_iff.mp h
    obtain ⟨out', h'', -⟩ := scanTable_sim (fun _ _ => True) R (counting R.limit) hword le_rfl
      (fun _ _ _ _ _ => trivial) fuel hzero hzero hlimit (fun _ _ => trivial) h'
    exact ⟨fuel, out', h''⟩

/-- The two readers make finitely many calls on a disk exactly if none is nested in a call with the
same arguments. -/
theorem scans_end_iff {size uiNPart : Nat} (hword : D.word = 32 ∨ D.word = 64)
    (hsize : ∀ s, size ≤ s → D.sector s = none) (hpart : 0 < uiNPart)
    (pdpt : Nat → DiskpartNode) (fdpInfo : Nat → OemfdiskPinfo) :
    ((∃ fuel out, diskPartitionScan D fuel pdpt = some out) ∧
      ∃ fuel out, oemFdiskGet D uiNPart fuel fdpInfo = some out) ↔
      ¬ Loops D maxDiskparts ∧ ¬ Loops D uiNPart := by
  have hw : 32 ≤ D.word := by omega
  have hmax : 0 < maxDiskparts := by decide
  rw [← ends_iff_not_loops hsize hmax, ← ends_iff_not_loops hsize hpart]
  exact and_congr (scanTable_ends_iff (R := diskPartitionReader D) hw hmax pdpt)
    (scanTable_ends_iff (R := oemFdiskReader D uiNPart) hw hpart fdpInfo)

def chainDisk : Disk :=
  { word := 64, secSize := 512
    sector := fun s =>
      if 8192 ≤ s then none
      else if s = 0 then some (tableSector [(0x0c, 63, 1000), (0x05, 2048, 4096)])
      else if s = 2048 then some (tableSector [(0x0c, 63, 2000)])
      else some fun _ => 0 }

def selfDisk : Disk :=
  { word := 64, secSize := 512
    sector := fun s =>
      if s = 0 then some (tableSector [(0x05, 1, 1)])
      else if s = 1 then some (tableSector [(0x05, 0, 1)])
      else none }

theorem scans_end_chain : ¬ Loops chainDisk maxDiskparts ∧ ¬ Loops chainDisk 4 := by
  have hscan : (diskPartitionScan chainDisk 3 fun _ => default).isSome = true := by
    decide +kernel
  have hget : (oemFdiskGet chainDisk 4 3 fun _ => default).isSome = true := by decide +kernel
  obtain ⟨scan, hscan⟩ := Option.isSome_iff_exists.mp hscan
  obtain ⟨get, hget⟩ := Option.isSome_iff_exists.mp hget
  have hsize : ∀ s, 8192 ≤ s → chainDisk.sector s = none := fun s hs => if_pos hs
  exact (scans_end_iff (Or.inr rfl) hsize (by decide) _ _).mp ⟨⟨3, scan, hscan⟩, 3, get, hget⟩

/-- The record in sector 1 has an entry for sector 1: every call on it makes the same call. -/
theorem self_record_never_ends :
    (∀ fuel, diskPartitionScan selfDisk fuel (fun _ => default) = none) ∧
      ∀ fuel, oemFdiskGet selfDisk 4 fuel (fun _ => default) = none := by
  have hloops : ∀ limit, Loops selfDisk limit := by
    intro limit
    have hroot : Makes selfDisk limit rootCall ⟨1, 1, 0⟩ :=
      ⟨_, rfl, by decide +kernel, MadeBy.here (by decide +kernel) (by decide +kernel)⟩
    have hself : Makes selfDisk limit ⟨1, 1, 0⟩ ⟨1, 1, 0⟩ :=
      ⟨_, rfl, by decide +kernel, MadeBy.here (by decide +kernel) (by decide +kernel)⟩
    exact ⟨_, Relation.ReflTransGen.single hroot, Relation.TransGen.single hself⟩
  have hsize : ∀ s, 2 ≤ s → selfDisk.sector s = none := by
    intro s hs
    exact (if_neg (by omega)).trans (if_neg (by omega))
  have hnone : ∀ {ρ : Type} (R : Reader ρ) (info : Nat → ρ), 0 < R.limit →
      ∀ fuel, scanTable selfDisk R fuel 0 0 0 info = none := by
    intro ρ R info hlimit fuel
    by_contra hne
    have hends := (scanTable_ends_iff (show 32 ≤ selfDisk.word by decide) hlimit info).mp
      ⟨fuel, Option.ne_none_iff_exists'.mp hne⟩
    exact (ends_iff_not_loops hsize hlimit).mp hends (hloops R.limit)
  exact ⟨hnone (diskPartitionReader selfDisk) _ (by decide),
    hnone (oemFdiskReader selfDisk 4) _ (by decide)⟩

end MbrScan

end SylixOS
