import Mathlib.Data.Nat.ModEq
import SylixOS.MbrScan

/-! What `__diskPartitionScan` returns and records for a boot record with a chain of extended boot
records. -/

namespace SylixOS.MbrScan
open SylixOS.ByteBuffer

/-- A boot record and the extended ones that follow it: the entries of each, the extended entry
apart -/
inductive BootRec where
  | last (es : List Entry)
  | link (pre : List Entry) (e : Entry) (post : List Entry) (next : BootRec)

def nextSec (D : Disk) (sec ext : Nat) (e : Entry) : Nat :=
  if sec = 0 then e.startSector else (e.startSector + ext) % 2 ^ D.word

def nextExt (sec ext : Nat) (e : Entry) : Nat := if sec = 0 then e.startSector else ext

def Marked (D : Disk) (sec : Nat) (es : List Entry) : Prop :=
  ∃ buf, D.sector sec = some buf ∧ buf (D.secSize - 2) = 0x55 ∧ buf (D.secSize - 1) = 0xaa ∧
    entries buf = es

def Plain (es : List Entry) : Prop := ∀ e ∈ es, isExtended e.partType = false

namespace BootRec

def On (D : Disk) : BootRec → (sec ext : Nat) → Prop
  | last es, sec, _ => Marked D sec es ∧ Plain es
  | link pre e post next, sec, ext =>
    Marked D sec (pre ++ e :: post) ∧ Plain pre ∧ Plain post ∧ isExtended e.partType = true ∧
      next.On D (nextSec D sec ext e) (nextExt sec ext e)

def sectors (D : Disk) : BootRec → (sec ext : Nat) → List Nat
  | last _, sec, _ => [sec]
  | link _ e _ next, sec, ext =>
    sec :: next.sectors D (nextSec D sec ext e) (nextExt sec ext e)

def links : BootRec → Nat
  | last _ => 0
  | link _ _ _ next => next.links + 1

end BootRec

def node (D : Disk) (sec : Nat) (e : Entry) : DiskpartNode where
  startSector := (sec + e.startSector) % 2 ^ D.word
  nSector := e.nSector
  isActive := e.activeFlag = diskPartActive
  partType := e.partType

def nodes (D : Disk) (sec : Nat) (es : List Entry) : List DiskpartNode :=
  (es.filter fun e => isValid e.partType).map (node D sec)

namespace BootRec

def parts (D : Disk) : BootRec → (sec ext : Nat) → List DiskpartNode
  | last es, sec, _ => nodes D sec es
  | link pre e post next, sec, ext =>
    nodes D sec pre ++
      (next.parts D (nextSec D sec ext e) (nextExt sec ext e) ++ nodes D sec post)

def Tidy : BootRec → Prop
  | last _ => True
  | link _ _ post next => (∀ e ∈ post, isValid e.partType = false) ∧ next.Tidy

end BootRec

variable {D : Disk} {sec ext c : Nat} {es rest : List Entry} {info : Nat → DiskpartNode}

theorem nodes_append (es rest : List Entry) :
    nodes D sec (es ++ rest) = nodes D sec es ++ nodes D sec rest := by
  rw [nodes, List.filter_append, List.map_append]
  rfl

theorem nodes_cons (e : Entry) (es : List Entry) :
    nodes D sec (e :: es) = nodes D sec [e] ++ nodes D sec es :=
  nodes_append [e] es

theorem nodes_valid {e : Entry} (h : isValid e.partType = true) :
    nodes D sec [e] = [node D sec e] := by
  have hfilter : [e].filter (fun e => isValid e.partType) = [e] := List.filter_cons_of_pos h
  rw [nodes, hfilter]
  rfl

theorem nodes_invalid {e : Entry} (h : isValid e.partType = false) : nodes D sec [e] = [] := by
  have hfilter : [e].filter (fun e => isValid e.partType) = [] :=
    List.filter_cons_of_neg (by simp [h])
  rw [nodes, hfilter]
  rfl

theorem nodes_length (sec sec' : Nat) (es : List Entry) :
    (nodes D sec es).length = (nodes D sec' es).length := by
  rw [nodes, nodes, List.length_map, List.length_map]

theorem nodes_eq_nil : nodes D sec es = [] ↔ ∀ e ∈ es, isValid e.partType = false := by
  simp [nodes, List.filter_eq_nil_iff]

theorem nodes_base {sec' : Nat} (hsec : sec < 2 ^ D.word) (hsec' : sec' < 2 ^ D.word)
    (hne : sec ≠ sec') (h : nodes D sec es = nodes D sec' es) :
    ∀ e ∈ es, isValid e.partType = false := by
  rw [nodes, nodes, List.map_inj_left] at h
  intro e he
  by_contra hvalid
  have hnode := h e (List.mem_filter.mpr ⟨he, by simpa using hvalid⟩)
  have hstart : (sec + e.startSector) % 2 ^ D.word = (sec' + e.startSector) % 2 ^ D.word :=
    congrArg DiskpartNode.startSector hnode
  have hmod : sec % 2 ^ D.word = sec' % 2 ^ D.word := Nat.ModEq.add_right_cancel' _ hstart
  rw [Nat.mod_eq_of_lt hsec, Nat.mod_eq_of_lt hsec'] at hmod
  exact hne hmod

theorem isValid_of_ext {e : Entry} (h : isExtended e.partType = true) :
    isValid e.partType = false := by
  simp [isValid, h]

def fill (info : Nat → DiskpartNode) : (c : Nat) → List DiskpartNode → Nat → DiskpartNode
  | _, [] => info
  | c, a :: l => fill (Function.update info c a) (c + 1) l

theorem fill_append (l m : List DiskpartNode) :
    fill info c (l ++ m) = fill (fill info c l) (c + l.length) m := by
  induction l generalizing c info with
  | nil => rfl
  | cons a l ih =>
    rw [List.cons_append, fill, ih, fill, List.length_cons]
    congr 1
    omega

theorem fill_below {i : Nat} (l : List DiskpartNode) (hi : i < c) : fill info c l i = info i := by
  induction l generalizing c info with
  | nil => rfl
  | cons a l ih => rw [fill, ih (Nat.lt_succ_of_lt hi), Function.update_of_ne hi.ne]

theorem fill_get {i : Nat} (l : List DiskpartNode) (hi : i < l.length) :
    fill info c l (c + i) = l[i] := by
  induction l generalizing c info i with
  | nil => exact absurd hi (Nat.not_lt_zero i)
  | cons a l ih =>
    cases i with
    | zero =>
      have hc : c < c + 1 := Nat.lt_succ_self c
      exact (fill_below l hc).trans (Function.update_self c a info)
    | succ i =>
      have hshift : c + (i + 1) = c + 1 + i := by omega
      rw [fill, hshift, ih (Nat.lt_of_succ_lt_succ hi)]
      rfl

theorem scanEntries_plain
    {recur : (start ext counter : Nat) → (Nat → DiskpartNode) →
      Option (Option Nat × (Nat → DiskpartNode))}
    (hplain : Plain es) (hc : c < maxDiskparts)
    (hroom : c + (nodes D sec es).length ≤ maxDiskparts) :
    scanEntries D (diskPartitionReader D) recur (es ++ rest) sec ext c info =
      if maxDiskparts ≤ c + (nodes D sec es).length then
        some (some (c + (nodes D sec es).length), fill info c (nodes D sec es))
      else scanEntries D (diskPartitionReader D) recur rest sec ext
        (c + (nodes D sec es).length) (fill info c (nodes D sec es)) := by
  induction es generalizing c info with
  | nil => exact (if_neg (not_le.mpr hc)).symm
  | cons e es ih =>
    have hext : isExtended e.partType = false := hplain e List.mem_cons_self
    have hrest : Plain es := fun e he => hplain e (List.mem_cons_of_mem _ he)
    rw [nodes_cons] at hroom ⊢
    rw [List.cons_append, scanEntries]
    cases hvalid : isValid e.partType with
    | true =>
      rw [nodes_valid hvalid, List.singleton_append, List.length_cons] at hroom ⊢
      have hsum : c + ((nodes D sec es).length + 1) = c + 1 + (nodes D sec es).length := by omega
      rw [hsum] at hroom ⊢
      rw [if_pos rfl]
      by_cases hfull : maxDiskparts ≤ c + 1
      · have hnil : nodes D sec es = [] := List.length_eq_zero_iff.mp (by omega)
        rw [hnil, List.length_nil, if_pos hfull]
        exact if_pos hfull
      · exact (if_neg hfull).trans (ih hrest (not_le.mp hfull) hroom)
    | false =>
      rw [nodes_invalid hvalid, List.nil_append] at hroom ⊢
      rw [if_neg (by simp), if_neg (by simp [hext])]
      exact (if_neg (not_le.mpr hc)).trans (ih hrest hc hroom)

theorem scanEntries_last
    {recur : (start ext counter : Nat) → (Nat → DiskpartNode) →
      Option (Option Nat × (Nat → DiskpartNode))}
    (hplain : Plain es) (hc : c < maxDiskparts)
    (hroom : c + (nodes D sec es).length ≤ maxDiskparts) :
    scanEntries D (diskPartitionReader D) recur es sec ext c info =
      some (if c + (nodes D sec es).length = 0 then none else some (c + (nodes D sec es).length),
        fill info c (nodes D sec es)) := by
  rw [← List.append_nil es, scanEntries_plain hplain hc hroom, List.append_nil]
  by_cases hfull : maxDiskparts ≤ c + (nodes D sec es).length
  · rw [if_pos hfull, if_neg (by omega)]
  · rw [if_neg hfull, scanEntries]

theorem scanEntries_ext {e : Entry} (hext : isExtended e.partType = true)
    (recur : (start ext counter : Nat) → (Nat → DiskpartNode) →
      Option (Option Nat × (Nat → DiskpartNode))) :
    scanEntries D (diskPartitionReader D) recur (e :: es) sec ext c info =
      match recur (nextSec D sec ext e) (nextExt sec ext e) c info with
      | none => none
      | some (none, info) => some (some c, info)
      | some (some counter, info) =>
        if maxDiskparts ≤ counter then some (some counter, info)
        else scanEntries D (diskPartitionReader D) recur es (nextSec D sec ext e)
          (nextExt sec ext e) counter info := by
  have hsec : (if sec = 0 then e.startSector
      else (e.startSector + if sec = 0 then e.startSector else ext) % 2 ^ D.word) =
        nextSec D sec ext e := by
    rw [nextSec]
    split <;> rfl
  have hnext : (if sec = 0 then e.startSector else ext) = nextExt sec ext e := rfl
  rw [scanEntries, if_neg (by simp [isValid_of_ext hext]), if_pos hext]
  dsimp only
  rw [hsec, hnext]
  cases recur (nextSec D sec ext e) (nextExt sec ext e) c info with
  | none => rfl
  | some out =>
    obtain ⟨ret, info⟩ := out
    cases ret with
    | none => rfl
    | some counter => rfl

theorem scanTable_marked (hmark : Marked D sec es) (fuel : Nat) :
    scanTable D (diskPartitionReader D) (fuel + 1) sec ext c info =
      scanEntries D (diskPartitionReader D) (scanTable D (diskPartitionReader D) fuel) es sec ext c
        info := by
  obtain ⟨buf, hsector, h55, haa, rfl⟩ := hmark
  rw [scanTable, hsector]
  exact if_neg (by simp [h55, haa])

namespace BootRec

variable {t next : BootRec} {pre post : List Entry} {e : Entry}

theorem mem_sectors (t : BootRec) : sec ∈ t.sectors D sec ext := by
  cases t with
  | last => exact List.mem_singleton_self sec
  | link => exact List.mem_cons_self

theorem tidy_of_parts_nil (h : t.parts D sec ext = []) : t.Tidy := by
  induction t generalizing sec ext with
  | last => trivial
  | link pre e post next ih =>
    rw [parts, List.append_eq_nil_iff, List.append_eq_nil_iff] at h
    obtain ⟨-, hnext, hpost⟩ := h
    exact ⟨nodes_eq_nil.mp hpost, ih hnext⟩

theorem parts_eq_iff {l p : List DiskpartNode}
    (hlen : l.length ≤ (next.parts D (nextSec D sec ext e) (nextExt sec ext e)).length)
    (hl : l = next.parts D (nextSec D sec ext e) (nextExt sec ext e) ↔ next.Tidy)
    (hlen' : p.length ≤ (nodes D sec post).length)
    (hp : p = nodes D sec post ↔ ∀ e ∈ post, isValid e.partType = false) :
    nodes D sec pre ++ (l ++ p) = (link pre e post next).parts D sec ext ↔
      (link pre e post next).Tidy := by
  rw [parts, List.append_cancel_left_eq, Tidy, ← hl, ← hp]
  constructor
  · intro h
    have hlength := congrArg List.length h
    rw [List.length_append, List.length_append] at hlength
    obtain ⟨hl, hp⟩ := List.append_inj h (by omega)
    exact ⟨hp, hl⟩
  · rintro ⟨rfl, rfl⟩
    rfl

theorem nextSec_lt (hword : 32 ≤ D.word) (hmark : Marked D sec es) (he : e ∈ es) :
    nextSec D sec ext e < 2 ^ D.word := by
  obtain ⟨buf, -, -, -, rfl⟩ := hmark
  have hstart := (entries_lt buf e he).1
  rw [nextSec]
  split
  · exact hstart.trans_le (Nat.pow_le_pow_right (by omega) hword)
  · exact Nat.mod_lt _ (Nat.two_pow_pos _)

theorem scanEntries_behind
    {recur : (start ext counter : Nat) → (Nat → DiskpartNode) →
      Option (Option Nat × (Nat → DiskpartNode))} {ret : Option Nat} {l : List DiskpartNode}
    (hext : isExtended e.partType = true) (hpost : Plain post) (hsec : sec < 2 ^ D.word)
    (hsec' : nextSec D sec ext e < 2 ^ D.word) (hne : nextSec D sec ext e ≠ sec)
    (hcall : recur (nextSec D sec ext e) (nextExt sec ext e) c info = some (ret, fill info c l))
    (hret : ret = some (c + l.length) ∨ ret = none ∧ c + l.length = 0)
    (hroom : c + l.length + (nodes D sec post).length ≤ maxDiskparts) :
    ∃ ret' p, scanEntries D (diskPartitionReader D) recur (e :: post) sec ext c info =
        some (ret', fill info c (l ++ p)) ∧
      (ret' = some (c + (l ++ p).length) ∨ ret' = none ∧ c + (l ++ p).length = 0) ∧
      p.length ≤ (nodes D sec post).length ∧
      (p = nodes D sec post ↔ ∀ e ∈ post, isValid e.partType = false) ∧
      (c + (l ++ p).length = 0 → (ret' = none ↔ ret ≠ none)) := by
  have hnone : [] = nodes D sec post ↔ ∀ e ∈ post, isValid e.partType = false :=
    eq_comm.trans nodes_eq_nil
  rw [scanEntries_ext hext, hcall]
  rcases hret with rfl | ⟨rfl, hzero⟩
  · by_cases hfull : maxDiskparts ≤ c + l.length
    · have hpos : 0 < maxDiskparts := by decide
      refine ⟨some (c + l.length), [], ?_, Or.inl ?_, Nat.zero_le _, hnone, ?_⟩
      · rw [List.append_nil]
        exact if_pos hfull
      · rw [List.append_nil]
      · rw [List.append_nil]
        omega
    · have hlen : (nodes D (nextSec D sec ext e) post).length = (nodes D sec post).length :=
        nodes_length _ _ _
      have hsum : c + (l ++ nodes D (nextSec D sec ext e) post).length =
          c + l.length + (nodes D (nextSec D sec ext e) post).length := by
        rw [List.length_append, Nat.add_assoc]
      refine ⟨if c + l.length + (nodes D (nextSec D sec ext e) post).length = 0 then none
        else some (c + l.length + (nodes D (nextSec D sec ext e) post).length),
        nodes D (nextSec D sec ext e) post, (if_neg hfull).trans ?_, ?_, hlen.le,
        ⟨nodes_base hsec' hsec hne, fun hinvalid => ?_⟩, fun hzero => ?_⟩
      · rw [scanEntries_last hpost (not_le.mp hfull) (by omega), fill_append]
      · rw [hsum]
        split
        · next hzero => exact Or.inr ⟨rfl, hzero⟩
        · exact Or.inl rfl
      · rw [nodes_eq_nil.mpr hinvalid, nodes_eq_nil.mpr hinvalid]
      · rw [hsum] at hzero
        exact iff_of_true (if_pos hzero) fun h => nomatch h
  · have hnil : l = [] := List.length_eq_zero_iff.mp (by omega)
    subst hnil
    exact ⟨some c, [], rfl, Or.inl rfl, Nat.zero_le _, hnone,
      fun _ => iff_of_false (fun h => nomatch h) (not_not.mpr rfl)⟩

theorem scan (hword : 32 ≤ D.word) (info : Nat → DiskpartNode) (hsec : sec < 2 ^ D.word) (on : t.On D sec ext)
    (nodup : (t.sectors D sec ext).Nodup) (hc : c < maxDiskparts)
    (hroom : c + (t.parts D sec ext).length ≤ maxDiskparts) {fuel : Nat} (hfuel : t.links < fuel) :
    ∃ ret l, scanTable D (diskPartitionReader D) fuel sec ext c info = some (ret, fill info c l) ∧
      (ret = some (c + l.length) ∨ ret = none ∧ c + l.length = 0) ∧
      l.length ≤ (t.parts D sec ext).length ∧ (l = t.parts D sec ext ↔ t.Tidy) ∧
      (c + l.length = 0 → (ret = none ↔ Even t.links)) := by
  induction t generalizing sec ext c info fuel with
  | last es =>
    obtain ⟨hmark, hplain⟩ := on
    obtain ⟨fuel, rfl⟩ := Nat.exists_eq_succ_of_ne_zero hfuel.ne_bot
    rw [Nat.succ_eq_add_one, scanTable_marked hmark, scanEntries_last hplain hc hroom]
    refine ⟨_, _, rfl, ?_, le_rfl, iff_of_true rfl trivial, fun hnone => ?_⟩
    · by_cases hnone : c + (nodes D sec es).length = 0
      · exact Or.inr ⟨if_pos hnone, hnone⟩
      · exact Or.inl (if_neg hnone)
    · exact iff_of_true (if_pos hnone) (by decide : Even 0)
  | link pre e post next ih =>
    obtain ⟨hmark, hpre, hpost, hext, hon⟩ := on
    obtain ⟨fuel, rfl⟩ := Nat.exists_eq_succ_of_ne_zero (Nat.ne_zero_of_lt hfuel)
    have hsec' : nextSec D sec ext e < 2 ^ D.word := nextSec_lt hword hmark (by simp)
    rw [sectors, List.nodup_cons] at nodup
    have hne : nextSec D sec ext e ≠ sec := 
      ne_of_mem_of_not_mem (mem_sectors next) nodup.1
    have hlength : ((link pre e post next).parts D sec ext).length = (nodes D sec pre).length +
        ((next.parts D (nextSec D sec ext e) (nextExt sec ext e)).length +
          (nodes D sec post).length) := by
      rw [parts, List.length_append, List.length_append]
    rw [hlength] at hroom ⊢
    rw [Nat.succ_eq_add_one, scanTable_marked hmark, scanEntries_plain hpre hc (by omega)]
    by_cases hfull : maxDiskparts ≤ c + (nodes D sec pre).length
    · -- no room is left, and no partition either
      have hnil : next.parts D (nextSec D sec ext e) (nextExt sec ext e) = [] :=
        List.length_eq_zero_iff.mp (by omega)
      have hnil' : nodes D sec post = [] := List.length_eq_zero_iff.mp (by omega)
      have htidy : (link pre e post next).Tidy := ⟨nodes_eq_nil.mp hnil', tidy_of_parts_nil hnil⟩
      rw [if_pos hfull]
      refine ⟨_, _, rfl, Or.inl rfl, Nat.le_add_right _ _, iff_of_true ?_ htidy, by omega⟩
      rw [parts, hnil, hnil', List.nil_append, List.append_nil]
    · have hc' : c + (nodes D sec pre).length < maxDiskparts := not_le.mp hfull
      obtain ⟨ret, l, hscan, hret, hlen, htidy, heven⟩ := ih (fill info c (nodes D sec pre))
        hsec' hon nodup.2 hc' (by omega) (Nat.lt_of_succ_lt_succ hfuel)
      obtain ⟨ret', p, hbehind, hret', hlen', hbase, hturn⟩ := scanEntries_behind hext hpost hsec
        hsec' hne hscan hret (by omega)
      have hall : c + (nodes D sec pre ++ (l ++ p)).length =
          c + (nodes D sec pre).length + (l ++ p).length := by
        rw [List.length_append, Nat.add_assoc]
      rw [if_neg hfull, hbehind, ← fill_append]
      refine ⟨ret', nodes D sec pre ++ (l ++ p), rfl, ?_, ?_,
        parts_eq_iff hlen htidy hlen' hbase, fun hzero => ?_⟩
      · rw [hall]
        exact hret'
      · rw [List.length_append, List.length_append]
        omega
      · rw [hall] at hzero
        have hzero' : c + (nodes D sec pre).length + l.length = 0 := by
          rw [List.length_append] at hzero
          omega
        rw [hturn hzero, ne_eq, heven hzero', links, Nat.even_add_one]

end BootRec

def Records (parts : List DiskpartNode) (out : Option Nat × (Nat → DiskpartNode)) : Prop :=
  out.1 = some parts.length ∧ ∀ i, (hi : i < parts.length) → out.2 i = parts[i]

/-- `__diskPartitionScan` finds the partitions of a disk with a chain of boot records exactly if
none stands behind an extended entry, and if there is one or the number of extended entries is
odd. -/
theorem scan_records_iff {t : BootRec} (hword : D.word = 32 ∨ D.word = 64) (on : t.On D 0 0)
    (nodup : (t.sectors D 0 0).Nodup) (hroom : (t.parts D 0 0).length ≤ maxDiskparts) :
    ∃ out, (∀ fuel, t.links < fuel → diskPartitionScan D fuel info = some out) ∧
      (Records (t.parts D 0 0) out ↔
        t.Tidy ∧ (t.parts D 0 0 ≠ [] ∨ Odd t.links)) := by
  have hw : 32 ≤ D.word := by omega
  have hmax : 0 < maxDiskparts := by decide
  have hroom' : 0 + (t.parts D 0 0).length ≤ maxDiskparts := by omega
  obtain ⟨ret, l, hscan, hret, hlen, htidy, heven⟩ :=
    t.scan hw info (Nat.two_pow_pos _) on nodup hmax hroom' (Nat.lt_succ_self _)
  refine ⟨_, fun fuel hfuel => scanTable_le hfuel hscan, ?_⟩
  rw [Nat.zero_add] at hret heven
  constructor
  · rintro ⟨hcount, hnode⟩
    have hlength : l.length = (t.parts D 0 0).length := by
      rcases hret with hret | ⟨hret, -⟩
      · exact Option.some.inj (hret.symm.trans hcount)
      · exact nomatch hret.symm.trans hcount
    have hl : l = t.parts D 0 0 := by
      refine List.ext_getElem hlength fun i hi hi' => ?_
      have hget : fill info 0 l (0 + i) = l[i] := fill_get l hi
      rw [Nat.zero_add] at hget
      exact hget.symm.trans (hnode i hi')
    refine ⟨htidy.mp hl, ?_⟩
    rw [or_iff_not_imp_left, not_not, ← Nat.not_even_iff_odd]
    intro hnil heven'
    have hzero : l.length = 0 := by rw [hl, hnil, List.length_nil]
    exact nomatch ((heven hzero).mpr heven').symm.trans hcount
  · rintro ⟨htidy', hsome⟩
    obtain rfl := htidy.mpr htidy'
    refine ⟨?_, fun i hi => ?_⟩
    · refine hret.resolve_right ?_
      rintro ⟨hnone, hzero⟩
      have hodd : Odd t.links := hsome.resolve_left (not_not.mpr (List.length_eq_zero_iff.mp hzero))
      exact Nat.not_even_iff_odd.mpr hodd ((heven hzero).mp hnone)
    · have hget : fill info 0 (t.parts D 0 0) (0 + i) = (t.parts D 0 0)[i] := fill_get _ hi
      rwa [Nat.zero_add] at hget

/-! A primary partition in sector 63 and an extended one in sector 2048 with one logical partition:
on `logicalDisk` the primary entry comes first, on `swappedDisk` the extended one. -/

def emptyEntry : Entry := ⟨0, 0, 0, 0⟩

def logicalRec : BootRec := .last [⟨0, 0x0c, 63, 2000⟩, emptyEntry, emptyEntry, emptyEntry]

def primaryFirst : BootRec :=
  .link [⟨0, 0x0c, 63, 1000⟩] ⟨0, 0x05, 2048, 4096⟩ [emptyEntry, emptyEntry] logicalRec

def extendedFirst : BootRec :=
  .link [] ⟨0, 0x05, 2048, 4096⟩ [⟨0, 0x0c, 63, 1000⟩, emptyEntry, emptyEntry] logicalRec

def swappedDisk : Disk :=
  { word := 64, secSize := 512
    sector := fun s =>
      if s = 0 then some (tableSector [(0x05, 2048, 4096), (0x0c, 63, 1000)])
      else if s = 2048 then some (tableSector [(0x0c, 63, 2000)])
      else some fun _ => 0 }

theorem primaryFirst_on : primaryFirst.On logicalDisk 0 0 :=
  ⟨⟨_, rfl, by decide +kernel, by decide +kernel, by decide +kernel⟩, by unfold Plain; decide,
    by unfold Plain; decide, by decide,
    ⟨_, rfl, by decide +kernel, by decide +kernel, by decide +kernel⟩, by unfold Plain; decide⟩

theorem extendedFirst_on : extendedFirst.On swappedDisk 0 0 :=
  ⟨⟨_, rfl, by decide +kernel, by decide +kernel, by decide +kernel⟩, by unfold Plain; decide,
    by unfold Plain; decide, by decide,
    ⟨_, rfl, by decide +kernel, by decide +kernel, by decide +kernel⟩, by unfold Plain; decide⟩

theorem scan_records_primary_first : ∃ out,
    (∀ fuel, 1 < fuel → diskPartitionScan logicalDisk fuel (fun _ => default) = some out) ∧
      (Records (primaryFirst.parts logicalDisk 0 0) out ↔ primaryFirst.Tidy ∧
        (primaryFirst.parts logicalDisk 0 0 ≠ [] ∨ Odd primaryFirst.links)) :=
  scan_records_iff (Or.inr rfl) primaryFirst_on (by decide +kernel) (by decide +kernel)

/-- The primary partition in sector 63 is reported in sector 2048 + 63. -/
theorem scan_misplaces_primary : extendedFirst.On swappedDisk 0 0 ∧
    (extendedFirst.sectors swappedDisk 0 0).Nodup ∧
    (extendedFirst.parts swappedDisk 0 0).length ≤ maxDiskparts ∧
    ∃ out, diskPartitionScan swappedDisk 2 (fun _ => default) = some out ∧
      ((extendedFirst.parts swappedDisk 0 0).map fun n => n.startSector) = [2111, 63] ∧
      (out.2 1).startSector = 2111 ∧ ¬ Records (extendedFirst.parts swappedDisk 0 0) out := by
  refine ⟨extendedFirst_on, by decide +kernel, by decide +kernel, ?_⟩
  have hscan : (diskPartitionScan swappedDisk 2 fun _ => default).map
      (fun out => (out.2 1).startSector) = some 2111 := by decide +kernel
  obtain ⟨out, hscan, hstart⟩ := Option.map_eq_some_iff.mp hscan
  refine ⟨out, hscan, by decide +kernel, hstart, ?_⟩
  rintro ⟨-, hnode⟩
  have hone : (out.2 1).startSector = 63 :=
    (congrArg DiskpartNode.startSector (hnode 1 (by decide +kernel))).trans (by decide +kernel)
  exact absurd (hstart.symm.trans hone) (by decide)

end SylixOS.MbrScan
