import SylixOS.TpsTransRing

/-! Storing a header: it reads back as stored, and the ring advances by
one commit. -/

namespace SylixOS.TpsTrans
open SylixOS.ByteBuffer SylixOS.SectorDevice SylixOS.SerialRing

variable {G : Geom}

structure HeadOk (G : Geom) (t : TransHead) : Prop where
  magic : t.magic = transMagic
  generation : t.generation = G.generation
  reserved : t.reserved < 2 ^ 32
  serialNum : t.serialNum < 2 ^ 64
  type : t.type < 2 ^ 32
  status : t.status < 2 ^ 32
  reserved64 : t.reserved64 < 2 ^ 64
  time : t.time < 2 ^ 64
  dataSecNum : t.dataSecNum < 2 ^ 64
  dataSecCnt : t.dataSecCnt < 2 ^ 32

theorem transCheckSum_seal (t : TransHead) : transCheckSum (sealHead t) = (sealHead t).checkSum :=
  rfl

theorem transCheckSum_lt (t : TransHead) : transCheckSum t < 2 ^ 32 := Nat.mod_lt _ (by norm_num)

structure HeadFits (t : TransHead) : Prop where
  magic : t.magic < 2 ^ 32
  reserved : t.reserved < 2 ^ 32
  generation : t.generation < 2 ^ 64
  serialNum : t.serialNum < 2 ^ 64
  type : t.type < 2 ^ 32
  status : t.status < 2 ^ 32
  reserved64 : t.reserved64 < 2 ^ 64
  time : t.time < 2 ^ 64
  dataSecNum : t.dataSecNum < 2 ^ 64
  dataSecCnt : t.dataSecCnt < 2 ^ 32

theorem HeadOk.fits (hG : G.Valid) {t : TransHead} (ht : HeadOk G t) : HeadFits t :=
  { ht with
    magic := ht.magic.trans_lt (by decide)
    generation := ht.generation.trans_lt hG.generation_lt }

theorem HeadFits.getTransHead_putFields {t : TransHead} (ht : HeadFits t)
    (hsum : t.checkSum < 2 ^ 32) (b : Bytes) (pos : Nat) :
    getTransHead (putFields b pos (transHeadFields t)) pos = t := by
  have h := getFields_putFields b pos (transHeadFields t)
  simp only [transHeadFields, List.map_cons, List.map_nil, getFields, List.cons.injEq, and_true,
    Nat.add_assoc, Nat.reduceAdd] at h
  obtain ⟨e0, e1, e2, e3, e4, e5, e6, e7, e8, e9, e10⟩ := h
  simp only [getTransHead, transHeadFields, e0, e1, e2, e3, e4, e5, e6, e7, e8, e9, e10]
  have m4 : ∀ {x : Nat}, x < 2 ^ 32 → x % 256 ^ 4 = x := fun hx => Nat.mod_eq_of_lt (by omega)
  have m8 : ∀ {x : Nat}, x < 2 ^ 64 → x % 256 ^ 8 = x := fun hx => Nat.mod_eq_of_lt (by omega)
  rw [m4 ht.magic, m4 ht.reserved, m8 ht.generation, m8 ht.serialNum, m4 ht.type, m4 ht.status,
    m8 ht.reserved64, m8 ht.time, m8 ht.dataSecNum, m4 ht.dataSecCnt, m4 hsum]

theorem tpsFsTransUnserial_putFields (hG : G.Valid) {t : TransHead} (ht : HeadOk G t) (b : Bytes)
    (pos : Nat) :
    tpsFsTransUnserial G (putFields b pos (transHeadFields (sealHead t))) pos = sealHead t := by
  have hseal : HeadOk G (sealHead t) :=
    ⟨ht.magic, ht.generation, ht.reserved, ht.serialNum, ht.type, ht.status, ht.reserved64,
      ht.time, ht.dataSecNum, ht.dataSecCnt⟩
  have hget := (hseal.fits hG).getTransHead_putFields (transCheckSum_lt t) b pos
  rw [tpsFsTransUnserial]
  simp only [hget]
  rw [if_neg]
  rintro (h | h | h)
  · exact h (transCheckSum_seal t)
  · exact h ht.magic
  · exact h ht.generation

structure BufOk (G : Geom) (d : Nat → Sector G.sectorShift) (i : Nat) (b : Bytes) : Prop where
  before : ∀ j, j / G.slotPerSec = i / G.slotPerSec → j < i →
    tpsFsTransUnserial G b (slotOff G j) = slotHead G d j
  behind : ∀ j, j / G.slotPerSec = i / G.slotPerSec → i < j →
    (tpsFsTransUnserial G b (slotOff G j)).status = statusUninit

theorem fieldsLen_head (t : TransHead) : fieldsLen (transHeadFields t) = 64 := rfl

theorem slotOff_apart {i j : Nat} (hpage : j / G.slotPerSec = i / G.slotPerSec) (hne : j ≠ i) :
    slotOff G j + 64 ≤ slotOff G i ∨ slotOff G i + 64 ≤ slotOff G j := by
  have hi := Nat.div_add_mod i G.slotPerSec
  have hj := Nat.div_add_mod j G.slotPerSec
  rw [hpage] at hj
  rw [slotOff, slotOff]
  omega

structure Stored (G : Geom) (d d' : Nat → Sector G.sectorShift) (i : Nat) (t : TransHead)
    (b : Bytes) : Prop where
  sector : d' (slotSec G i) = sectorOf (putFields b (slotOff G i) (transHeadFields t)) 0
  other : ∀ s, G.transSecStart ≤ s → s < G.transDataStart → s ≠ slotSec G i → d' s = d s

theorem slotSec_eq_iff {i j : Nat} :
    slotSec G j = slotSec G i ↔ j / G.slotPerSec = i / G.slotPerSec := by
  rw [slotSec, slotSec]
  omega

theorem slotSec_ge (i : Nat) : G.transSecStart ≤ slotSec G i := Nat.le_add_right _ _

theorem Stored.slotHead_page {d d' : Nat → Sector G.sectorShift} {i j : Nat} {t : TransHead}
    {b : Bytes} (hG : G.Valid) (h : Stored G d d' i t b)
    (hpage : j / G.slotPerSec = i / G.slotPerSec) :
    slotHead G d' j =
      tpsFsTransUnserial G (putFields b (slotOff G i) (transHeadFields t)) (slotOff G j) := by
  have hsec := slotSec_eq_iff.mpr hpage
  refine (slotHead_congr hG ?_).symm
  intro p hp
  rw [hsec, h.sector, sectorByte_sectorOf _ hp]

theorem Stored.slotHead_self {d d' : Nat → Sector G.sectorShift} {i : Nat} {t : TransHead}
    {b : Bytes} (hG : G.Valid) (h : Stored G d d' i (sealHead t) b) (ht : HeadOk G t) :
    slotHead G d' i = sealHead t := by
  rw [h.slotHead_page hG rfl, tpsFsTransUnserial_putFields hG ht]

theorem Stored.slotHead_other {d d' : Nat → Sector G.sectorShift} {i j : Nat} {t : TransHead}
    {b : Bytes} (hG : G.Valid) (h : Stored G d d' i t b)
    (hpage : j / G.slotPerSec = i / G.slotPerSec) (hne : j ≠ i) :
    slotHead G d' j = tpsFsTransUnserial G b (slotOff G j) := by
  rw [h.slotHead_page hG hpage]
  refine tpsFsTransUnserial_congr ?_
  intro p hp
  refine putFields_outside _ _ _ ?_
  rw [fieldsLen_head]
  have hapart := slotOff_apart hpage hne
  omega

theorem Stored.slotHead_far {d d' : Nat → Sector G.sectorShift} {i j : Nat} {t : TransHead}
    {b : Bytes} (h : Stored G d d' i t b) (hj : j < G.slotCnt)
    (hpage : j / G.slotPerSec ≠ i / G.slotPerSec) : slotHead G d' j = slotHead G d j := by
  have hne : slotSec G j ≠ slotSec G i := fun hc => hpage (slotSec_eq_iff.mp hc)
  rw [slotHead, slotHead, h.other _ (slotSec_ge j) (slotSec_lt hj) hne]

theorem Stored.ring {d d' : Nat → Sector G.sectorShift} {n : Nat} {t : TransHead} {b : Bytes}
    (hG : G.Valid) (h : Stored G d d' (n % G.slotCnt) (sealHead t) b) (ht : HeadOk G t)
    (hstatus : t.status ≠ statusUninit) (hserial : t.serialNum = n)
    (hbuf : BufOk G d (n % G.slotCnt) b) (hring : Ring G d n ∨ Ring G d (n + 1)) :
    Ring G d' (n + 1) := by
  have hN := slotCnt_ge hG
  have hP := G.slotPerSec_pos
  intro i hi
  have hsucc := ringAt_succ hP (by omega : 1 < G.slotCnt) n hi
  have hsame : ∀ j < G.slotCnt,
      (j / G.slotPerSec = n % G.slotCnt / G.slotPerSec → j < n % G.slotCnt) →
      slotSerial G d j = ringAt G.slotCnt G.slotPerSec (n + 1) j := by
    intro j hj hcase
    rcases hring with hr | hr
    · rw [hr j hj, ringAt_succ hP (by omega : 1 < G.slotCnt) n hj]
      split
      · rename_i hpage
        rw [if_pos (hcase hpage)]
      · rfl
    · exact hr j hj
  by_cases hpage : i / G.slotPerSec = n % G.slotCnt / G.slotPerSec
  · rcases Nat.lt_trichotomy i (n % G.slotCnt) with hlt | heq | hgt
    · rw [slotSerial, h.slotHead_other hG hpage (by omega), hbuf.before i hpage hlt]
      exact hsame i hi (fun _ => hlt)
    · rw [slotSerial, heq, h.slotHead_self hG ht, ringAt_newest,
        if_neg (show (sealHead t).status ≠ statusUninit from hstatus)]
      exact congrArg some hserial
    · rw [slotSerial, h.slotHead_other hG hpage (by omega), if_pos (hbuf.behind i hpage hgt), hsucc,
        if_pos hpage, if_neg (by omega), if_neg (by omega)]
  · rw [slotSerial, h.slotHead_far hi hpage]
    exact hsame i hi (fun hc => absurd hc hpage)

theorem page_lt {i j : Nat} (hpage : j / G.slotPerSec = i / G.slotPerSec) (hi : i < G.slotCnt) :
    j < G.slotCnt := by
  rw [slotCnt_eq, ← Nat.div_lt_iff_lt_mul G.slotPerSec_pos] at hi ⊢
  omega

theorem slotSerial_eq_none {d : Nat → Sector G.sectorShift} {i : Nat}
    (h : slotSerial G d i = none) : (slotHead G d i).status = statusUninit := by
  by_contra hvalid
  rw [slotSerial_of_ok hvalid] at h
  cases h

theorem Ring.behind {d : Nat → Sector G.sectorShift} {n j : Nat} (hG : G.Valid)
    (hring : Ring G d (n + 1)) (hpage : j / G.slotPerSec = n % G.slotCnt / G.slotPerSec)
    (hj : n % G.slotCnt < j) : (slotHead G d j).status = statusUninit := by
  have hN := slotCnt_ge hG
  have hlt := page_lt hpage (Nat.mod_lt n (by omega))
  have hat := hring j hlt
  rw [ringAt_succ G.slotPerSec_pos (by omega) n hlt, if_pos hpage, if_neg (by omega),
    if_neg (by omega)] at hat
  exact slotSerial_eq_none hat

def PageOk (G : Geom) (d : Nat → Sector G.sectorShift) (i : Nat) (b : Bytes) : Prop :=
  ∀ j, j / G.slotPerSec = i / G.slotPerSec →
    tpsFsTransUnserial G b (slotOff G j) = slotHead G d j

theorem PageOk.bufOk {d : Nat → Sector G.sectorShift} {n : Nat} {b : Bytes} (hG : G.Valid)
    (h : PageOk G d (n % G.slotCnt) b) (hring : Ring G d (n + 1)) :
    BufOk G d (n % G.slotCnt) b := by
  refine ⟨fun j hpage _ => h j hpage, ?_⟩
  intro j hpage hj
  rw [h j hpage]
  exact hring.behind hG hpage hj

theorem PageOk.bufOk_empty {d : Nat → Sector G.sectorShift} {b : Bytes} (hG : G.Valid)
    (h : PageOk G d 0 b) (hring : Ring G d 0) : BufOk G d 0 b := by
  have hN := slotCnt_ge hG
  refine ⟨fun j hpage _ => h j hpage, ?_⟩
  intro j hpage _
  rw [h j hpage]
  exact slotSerial_eq_none (hring j (page_lt hpage (by omega)))

theorem tpsFsTransUnserial_zero (pos : Nat) :
    (tpsFsTransUnserial G (fun _ => 0) pos).status = statusUninit := by
  rw [tpsFsTransUnserial, if_pos]
  exact Or.inr (Or.inl (by simp [getTransHead, getLE, transMagic]))

theorem nextSlot_spec {d : Nat → Sector G.sectorShift} {n k : Nat} (st : Vol k) (hG : G.Valid)
    (hring : Ring G d (n + 1)) (hsec : st.transCurSec = slotSec G (n % G.slotCnt))
    (hoff : st.transSecOff = slotOff G (n % G.slotCnt))
    (hpage : PageOk G d (n % G.slotCnt) st.secBuff) :
    (nextSlot G st).transCurSec = slotSec G ((n + 1) % G.slotCnt) ∧
      (nextSlot G st).transSecOff = slotOff G ((n + 1) % G.slotCnt) ∧
      BufOk G d ((n + 1) % G.slotCnt) (nextSlot G st).secBuff := by
  have hN := slotCnt_ge hG
  have hP := G.slotPerSec_pos
  have hlt := Nat.mod_lt n (by omega : G.slotCnt > 0)
  have hsucc := succ_mod_cases (by omega : 1 < G.slotCnt) n
  have hsize := sectorSize_eq_slots hG
  have hbehind := fun j => hring.behind (j := j) hG
  have hmod := Nat.mod_lt (n % G.slotCnt) hP
  have hdm := Nat.div_add_mod (n % G.slotCnt) G.slotPerSec
  have hcnt := slotCnt_eq G
  generalize n % G.slotCnt = m at *
  by_cases hlast : m % G.slotPerSec + 1 = G.slotPerSec
  · -- the page is full
    have hm : m + 1 = (m / G.slotPerSec + 1) * G.slotPerSec := by
      rw [Nat.add_mul, Nat.mul_comm]
      omega
    have hfull : G.sectorSize ≤ st.transSecOff + Geom.tranSize := by
      rw [hoff, slotOff, Geom.tranSize, hsize]
      omega
    have hzero : (n + 1) % G.slotCnt % G.slotPerSec = 0 := by
      rcases hsucc with ⟨-, hnext⟩ | ⟨-, hnext⟩
      · rw [hnext, Nat.zero_mod]
      · rw [hnext, hm, Nat.mul_mod_left]
    refine ⟨?_, ?_, ?_⟩
    · simp only [nextSlot, if_pos hfull, hsec, slotSec]
      rcases hsucc with ⟨hwrap, hnext⟩ | ⟨hwrap, hnext⟩
      · have hdiv : m / G.slotPerSec + 1 = G.transSecCnt := by
          rw [hwrap, hcnt] at hm
          exact (Nat.eq_of_mul_eq_mul_right hP hm).symm
        rw [hnext, if_pos (by omega), Nat.zero_div, Nat.add_zero]
      · have hdiv : m / G.slotPerSec + 1 < G.transSecCnt := by
          rw [hm, hcnt] at hwrap
          exact Nat.lt_of_mul_lt_mul_right hwrap
        rw [hnext, if_neg (by omega), hm, Nat.mul_div_cancel _ hP, Nat.add_assoc]
    · simp only [nextSlot, if_pos hfull, slotOff, hzero, Nat.zero_mul]
    · simp only [nextSlot, if_pos hfull]
      refine ⟨?_, fun j _ _ => tpsFsTransUnserial_zero _⟩
      intro j hj hjlt
      have h1 := Nat.div_add_mod ((n + 1) % G.slotCnt) G.slotPerSec
      have h2 := Nat.div_add_mod j G.slotPerSec
      rw [hj] at h2
      omega
  · have hsame : m + 1 = G.slotPerSec * (m / G.slotPerSec) + (m % G.slotPerSec + 1) := by omega
    have hdiv : (m + 1) / G.slotPerSec = m / G.slotPerSec := by
      have hsmall : m % G.slotPerSec + 1 < G.slotPerSec := by omega
      rw [hsame, Nat.mul_add_div hP, Nat.div_eq_of_lt hsmall, Nat.add_zero]
    have hmod1 : (m + 1) % G.slotPerSec = m % G.slotPerSec + 1 := by
      rw [hsame, Nat.mul_add_mod, Nat.mod_eq_of_lt (by omega)]
    have hnext : (n + 1) % G.slotCnt = m + 1 := by
      rcases hsucc with ⟨hwrap, -⟩ | ⟨-, hnext⟩
      · rw [hwrap, hcnt, Nat.mul_mod_left] at hmod1
        omega
      · exact hnext
    have hroom : ¬ G.sectorSize ≤ st.transSecOff + Geom.tranSize := by
      rw [hoff, slotOff, Geom.tranSize, hsize]
      omega
    refine ⟨?_, ?_, ?_⟩
    · simp only [nextSlot, if_neg hroom, hsec, slotSec, hnext, hdiv]
    · rw [nextSlot, if_neg hroom]
      simp only [hoff, slotOff, hnext, hmod1, Geom.tranSize]
      omega
    · simp only [nextSlot, if_neg hroom, hnext]
      refine ⟨fun j hj _ => hpage j (by omega), ?_⟩
      intro j hj hjlt
      rw [hpage j (by omega)]
      exact hbehind j (by omega) (by omega)

theorem Stored.pageOk {d d' : Nat → Sector G.sectorShift} {i : Nat} {t : TransHead} {b : Bytes}
    (hG : G.Valid) (h : Stored G d d' i t b) :
    PageOk G d' i (putFields b (slotOff G i) (transHeadFields t)) :=
  fun _ hj => (h.slotHead_page hG hj).symm

end SylixOS.TpsTrans
