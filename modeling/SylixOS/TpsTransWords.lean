import Mathlib.Algebra.BigOperators.Group.Finset.Piecewise
import SylixOS.TpsTransHead
import SylixOS.TpsTransOverlay

/-! A stored header as sixteen words of 32 bits. Its checksum is the sum of fourteen of them: the
low half of `TRANS_uiDataSecNum` is left out. -/

namespace SylixOS.TpsTrans
open SylixOS.ByteBuffer Function

def word (b : Bytes) (pos k : Nat) : Nat := getLE 4 b (pos + 4 * k)

def replaceWord (b : Bytes) (pos k w : Nat) : Bytes := putLE 4 w b (pos + 4 * k)

theorem word_lt (b : Bytes) (pos k : Nat) : word b pos k < 2 ^ 32 := getLE_lt 4 b _

theorem word_replaceWord {b : Bytes} {pos k w : Nat} (hw : w < 2 ^ 32) :
    word (replaceWord b pos k w) pos = update (word b pos) k w := by
  funext j
  by_cases hj : j = k
  · subst hj
    rw [update_self, word, replaceWord, getLE_putLE]
    exact Nat.mod_eq_of_lt hw
  · rw [update_of_ne hj]
    refine getLE_congr 4 fun i hi => ?_
    exact patch_outside _ _ (by omega)

theorem getLE_eight (b : Bytes) (pos : Nat) :
    getLE 8 b pos = getLE 4 b pos + 2 ^ 32 * getLE 4 b (pos + 4) := by
  simp only [getLE, Nat.add_assoc, Nat.reduceAdd]
  omega

theorem u32_getLE_eight (b : Bytes) (pos : Nat) : u32 (getLE 8 b pos) = getLE 4 b pos := by
  have hlt : getLE 4 b pos < 2 ^ 32 := getLE_lt 4 b pos
  rw [getLE_eight, u32]
  omega

theorem getLE_eight_shift (b : Bytes) (pos : Nat) :
    u32 (getLE 8 b pos >>> 32) = getLE 4 b (pos + 4) := by
  have hlt : getLE 4 b pos < 2 ^ 32 := getLE_lt 4 b pos
  have hlt' : getLE 4 b (pos + 4) < 2 ^ 32 := getLE_lt 4 b (pos + 4)
  rw [getLE_eight, u32, Nat.shiftRight_eq_div_pow]
  omega

def checkWords : Finset Nat := (Finset.range 15).erase 12

theorem transCheckSum_getTransHead (b : Bytes) (pos : Nat) :
    transCheckSum (getTransHead b pos) = u32 (∑ k ∈ checkWords, word b pos k) := by
  have hwords : checkWords = {0, 1, 2, 3, 4, 5, 6, 7, 8, 9, 10, 11, 13, 14} := by decide
  rw [hwords]
  simp only [transCheckSum, getTransHead, u32_getLE_eight, getLE_eight_shift, Nat.add_assoc,
    Nat.reduceAdd, word]
  simp

theorem checkSum_update {f : Nat → Nat} {k w : Nat} (hk : k ∈ checkWords) (hw : w < 2 ^ 32)
    (hf : f k < 2 ^ 32) (hne : w ≠ f k) :
    u32 (∑ j ∈ checkWords, update f k w j) ≠ u32 (∑ j ∈ checkWords, f j) := by
  rw [Finset.sum_update_of_mem hk, Finset.sum_eq_add_sum_sdiff_singleton_of_mem hk f, u32, u32]
  omega

variable {G : Geom} {t : TransHead} {b : Bytes} {pos k w : Nat}

structure Words (f : Nat → Nat) (t : TransHead) : Prop where
  magic : f 0 = t.magic
  generation : f 2 + 2 ^ 32 * f 3 = t.generation
  status : f 7 = t.status
  checkSum : f 15 = t.checkSum
  sum : u32 (∑ j ∈ checkWords, f j) = transCheckSum t

theorem words_getTransHead (b : Bytes) (pos : Nat) : Words (word b pos) (getTransHead b pos) where
  magic := rfl
  generation := (getLE_eight b (pos + 8)).symm
  status := rfl
  checkSum := rfl
  sum := (transCheckSum_getTransHead b pos).symm

theorem tpsFsTransUnserial_status :
    (tpsFsTransUnserial G b pos).status = statusUninit ↔
      word b pos 7 = statusUninit ∨ u32 (∑ j ∈ checkWords, word b pos j) ≠ word b pos 15 ∨
        word b pos 0 ≠ transMagic ∨ word b pos 2 + 2 ^ 32 * word b pos 3 ≠ G.generation := by
  have words := words_getTransHead b pos
  rw [words.magic, words.generation, words.status, words.checkSum, words.sum, tpsFsTransUnserial]
  split
  · rename_i hbad
    exact ⟨fun _ => Or.inr hbad, fun _ => rfl⟩
  · rename_i hgood
    exact ⟨Or.inl, fun h => h.resolve_right hgood⟩

theorem HeadFits.getTransHead_serial (fits : HeadFits t) :
    getTransHead (tpsFsTransSerial t b pos).2 pos = sealHead t :=
  HeadFits.getTransHead_putFields (t := sealHead t) { fits with } (transCheckSum_lt t) b pos

theorem HeadFits.unserial_serial (fits : HeadFits t) :
    tpsFsTransUnserial G (tpsFsTransSerial t b pos).2 pos = (tpsFsTransSerial t b pos).1 ↔
      t.status = statusUninit ∨ t.magic = transMagic ∧ t.generation = G.generation := by
  rw [tpsFsTransUnserial, fits.getTransHead_serial, tpsFsTransSerial]
  by_cases hbad : t.magic ≠ transMagic ∨ t.generation ≠ G.generation
  · have hbad' : (sealHead t).magic ≠ transMagic ∨ (sealHead t).generation ≠ G.generation := hbad
    rw [if_pos (Or.inr hbad')]
    constructor
    · intro h
      exact Or.inl (congrArg TransHead.status h).symm
    · rintro (h | ⟨hmagic, hgeneration⟩)
      · rw [← h]
        rfl
      · exact absurd hbad (by simp [hmagic, hgeneration])
  · rw [not_or, not_not, not_not] at hbad
    rw [if_neg]
    · exact ⟨fun _ => Or.inr hbad, fun _ => rfl⟩
    · rintro (h | h | h)
      · exact h (transCheckSum_seal t)
      · exact h hbad.1
      · exact h hbad.2

theorem HeadFits.unserial_replaceWord (fits : HeadFits t) (hk : k < 16) (hw : w < 2 ^ 32)
    (hne : w ≠ word (tpsFsTransSerial t b pos).2 pos k) :
    (tpsFsTransUnserial G (replaceWord (tpsFsTransSerial t b pos).2 pos k w) pos).status =
        statusUninit ↔
      k ≠ 12 ∨ t.status = statusUninit ∨ t.magic ≠ transMagic ∨ t.generation ≠ G.generation := by
  have words := words_getTransHead (tpsFsTransSerial t b pos).2 pos
  have hfits := word_lt (tpsFsTransSerial t b pos).2 pos
  rw [tpsFsTransUnserial_status, word_replaceWord hw]
  rw [fits.getTransHead_serial] at words
  generalize word (tpsFsTransSerial t b pos).2 pos = f at words hfits hne ⊢
  have hsum : u32 (∑ j ∈ checkWords, f j) = f 15 := words.sum.trans words.checkSum.symm
  by_cases hcounted : k ∈ checkWords
  · have hk15 : k ≠ 15 := by
      rintro rfl
      exact absurd hcounted (by decide)
    have hk12 : k ≠ 12 := by
      rintro rfl
      exact absurd hcounted (by decide)
    refine iff_of_true (Or.inr (Or.inl ?_)) (Or.inl hk12)
    rw [update_of_ne hk15.symm, ← hsum]
    exact checkSum_update hcounted hw (hfits k) hne
  · have hk : k = 12 ∨ k = 15 := by
      rw [checkWords, Finset.mem_erase, Finset.mem_range] at hcounted
      omega
    rw [Finset.sum_update_of_notMem hcounted, hsum]
    rcases hk with rfl | rfl
    · have hother : ∀ j, j ≠ 12 → update f 12 w j = f j := fun j hj =>
        update_of_ne hj w f
      rw [hother 7 (by decide), hother 15 (by decide), hother 0 (by decide), hother 2 (by decide),
        hother 3 (by decide), words.status, words.magic, words.generation]
      simp [sealHead]
    · refine iff_of_true (Or.inr (Or.inl ?_)) (Or.inl (by decide))
      rw [update_self]
      exact hne.symm

/-- A header of the volume reads back, and with any one of its words replaced it is taken for none,
if and only if the word is not the low half of `TRANS_uiDataSecNum`. -/
theorem head_image_iff (fits : HeadFits t) (hk : k < 16) (hw : w < 2 ^ 32)
    (hne : w ≠ word (tpsFsTransSerial t b pos).2 pos k) :
    (tpsFsTransUnserial G (tpsFsTransSerial t b pos).2 pos = (tpsFsTransSerial t b pos).1 ∧
      (tpsFsTransUnserial G (replaceWord (tpsFsTransSerial t b pos).2 pos k w) pos).status =
        statusUninit) ↔
      t.status = statusUninit ∨ t.magic = transMagic ∧ t.generation = G.generation ∧ k ≠ 12 := by
  rw [fits.unserial_serial, fits.unserial_replaceWord hk hw hne]
  tauto

def smallHead : TransHead :=
  { uninitHead 1 with status := statusCommit, dataSecNum := 15500, dataSecCnt := 8 }

theorem smallHead_fits : HeadFits smallHead := by
  refine ⟨?_, ?_, ?_, ?_, ?_, ?_, ?_, ?_, ?_, ?_⟩ <;> decide

theorem head_image_iff_small :
    tpsFsTransUnserial smallGeom (tpsFsTransSerial smallHead (fun _ => 0) 0).2 0 =
        (tpsFsTransSerial smallHead (fun _ => 0) 0).1 ∧
      (tpsFsTransUnserial smallGeom (replaceWord (tpsFsTransSerial smallHead (fun _ => 0) 0).2 0 14 9)
        0).status = statusUninit :=
  (head_image_iff smallHead_fits (by decide) (by decide) (by decide)).mpr
    (Or.inr ⟨rfl, rfl, by decide⟩)

/-- With another low half of `TRANS_uiDataSecNum` the transaction is still committed, and its data
stand elsewhere. -/
theorem data_sector_unchecked :
    12345 ≠ word (tpsFsTransSerial smallHead (fun _ => 0) 0).2 0 12 ∧
      (tpsFsTransUnserial smallGeom
        (replaceWord (tpsFsTransSerial smallHead (fun _ => 0) 0).2 0 12 12345) 0).status ≠
        statusUninit ∧
      tpsFsTransUnserial smallGeom
        (replaceWord (tpsFsTransSerial smallHead (fun _ => 0) 0).2 0 12 12345) 0 =
        { (tpsFsTransSerial smallHead (fun _ => 0) 0).1 with dataSecNum := 12345 } := by
  decide +kernel

end SylixOS.TpsTrans
