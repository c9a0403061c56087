import SylixOS.StepRuns
import SylixOS.TyDev

/-! Canonical input of a tty. The line that is typed stands ahead of the ring and is
committed behind its length; a reader that takes a part of it keeps what is left
in a counter. Beside the device runs an editor of lines. -/

namespace SylixOS.TyLib
open StepRuns Function

inductive Key where
  | erase
  | kill
  | eof
  | other
  deriving DecidableEq

def CtlChars.key (cc : CtlChars) (c : BitVec 8) : Key :=
  if c = 127 ∨ c = cc.verase then .erase
  else if c = cc.vkill then .kill
  else if c = cc.veof then .eof
  else .other

/-- The line that is being typed, the lines that have not been read (of the first one perhaps only
a rest), and the last character. -/
structure Editor where
  typed : List (BitVec 8)
  lines : List (List (BitVec 8))
  last : BitVec 8

def Editor.press (e : Editor) (cc : CtlChars) (c : BitVec 8) : Editor :=
  match cc.key c with
  | .erase => { e with typed := e.typed.dropLast }
  | .kill => { e with typed := [] }
  | .eof => { e with typed := [], lines := e.lines ++ [e.typed] }
  | .other =>
    if c = 10 then { e with typed := [], lines := e.lines ++ [e.typed ++ [c]] }
    else { e with typed := e.typed ++ [c] }

/-- A character is received; `nul` says that a NUL is left out under `OPT_CRMOD`. -/
def Editor.receive (nul crmod : Bool) (cc : CtlChars) (e : Editor) (c : BitVec 8) : Editor :=
  if nul ∧ crmod ∧ c = 0 then e
  else if crmod ∧ e.last = 13 ∧ c = 10 then { e with last := c }
  else ({ e with last := c } : Editor).press cc (if crmod ∧ c = 13 then 10 else c)

def Editor.read (e : Editor) (stMaxBytes : ℕ) : List (BitVec 8) × Editor :=
  match e.lines with
  | [] => ([], e)
  | line :: rest =>
    (line.take stMaxBytes,
      { e with
        lines := if line.drop stMaxBytes = [] then rest else line.drop stMaxBytes :: rest })

def Editor.clear (e : Editor) : Editor := { e with typed := [], lines := [] }

def Dev.rbufSet (d : Dev) (size : ℕ) (heap : ℕ → BitVec 8) : Dev :=
  { d with size := size, rdBuf := [], ahead := heap }

def Received.lost (r : Received) (eof : Bool) : Bool :=
  match r with
  | .done iStatus => !iStatus
  | .rest bReleaseTaskLevel _ iStatus => !iStatus || (eof && !bReleaseTaskLevel)

/-- A device and the editor, what reads have returned from both, and whether some character has
found no room. -/
structure Term where
  dev : Dev
  editor : Editor
  returned : List (List (BitVec 8))
  expected : List (List (BitVec 8))
  refused : Bool

inductive TermAct where
  | receive (c : BitVec 8)
  | read (stMaxBytes : ℕ)
  | flush
  | resize (size : ℕ) (heap : ℕ → BitVec 8)

/-- What one turn of `_TyRead` returns, if it reaches a `VMIN` of 1. -/
def chunk (bytes : List (BitVec 8)) : List (List (BitVec 8)) := if bytes = [] then [] else [bytes]

/-- A read is a turn of the loop of `_TyRead`, which waits for an empty ring. -/
def termStep (nul : Bool) (t : Term) : TermAct → Option Term
  | .receive c =>
    let r := t.dev.tyIRd c
    let crmod := t.dev.opt optCrmod
    let shown := if crmod ∧ c = 13 then 10 else c
    some { t with
      dev := r.1
      editor := t.editor.receive nul crmod t.dev.cc c
      refused := t.refused || r.2.lost (decide (t.dev.cc.key shown = .eof)) }
  | .read stMaxBytes =>
    if stMaxBytes = 0 then some t
    else if t.dev.rdBuf = [] then none
    else
      let r := t.dev.take stMaxBytes
      let e := t.editor.read stMaxBytes
      some { t with
        dev := r.2.2
        editor := e.2
        returned := t.returned ++ chunk r.1
        expected := t.expected ++ chunk e.1 }
  | .flush => some { t with dev := t.dev.rngFlush, editor := t.editor.clear }
  | .resize size heap =>
    some { t with dev := t.dev.rbufSet size heap, editor := t.editor.clear }

def canonDev (crmod echo : Bool) (cc : CtlChars) (size : ℕ) (heap : ℕ → BitVec 8) : Dev where
  iOpt := optLine ||| (if crmod then optCrmod else 0) ||| if echo then 1 else 0
  cc := { cc with vmin := 1, vtime := 0 }
  abortFunc := false
  ulRTimeout := none
  tickHz := 1000
  size := size
  rdBuf := []
  ahead := heap
  ucInNBytes := 0
  ucInBytesLeft := 0
  bXoff := false
  bPending := false
  bCanceled := false
  bFlushingRdBuf := false
  cLastRecv := 0
  abortFlag := false

def canonTerm (crmod echo : Bool) (cc : CtlChars) (size : ℕ) (heap : ℕ → BitVec 8) : Term where
  dev := canonDev crmod echo cc size heap
  editor := ⟨[], [], 0⟩
  returned := []
  expected := []
  refused := false

def lineRecord (line : List (BitVec 8)) : List (BitVec 8) := BitVec.ofNat 8 line.length :: line

def records (lines : List (List (BitVec 8))) : List (BitVec 8) := lines.flatMap lineRecord

@[simp] theorem records_nil : records [] = [] := rfl

@[simp] theorem records_cons (line : List (BitVec 8)) (lines : List (List (BitVec 8))) :
    records (line :: lines) = lineRecord line ++ records lines := rfl

@[simp] theorem records_append (l l' : List (List (BitVec 8))) :
    records (l ++ l') = records l ++ records l' := List.flatMap_append

def Framed (d : Dev) (rest : List (BitVec 8)) (lines : List (List (BitVec 8))) : Prop :=
  d.rdBuf = rest ++ records lines ∧ d.ucInBytesLeft = rest.length ∧ ∀ l ∈ lines, l.length < 256

/-- As long as no character has been refused, reads have returned what they return from the editor,
and the ring is empty when the editor has no line left. In any case the ring is framed. -/
def Canonical (t : Term) : Prop :=
  (t.refused = false → t.returned = t.expected ∧ (t.dev.rdBuf = [] ↔ t.editor.lines = [])) ∧
    ∃ rest lines, Framed t.dev rest lines

/-- The ring is not replaced while a line is being typed or read. -/
def BetweenLines (t : Term) : TermAct → Prop
  | .resize _ _ => t.dev.ucInNBytes = 0 ∧ t.dev.ucInBytesLeft = 0
  | _ => True

structure Dev.InLine (d : Dev) : Prop where
  line : d.opt optLine = true
  abort : d.opt optAbort = false
  monTrap : d.opt optMonTrap = false
  tandem : d.opt optTandem = false
  sevenBit : d.opt opt7Bit = false
  flushing : d.bFlushingRdBuf = false

structure Follows (d : Dev) (e : Editor) : Prop where
  typed : (List.range d.ucInNBytes).map (fun i => d.ahead (i + 1)) = e.typed
  short : d.ucInNBytes ≤ 254
  fits : d.rdBuf.length ≤ d.size
  room : 0 < d.ucInNBytes → d.rdBuf.length + d.ucInNBytes + 2 ≤ d.size
  unread : ∃ rest lines, Framed d rest lines ∧
    e.lines = if rest = [] then lines else rest :: lines
  last : d.cLastRecv = e.last

section Steps

variable {d : Dev} {e : Editor}

theorem Dev.InLine.of_same {d' : Dev} (h : d.InLine) (hopt : d'.iOpt = d.iOpt)
    (hflush : d'.bFlushingRdBuf = d.bFlushingRdBuf) : d'.InLine := by
  have heq : ∀ flag, d'.opt flag = d.opt flag := fun flag => by rw [Dev.opt, Dev.opt, hopt]
  exact ⟨by rw [heq]; exact h.line, by rw [heq]; exact h.abort, by rw [heq]; exact h.monTrap,
    by rw [heq]; exact h.tandem, by rw [heq]; exact h.sevenBit, by rw [hflush]; exact h.flushing⟩

theorem Follows.commit (h : Follows d e) (hfree : 0 < d.freeBytes) :
    Follows d.commit { e with typed := [], lines := e.lines ++ [e.typed] } := by
  have hfits := h.fits
  have hshort := h.short
  have hlength : e.typed.length = d.ucInNBytes := by
    rw [← h.typed, List.length_map, List.length_range]
  have hbytes : (List.range (d.ucInNBytes + 1)).map
      (update d.ahead 0 (BitVec.ofNat 8 d.ucInNBytes)) = lineRecord e.typed := by
    rw [List.range_succ_eq_map, List.map_cons, List.map_map, update_self, lineRecord, hlength,
      ← h.typed]
    rfl
  have hring : d.commit.rdBuf = d.rdBuf ++ lineRecord e.typed := by
    rw [← hbytes]
    rfl
  obtain ⟨rest, lines, ⟨hbuf, hleft, hall⟩, hlines⟩ := h.unread
  refine ⟨rfl, Nat.zero_le _, ?_, fun hpos => absurd hpos (Nat.lt_irrefl 0), ?_, h.last⟩
  · rw [hring, List.length_append, lineRecord, List.length_cons, hlength]
    change _ ≤ d.size
    rw [Dev.freeBytes] at hfree
    rcases Nat.eq_zero_or_pos d.ucInNBytes with hzero | hpos
    · omega
    · have hroom := h.room hpos
      omega
  · refine ⟨rest, lines ++ [e.typed], ⟨?_, hleft, ?_⟩, ?_⟩
    · rw [hring, hbuf, records_append, records_cons, records_nil, List.append_nil,
        List.append_assoc]
    · intro l hl
      rcases List.mem_append.mp hl with hl | hl
      · exact hall l hl
      · rw [List.mem_singleton.mp hl]
        omega
    · simp only [hlines]
      split_ifs <;> rfl

theorem Follows.putAhead (h : Follows d e) (c : BitVec 8) (offset : ℕ) :
    Follows (d.putAhead c offset)
      { e with typed := (List.range d.ucInNBytes).map fun i => (d.putAhead c offset).ahead (i + 1) } :=
  ⟨rfl, h.short, h.fits, h.room, h.unread, h.last⟩

theorem Follows.shorten (h : Follows d e) {n : ℕ} (hle : n ≤ d.ucInNBytes) {typed : List (BitVec 8)}
    (htyped : (List.range n).map (fun i => d.ahead (i + 1)) = typed) :
    Follows { d with ucInNBytes := n } { e with typed := typed } := by
  refine ⟨htyped, hle.trans h.short, h.fits, fun hpos => ?_, h.unread, h.last⟩
  have hroom := h.room (hpos.trans_le hle)
  change d.rdBuf.length + n + 2 ≤ d.size
  omega

theorem Follows.extend (h : Follows d e) (c : BitVec 8)
    (hroom : d.ucInNBytes + 3 ≤ d.freeBytes ∧ d.ucInNBytes < maxCanon - 1) :
    Follows { d.putAhead c (d.ucInNBytes + 1) with ucInNBytes := d.ucInNBytes + 1 }
      { e with typed := e.typed ++ [c] } := by
  obtain ⟨hfree, hlt⟩ := hroom
  have hfits := h.fits
  rw [Dev.freeBytes] at hfree
  refine ⟨?_, ?_, h.fits, fun _ => ?_, h.unread, h.last⟩
  · have hold : (List.range d.ucInNBytes).map
        (fun i => update d.ahead (d.ucInNBytes + 1) c (i + 1)) = e.typed := by
      rw [← h.typed]
      refine List.map_congr_left fun i hi => update_of_ne ?_ _ _
      have hi := List.mem_range.mp hi
      omega
    simp only [Dev.putAhead, List.range_succ, List.map_append, List.map_singleton, update_self]
    rw [hold]
  · rw [maxCanon] at hlt
    change d.ucInNBytes + 1 ≤ 254
    omega
  · change d.rdBuf.length + (d.ucInNBytes + 1) + 2 ≤ d.size
    omega

theorem canon_eq (d : Dev) (c : BitVec 8) : d.canon c =
    match d.cc.key c with
    | .erase => (true, false, { d with ucInNBytes := d.ucInNBytes - 1 })
    | .kill => (true, false, { d with ucInNBytes := 0 })
    | .eof => (true, decide (0 < d.freeBytes), d)
    | .other =>
      if 2 ≤ d.freeBytes then
        if d.ucInNBytes + 3 ≤ d.freeBytes ∧ d.ucInNBytes < maxCanon - 1 then
          (true, decide (c = 10),
            { d.putAhead c (d.ucInNBytes + 1) with ucInNBytes := d.ucInNBytes + 1 })
        else (false, decide (c = 10), d.putAhead c d.ucInNBytes)
      else (false, false, d) := by
  unfold Dev.canon CtlChars.key
  by_cases herase : c = 127 ∨ c = d.cc.verase
  · simp only [if_pos herase]
  · by_cases hkill : c = d.cc.vkill
    · simp only [if_neg herase, if_pos hkill]
    · by_cases heof : c = d.cc.veof
      · simp only [if_neg herase, if_neg hkill, if_pos heof]
      · simp only [if_neg herase, if_neg hkill, if_neg heof]
        by_cases hroom : d.ucInNBytes + 3 ≤ d.freeBytes ∧ d.ucInNBytes < maxCanon - 1
        · simp only [if_pos hroom, decide_eq_true hroom]
        · simp only [if_neg hroom, decide_eq_false hroom, Dev.putAhead]

theorem dropLast_range (f : ℕ → BitVec 8) (n : ℕ) :
    (List.range (n - 1)).map f = ((List.range n).map f).dropLast := by
  cases n with
  | zero => rfl
  | succ n =>
    rw [Nat.add_sub_cancel, List.range_succ, List.map_append, List.map_singleton,
      List.dropLast_concat]

theorem Follows.accept (h : Follows d e) (hline : d.opt optLine = true) (c : BitVec 8) :
    (∃ e', Follows (d.accept c).1 e') ∧
      ((d.accept c).2.lost (decide (d.cc.key c = .eof)) = false →
        Follows (d.accept c).1 (e.press d.cc c)) := by
  have haccept : d.accept c = (if (d.canon c).2.1 then (d.canon c).2.2.commit else (d.canon c).2.2,
      .rest (d.canon c).2.1 false (d.canon c).1) := by
    rw [Dev.accept, if_pos hline]
  rw [haccept, Editor.press, canon_eq]
  cases d.cc.key c with
  | erase =>
    have hshort := h.shorten (n := d.ucInNBytes - 1) (Nat.sub_le _ _)
      ((dropLast_range _ _).trans (congrArg List.dropLast h.typed))
    exact ⟨⟨_, hshort⟩, fun _ => hshort⟩
  | kill =>
    have hshort : Follows { d with ucInNBytes := 0 } { e with typed := [] } :=
      h.shorten (Nat.zero_le _) rfl
    exact ⟨⟨_, hshort⟩, fun _ => hshort⟩
  | eof =>
    by_cases hfree : 0 < d.freeBytes
    · simp only [decide_eq_true hfree, if_true]
      exact ⟨⟨_, h.commit hfree⟩, fun _ => h.commit hfree⟩
    · simp only [decide_eq_false hfree, Bool.false_eq_true, if_false]
      exact ⟨⟨e, h⟩, fun hlost => by simp [Received.lost] at hlost⟩
  | other =>
    dsimp only
    by_cases hfree : 2 ≤ d.freeBytes
    · rw [if_pos hfree]
      by_cases hroom : d.ucInNBytes + 3 ≤ d.freeBytes ∧ d.ucInNBytes < maxCanon - 1
      · rw [if_pos hroom]
        have hextend := h.extend c hroom
        by_cases hlf : c = 10
        · have hcommit := hextend.commit (by
            change 0 < d.freeBytes
            omega)
          simp only [decide_eq_true hlf, if_true, if_pos hlf]
          exact ⟨⟨_, hcommit⟩, fun _ => hcommit⟩
        · simp only [decide_eq_false hlf, if_neg hlf, Bool.false_eq_true, if_false]
          exact ⟨⟨_, hextend⟩, fun _ => hextend⟩
      · rw [if_neg hroom]
        have hput := h.putAhead c d.ucInNBytes
        refine ⟨?_, fun hlost => by simp [Received.lost] at hlost⟩
        by_cases hlf : c = 10
        · simp only [decide_eq_true hlf, if_true]
          exact ⟨_, hput.commit (by
            change 0 < d.freeBytes
            omega)⟩
        · simp only [decide_eq_false hlf, Bool.false_eq_true, if_false]
          exact ⟨_, hput⟩
    · rw [if_neg hfree]
      exact ⟨⟨e, h⟩, fun hlost => by simp [Received.lost] at hlost⟩

theorem Follows.remember (h : Follows d e) (c : BitVec 8) :
    Follows { d with cLastRecv := c } { e with last := c } :=
  ⟨h.typed, h.short, h.fits, h.room, h.unread, rfl⟩

theorem tyIRd_inLine (hd : d.InLine) (c : BitVec 8) : d.tyIRd c =
    if d.opt optCrmod ∧ c = 0 then (d, .done true)
    else if d.opt optCrmod ∧ d.cLastRecv = 13 ∧ c = 10 then ({ d with cLastRecv := c }, .done true)
    else ({ d with cLastRecv := c } : Dev).accept (if d.opt optCrmod ∧ c = 13 then 10 else c) := by
  have hraw : d.iOpt ≠ optRaw := by
    intro hraw
    have hline := hd.line
    rw [Dev.opt, hraw] at hline
    exact absurd hline (by decide)
  rw [Dev.tyIRd, if_neg (by simp [hd.flushing]), if_neg hraw, if_neg (by simp [hd.sevenBit]),
    Dev.cooked, if_neg (by simp [hd.abort]), if_neg (by simp [hd.monTrap]),
    if_neg (by simp [hd.tandem])]
  simp only [hd.line, true_and]

theorem receive_nul (e : Editor) (crmod : Bool) (cc : CtlChars) (c : BitVec 8) :
    e.receive true crmod cc c =
      if crmod ∧ c = 0 then e
      else if crmod ∧ e.last = 13 ∧ c = 10 then { e with last := c }
      else ({ e with last := c } : Editor).press cc (if crmod ∧ c = 13 then 10 else c) := by
  rw [Editor.receive]
  simp only [true_and]

theorem Follows.receive (h : Follows d e) (hd : d.InLine) (c : BitVec 8) :
    (∃ e', Follows (d.tyIRd c).1 e') ∧
      ((d.tyIRd c).2.lost (decide (d.cc.key
          (if d.opt optCrmod ∧ c = 13 then 10 else c) = .eof)) = false →
        Follows (d.tyIRd c).1 (e.receive true (d.opt optCrmod) d.cc c)) := by
  have hlast := h.last
  rw [tyIRd_inLine hd, receive_nul, ← hlast]
  by_cases hnul : d.opt optCrmod ∧ c = 0
  · simp only [if_pos hnul]
    exact ⟨⟨e, h⟩, fun _ => h⟩
  · simp only [if_neg hnul]
    by_cases hcr : d.opt optCrmod ∧ d.cLastRecv = 13 ∧ c = 10
    · simp only [if_pos hcr]
      exact ⟨⟨_, h.remember c⟩, fun _ => h.remember c⟩
    · simp only [if_neg hcr]
      exact (h.remember c).accept hd.line _

theorem headD_record (line : List (BitVec 8)) (rest : List (BitVec 8)) (hlt : line.length < 256) :
    ((lineRecord line ++ rest).headD 0).toNat = line.length := by
  change (BitVec.ofNat 8 line.length).toNat = _
  rw [BitVec.toNat_ofNat, Nat.mod_eq_of_lt hlt]

theorem Follows.take (h : Follows d e) (hline : d.opt optLine = true) (hne : d.rdBuf ≠ [])
    (m : ℕ) : (d.take m).1 = (e.read m).1 ∧ Follows (d.take m).2.2 (e.read m).2 := by
  obtain ⟨rest, lines, ⟨hbuf, hleft, hall⟩, hlines⟩ := h.unread
  -- the line that is read, and what stands behind it
  obtain ⟨line, later, hread, hcount, hbehind, hlater⟩ : ∃ line later,
      e.lines = line :: later ∧
      (if d.ucInBytesLeft = 0 then (d.rdBuf.headD 0).toNat else d.ucInBytesLeft) = line.length ∧
      (if d.ucInBytesLeft = 0 then d.rdBuf.tail else d.rdBuf) = line ++ records later ∧
      ∀ l ∈ later, l.length < 256 := by
    cases rest with
    | nil =>
      rw [List.length_nil] at hleft
      rw [List.nil_append] at hbuf
      cases lines with
      | nil => exact absurd hbuf hne
      | cons line later =>
        refine ⟨line, later, hlines, ?_, ?_, fun l hl => hall l (List.mem_cons_of_mem _ hl)⟩
        · rw [if_pos hleft, hbuf, records_cons]
          exact headD_record line _ (hall line List.mem_cons_self)
        · rw [if_pos hleft, hbuf, records_cons, lineRecord]
          rfl
    | cons b rest =>
      have hpos : d.ucInBytesLeft ≠ 0 := by
        rw [hleft]
        exact Nat.succ_ne_zero _
      exact ⟨b :: rest, lines, hlines, by rw [if_neg hpos, hleft], by rw [if_neg hpos, hbuf], hall⟩
  have htake : d.take m = ((line ++ records later).take (min line.length m), min line.length m,
      { d with
        rdBuf := (line ++ records later).drop (min line.length m)
        ucInBytesLeft := line.length - min line.length m }) := by
    rw [Dev.take, if_pos hline]
    simp only [hcount, hbehind]
  have hmin : min line.length m ≤ line.length := Nat.min_le_left _ _
  have hdrop : line.drop (min line.length m) = line.drop m := by
    rcases Nat.le_total line.length m with hle | hle
    · rw [Nat.min_eq_left hle, List.drop_length, List.drop_of_length_le hle]
    · rw [Nat.min_eq_right hle]
  have heread : e.read m = (line.take m,
      { e with lines := if line.drop m = [] then later else line.drop m :: later }) := by
    rw [Editor.read, hread]
  have hshrink : ((line ++ records later).drop (min line.length m)).length ≤ d.rdBuf.length := by
    rw [← hbehind, List.length_drop]
    split_ifs
    · rw [List.length_tail]
      omega
    · omega
  have hfits := h.fits
  rw [htake, heread]
  refine ⟨?_, h.typed, h.short, hshrink.trans hfits, fun hpos => ?_,
    ⟨line.drop m, later, ⟨?_, ?_, hlater⟩, rfl⟩, h.last⟩
  · rw [List.take_append_of_le_length hmin, Nat.min_comm, ← List.take_eq_take_min]
  · have hroom := h.room hpos
    simp only
    omega
  · simp only
    rw [List.drop_append_of_le_length hmin, hdrop]
  · simp only
    rw [← hdrop, List.length_drop]

theorem Follows.flush (h : Follows d e) : Follows d.rngFlush e.clear :=
  ⟨rfl, Nat.zero_le _, Nat.zero_le _, fun hpos => absurd hpos (Nat.lt_irrefl 0),
    ⟨[], [], ⟨rfl, rfl, fun _ hl => absurd hl List.not_mem_nil⟩, rfl⟩, h.last⟩

theorem Follows.resize (h : Follows d e) (htyped : d.ucInNBytes = 0) (hleft : d.ucInBytesLeft = 0)
    (size : ℕ) (heap : ℕ → BitVec 8) : Follows (d.rbufSet size heap) e.clear := by
  refine ⟨?_, h.short, Nat.zero_le _, fun hpos => ?_,
    ⟨[], [], ⟨rfl, hleft, fun _ hl => absurd hl List.not_mem_nil⟩, rfl⟩, h.last⟩
  · simp only [Dev.rbufSet, htyped]
    rfl
  · exact absurd htyped (Nat.ne_of_gt hpos)

theorem Follows.empty_iff (h : Follows d e) : d.rdBuf = [] ↔ e.lines = [] := by
  obtain ⟨rest, lines, ⟨hbuf, -, -⟩, hlines⟩ := h.unread
  rw [hbuf, hlines, List.append_eq_nil_iff]
  cases rest with
  | cons b rest => simp
  | nil =>
    cases lines with
    | nil => simp
    | cons line lines => simp [lineRecord]

theorem canon_iOpt (c : BitVec 8) : (d.canon c).2.2.iOpt = d.iOpt := by
  rw [canon_eq]
  cases d.cc.key c with
  | erase | kill | eof => rfl
  | other =>
    dsimp only
    split_ifs <;> rfl

theorem accept_iOpt (hline : d.opt optLine = true) (c : BitVec 8) :
    (d.accept c).1.iOpt = d.iOpt := by
  rw [Dev.accept, if_pos hline]
  dsimp only
  split_ifs
  · exact canon_iOpt c
  · exact canon_iOpt c

theorem Dev.InLine.receive (hd : d.InLine) (c : BitVec 8) : (d.tyIRd c).1.InLine := by
  refine hd.of_same ?_ (tyIRd_flushing c)
  rw [tyIRd_inLine hd]
  split_ifs
  · rfl
  · rfl
  all_goals exact accept_iOpt (d := { d with cLastRecv := c }) hd.line _

theorem Dev.InLine.take (hd : d.InLine) (m : ℕ) : (d.take m).2.2.InLine := by
  refine hd.of_same ?_ (take_flushing m)
  rw [Dev.take, if_pos hd.line]

end Steps

structure InStep (t : Term) : Prop where
  inLine : t.dev.InLine
  follows : ∃ e, Follows t.dev e
  agrees : t.refused = false → Follows t.dev t.editor ∧ t.returned = t.expected

theorem InStep.canonical {t : Term} (h : InStep t) : Canonical t := by
  obtain ⟨e, he⟩ := h.follows
  obtain ⟨rest, lines, hframed, -⟩ := he.unread
  refine ⟨fun hno => ?_, rest, lines, hframed⟩
  obtain ⟨hfollows, hreturned⟩ := h.agrees hno
  exact ⟨hreturned, hfollows.empty_iff⟩

theorem InStep.step {t t' : Term} {a : TermAct} (h : InStep t) (hok : BetweenLines t a)
    (hs : termStep true t a = some t') : InStep t' := by
  obtain ⟨hline, ⟨e, he⟩, hagrees⟩ := h
  cases a with
  | receive c =>
    obtain rfl := Option.some.inj hs
    refine ⟨hline.receive c, (he.receive hline c).1, fun hno => ?_⟩
    obtain ⟨hbefore, hlost⟩ := Bool.or_eq_false_iff.mp hno
    obtain ⟨hfollows, hreturned⟩ := hagrees hbefore
    exact ⟨(hfollows.receive hline c).2 hlost, hreturned⟩
  | read m =>
    rw [termStep] at hs
    split_ifs at hs with hzero hempty
    · obtain rfl := Option.some.inj hs
      exact ⟨hline, ⟨e, he⟩, hagrees⟩
    · obtain rfl := Option.some.inj hs
      refine ⟨hline.take m, ⟨_, (he.take hline.line hempty m).2⟩, fun hno => ?_⟩
      obtain ⟨hfollows, hreturned⟩ := hagrees hno
      obtain ⟨hbytes, hfollows'⟩ := hfollows.take hline.line hempty m
      refine ⟨hfollows', ?_⟩
      simp only
      rw [hreturned, hbytes]
  | flush =>
    obtain rfl := Option.some.inj hs
    exact ⟨hline.of_same rfl rfl, ⟨_, he.flush⟩, fun hno =>
      ⟨(hagrees hno).1.flush, (hagrees hno).2⟩⟩
  | resize size heap =>
    obtain rfl := Option.some.inj hs
    exact ⟨hline.of_same rfl rfl, ⟨_, he.resize hok.1 hok.2 size heap⟩, fun hno =>
      ⟨(hagrees hno).1.resize hok.1 hok.2 size heap, (hagrees hno).2⟩⟩

theorem canonDev_inLine (crmod echo : Bool) (cc : CtlChars) (size : ℕ) (heap : ℕ → BitVec 8) :
    (canonDev crmod echo cc size heap).InLine := by
  have hopt : ∀ flag, (canonDev crmod echo cc size heap).opt flag =
      ((optLine ||| (if crmod then optCrmod else 0) ||| if echo then 1 else 0) &&& flag != 0) :=
    fun _ => rfl
  refine ⟨?_, ?_, ?_, ?_, ?_, rfl⟩
  all_goals
    rw [hopt]
    cases crmod <;> cases echo <;> decide

/-- Reads return the lines of the editor, a part of one line at a time, as long as no character is
refused; and what is committed is framed by its length in any case. -/
theorem canonical_input (crmod echo : Bool) (cc : CtlChars) (size : ℕ) (heap : ℕ → BitVec 8)
    (acts : List TermAct)
    (hbetween : Obeys (termStep true) BetweenLines (canonTerm crmod echo cc size heap) acts) :
    Visits (termStep true) Canonical (canonTerm crmod echo cc size heap) acts := by
  have hfollows : Follows (canonDev crmod echo cc size heap) ⟨[], [], 0⟩ :=
    ⟨rfl, Nat.zero_le _, Nat.zero_le _, fun hpos => absurd hpos (Nat.lt_irrefl 0),
      ⟨[], [], ⟨rfl, rfl, fun _ hl => absurd hl List.not_mem_nil⟩, rfl⟩, rfl⟩
  have hstart : InStep (canonTerm crmod echo cc size heap) :=
    ⟨canonDev_inLine crmod echo cc size heap, ⟨_, hfollows⟩, fun _ => ⟨hfollows, rfl⟩⟩
  exact (visits_of_obeys (fun _ _ _ h hok hs => h.step hok hs) hstart hbetween).mono
    fun _ h => h.canonical

def usualChars : CtlChars := ⟨1, 0, 3, 24, 19, 17, 8, 21, 4⟩

/-- A line is typed and corrected, read in two parts, and the ring is replaced. -/
theorem canonical_input_corrected :
    Visits (termStep true) Canonical (canonTerm true true usualChars 32 fun _ => 0)
      [.receive 104, .receive 101, .receive 8, .receive 105, .receive 13, .receive 10, .read 2,
        .read 5, .resize 64 fun _ => 7, .receive 120] := by
  refine canonical_input true true usualChars 32 _ _ ?_
  iterate 8 refine fun _ hs => ⟨trivial, ?_⟩; obtain rfl := Option.some.inj hs
  exact fun _ _ => ⟨⟨rfl, rfl⟩, fun _ _ => ⟨trivial, trivial⟩⟩

/-- A NUL is not a character of the line under `OPT_CRMOD`. -/
theorem canonical_input_nul :
    ¬∀ acts, Visits (termStep false) Canonical (canonTerm true true usualChars 32 fun _ => 0)
      acts := by
  intro h
  have hrun : ∃ t, run (termStep false) (canonTerm true true usualChars 32 fun _ => 0)
      [.receive 0, .receive 10, .read 5] = some t ∧ t.refused = false ∧
        t.returned = [[10]] ∧ t.expected = [[0, 10]] := ⟨_, rfl, rfl, rfl, rfl⟩
  obtain ⟨t, hrun, hrefused, hreturned, hexpected⟩ := hrun
  have hsame := (((h _).last hrun).1 hrefused).1
  rw [hreturned, hexpected] at hsame
  exact absurd hsame (by decide)

end SylixOS.TyLib
