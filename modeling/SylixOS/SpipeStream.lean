import SylixOS.Spipe

/-! The data of a stream pipe. The bytes that reads return are the bytes that
writes stored, in order and without a gap, whatever the interleaving; a write
of at most `PIPE_BUF` bytes is stored in one piece or not at all. -/

namespace SylixOS.Spipe
open StepRuns BinarySemaphore RingBuffer Function

variable {α T : Type}

def RingBuf.stored (r : RingBuf α) : List α := content r.buffer r.totalBytes r.outPtr r.msgBytes

structure RingBuf.Ok (r : RingBuf α) : Prop where
  le : r.msgBytes ≤ r.totalBytes
  out_lt : 0 < r.totalBytes → r.outPtr < r.totalBytes
  in_eq : 0 < r.totalBytes → r.inPtr = (r.outPtr + r.msgBytes) % r.totalBytes

theorem copyOut_eq {r : RingBuf α} (h : r.Ok) {n : ℕ} (hpos : 0 < r.totalBytes)
    (hn : n ≤ r.totalBytes) :
    r.copyOut n = (wrapGet r.buffer r.totalBytes r.outPtr n,
      { r with outPtr := (r.outPtr + n) % r.totalBytes, msgBytes := r.msgBytes - n }) := by
  have hout := h.out_lt hpos
  unfold RingBuf.copyOut wrapGet
  simp only
  split_ifs with hpast hbelow
  · have hptr : (r.outPtr + n) % r.totalBytes = n - (r.totalBytes - r.outPtr) := by
      rw [Nat.mod_eq_sub_mod (by omega), Nat.mod_eq_of_lt (by omega)]
      omega
    rw [hptr, Nat.min_eq_right (Nat.le_of_lt hpast)]
  · rw [Nat.mod_eq_of_lt (by omega), Nat.min_eq_left (Nat.le_of_lt hbelow),
      Nat.sub_eq_zero_of_le (Nat.le_of_lt hbelow)]
    simp [slice]
  · have hat : n = r.totalBytes - r.outPtr := by omega
    have hptr : (r.outPtr + n) % r.totalBytes = 0 := by
      rw [show r.outPtr + n = r.totalBytes by omega, Nat.mod_self]
    rw [hptr, hat, Nat.min_self, Nat.sub_self]
    simp [slice]

theorem copyIn_eq {r : RingBuf α} (h : r.Ok) {bytes : List α} (hpos : 0 < r.totalBytes)
    (hn : bytes.length ≤ r.totalBytes) :
    r.copyIn bytes =
      { r with
        buffer := wrapPut r.buffer r.totalBytes r.inPtr bytes
        inPtr := (r.inPtr + bytes.length) % r.totalBytes
        msgBytes := r.msgBytes + bytes.length } := by
  have hin : r.inPtr < r.totalBytes := by
    rw [h.in_eq hpos]
    exact Nat.mod_lt _ hpos
  have hwhole : bytes.length ≤ r.totalBytes - r.inPtr →
      wrapPut r.buffer r.totalBytes r.inPtr bytes = put r.buffer r.inPtr bytes := by
    intro hle
    unfold wrapPut
    rw [List.take_of_length_le hle, List.drop_eq_nil_of_le hle]
    funext i
    simp [put]
  unfold RingBuf.copyIn
  simp only
  split_ifs with hpast hbelow
  · have hptr : (r.inPtr + bytes.length) % r.totalBytes =
        bytes.length - (r.totalBytes - r.inPtr) := by
      rw [Nat.mod_eq_sub_mod (by omega), Nat.mod_eq_of_lt (by omega)]
      omega
    rw [hptr]
    rfl
  · rw [hwhole (Nat.le_of_lt hbelow), Nat.mod_eq_of_lt (by omega)]
  · have hptr : (r.inPtr + bytes.length) % r.totalBytes = 0 := by
      rw [show r.inPtr + bytes.length = r.totalBytes by omega, Nat.mod_self]
    rw [hwhole (by omega), hptr]

theorem copyOut_spec {r : RingBuf α} (h : r.Ok) {n : ℕ} (hn : n ≤ r.msgBytes) (hpos : 0 < r.msgBytes) :
    (r.copyOut n).2.Ok ∧ (r.copyOut n).1 ++ (r.copyOut n).2.stored = r.stored ∧
      (r.copyOut n).1.length = n := by
  have hle := h.le
  have htotal : 0 < r.totalBytes := by omega
  have hout := h.out_lt htotal
  rw [copyOut_eq h htotal (by omega), wrapGet_eq hout (by omega)]
  refine ⟨⟨?_, fun _ => Nat.mod_lt _ htotal, fun _ => ?_⟩, ?_, length_content⟩
  · simp only
    omega
  · simp only
    rw [h.in_eq htotal, Nat.mod_add_mod]
    congr 1
    omega
  · unfold RingBuf.stored
    simp only
    rw [← content_append]
    congr 1
    omega

theorem copyIn_spec {r : RingBuf α} (h : r.Ok) {bytes : List α}
    (hn : bytes.length ≤ r.totalBytes - r.msgBytes) (hne : bytes ≠ []) :
    (r.copyIn bytes).Ok ∧ (r.copyIn bytes).stored = r.stored ++ bytes := by
  have hlen := List.length_pos_of_ne_nil hne
  have hle := h.le
  have htotal : 0 < r.totalBytes := by omega
  have hout := h.out_lt htotal
  rw [copyIn_eq h htotal (by omega)]
  refine ⟨⟨?_, fun _ => hout, fun _ => ?_⟩, ?_⟩
  · simp only
    omega
  · simp only
    rw [h.in_eq htotal, Nat.mod_add_mod, Nat.add_assoc]
  · unfold RingBuf.stored
    simp only
    rw [h.in_eq htotal]
    exact content_wrapPut hout (by omega)

def Phase.write? : Phase α → Option (Write α)
  | .writeEnter _ w => some w
  | .writeLoop _ w => some w
  | .writeWait _ w => some w
  | .writeAsleep _ w => some w
  | _ => none

def Ret.data : Ret α → List α
  | .bytes bs => bs
  | _ => []

def Ret.count : Ret α → Option ℕ
  | .written n => some n
  | .eagain n => some n
  | .etimedout n => some n
  | _ => none

abbrev Answer (α : Type) : Type := Option (Write α) × Ret α

def Act.thread? : Act α T → Option T
  | .read t _ _ => some t
  | .write t _ _ => some t
  | .go t _ _ => some t
  | .expire t => some t
  | _ => none

def answer (e : State α T × Act α T × State α T) : Option (Answer α) :=
  match e with
  | (s, a, s') =>
    match a.thread? with
    | none => none
    | some t =>
      match s'.phase t with
      | .idle (some r) => some ((s.phase t).write?, r)
      | _ => none

def asked (e : State α T × Act α T × State α T) : Option (List α) :=
  match e with
  | (_, .write _ _ bytes, _) => if bytes = [] then none else some bytes
  | _ => none

def State.stream (s : State α T) : List α := (s.chunks.map Prod.snd).flatten

def State.pieces (s : State α T) (id : ℕ) : List (List α) :=
  (s.chunks.filter fun p => p.1 = id).map Prod.snd

structure Stream (out : List (Answer α)) (s : State α T) : Prop where
  ring : s.ring.Ok
  data : out.flatMap (fun r => r.2.data) ++ s.ring.stored = s.stream
  known : ∀ p ∈ s.chunks, p.1 < s.calls.length
  under : ∀ t w, (s.phase t).write? = some w →
    s.calls[w.id]? = some w.all ∧ (s.pieces w.id).flatten ++ w.rest = w.all ∧ w.rest ≠ []
  apart : ∀ t u v w, (s.phase t).write? = some v → (s.phase u).write? = some w →
    v.id = w.id → t = u
  atomic : ∀ id bytes, s.calls[id]? = some bytes → bytes.length ≤ pipeBuf →
    s.pieces id = [] ∨ s.pieces id = [bytes]
  ended : ∀ w r, (some w, r) ∈ out → s.calls[w.id]? = some w.all ∧
    (∀ t v, (s.phase t).write? = some v → v.id ≠ w.id) ∧
    ∀ n, r.count = some n → (s.pieces w.id).flatten = w.all.take n

structure Wakes (s s' : State α T) : Prop where
  ring : s'.ring = s.ring
  calls : s'.calls = s.calls
  chunks : s'.chunks = s.chunks
  write : ∀ t, (s'.phase t).write? = (s.phase t).write?
  idle : ∀ t r, s'.phase t = .idle r ↔ s.phase t = .idle r

theorem Wakes.refl (s : State α T) : Wakes s s := ⟨rfl, rfl, rfl, fun _ => rfl, fun _ _ => Iff.rfl⟩

theorem Wakes.trans {s m s' : State α T} (h : Wakes s m) (h' : Wakes m s') : Wakes s s' :=
  ⟨h'.ring.trans h.ring, h'.calls.trans h.calls, h'.chunks.trans h.chunks,
    fun t => (h'.write t).trans (h.write t), fun t r => (h'.idle t r).trans (h.idle t r)⟩

/-- What a call may return without having moved data since its last piece. -/
def Phase.Gives (p : Phase α) (r : Ret α) : Prop :=
  r.data = [] ∧ ∀ w n, p.write? = some w → r.count = some n → n + w.rest.length = w.all.length

structure Quiet (t : T) (s s' : State α T) : Prop where
  ring : s'.ring = s.ring
  calls : s'.calls = s.calls
  chunks : s'.chunks = s.chunks
  others : ∀ u, u ≠ t → (s'.phase u).write? = (s.phase u).write?
  ends : (∃ r, s'.phase t = .idle (some r) ∧ (s.phase t).Gives r) ∨
    (∀ r, s'.phase t ≠ .idle r) ∧ (s'.phase t).write? = (s.phase t).write?

section
variable {out : List (Answer α)}

theorem Stream.quiet {s s' : State α T} {t : T} {a : Act α T} (h : Stream out s)
    (hq : Quiet t s s') (ha : a.thread? = some t) :
    Stream (out ++ (answer (s, a, s')).toList) s' := by
  have hpieces : s'.pieces = s.pieces := by
    funext id
    rw [State.pieces, State.pieces, hq.chunks]
  have hold : ∀ u w, (s'.phase u).write? = some w → (s.phase u).write? = some w := by
    intro u w hw
    by_cases hu : u = t
    · subst hu
      rcases hq.ends with ⟨r, hidle, -⟩ | ⟨-, hwrite⟩
      · rw [hidle] at hw
        cases hw
      · exact hwrite ▸ hw
    · exact hq.others u hu ▸ hw
  have hbytes : ((answer (s, a, s')).toList).flatMap (fun r => r.2.data) = [] := by
    rcases hq.ends with ⟨r, hidle, hgives⟩ | ⟨hbusy, -⟩
    · simp [answer, ha, hidle, hgives.1]
    · unfold answer
      simp only [ha]
      split
      · rename_i hidle
        exact absurd hidle (hbusy _)
      · rfl
  refine ⟨?_, ?_, ?_, fun u w hw => ?_, fun u u' v w hv hw => ?_, ?_, fun w r hmem => ?_⟩
  · rw [hq.ring]
    exact h.ring
  · rw [List.flatMap_append, hbytes, List.append_nil, State.stream, hq.ring, hq.chunks]
    exact h.data
  · rw [hq.chunks, hq.calls]
    exact h.known
  · rw [hq.calls, hpieces]
    exact h.under u w (hold u w hw)
  · exact h.apart u u' v w (hold u v hv) (hold u' w hw)
  · rw [hq.calls, hpieces]
    exact h.atomic
  · rw [hq.calls, hpieces]
    rcases List.mem_append.mp hmem with hmem | hmem
    · obtain ⟨hcall, hnone, hcount⟩ := h.ended w r hmem
      exact ⟨hcall, fun u v hv => hnone u v (hold u v hv), hcount⟩
    · rcases hq.ends with ⟨r', hidle, hgives⟩ | ⟨hbusy, -⟩
      · have hsaid : (s.phase t).write? = some w ∧ r' = r := by
          simpa [answer, ha, hidle, eq_comm] using hmem
        obtain ⟨hcall, hstored, -⟩ := h.under t w hsaid.1
        refine ⟨hcall, fun u v hv hid => ?_, fun n hn => ?_⟩
        · have hu := h.apart u t v w (hold u v hv) hsaid.1 hid
          rw [hu, hidle] at hv
          cases hv
        · have hlen := hgives.2 w n hsaid.1 (hsaid.2 ▸ hn)
          have htotal := congrArg List.length hstored
          rw [List.length_append] at htotal
          rw [← hstored, List.take_left' (by omega)]
      · exfalso
        unfold answer at hmem
        simp only [ha] at hmem
        split at hmem
        · rename_i hidle
          exact hbusy _ hidle
        · cases hmem

end

variable [DecidableEq T]

theorem Quiet.of_update {s s' : State α T} {t : T} {p : Phase α} (hring : s'.ring = s.ring)
    (hcalls : s'.calls = s.calls) (hchunks : s'.chunks = s.chunks)
    (hphase : s'.phase = update s.phase t p)
    (hp : (∃ r, p = .idle (some r) ∧ (s.phase t).Gives r) ∨
      (∀ r, p ≠ .idle r) ∧ p.write? = (s.phase t).write?) : Quiet t s s' := by
  refine ⟨hring, hcalls, hchunks, fun u hu => ?_, ?_⟩
  · rw [hphase, update_of_ne hu]
  · rw [hphase, update_self]
    exact hp

omit [DecidableEq T] in
theorem Stream.gives {out : List (Answer α)} {s : State α T} (h : Stream out s) {t : T}
    {w : Write α} (hw : (s.phase t).write? = some w) {r : Ret α} (hdata : r.data = [])
    (hcount : ∀ n, r.count = some n → n = w.all.length - w.rest.length) :
    (s.phase t).Gives r := by
  refine ⟨hdata, fun v n hv hn => ?_⟩
  obtain rfl : w = v := Option.some.inj (hw.symm.trans hv)
  obtain ⟨-, hstored, -⟩ := h.under t w hw
  have hlen := congrArg List.length hstored
  rw [List.length_append] at hlen
  have := hcount n hn
  omega

variable {out : List (Answer α)}

theorem Stream.taken {s : State α T} (h : Stream out s) (t : T) {n : ℕ}
    (hn : n ≤ s.ring.msgBytes) (hpos : 0 < s.ring.msgBytes) :
    Stream (out ++ [(none, .bytes (s.ring.copyOut n).1)]) { s with
      ring := (s.ring.copyOut n).2
      phase := update s.phase t (.idle (some (.bytes (s.ring.copyOut n).1))) } := by
  obtain ⟨hring, hstored, -⟩ := copyOut_spec h.ring hn hpos
  have hwrite : ∀ u w, ((update s.phase t
      (.idle (some (.bytes (s.ring.copyOut n).1)))) u).write? = some w →
      (s.phase u).write? = some w := by
    intro u w hw
    by_cases hu : u = t
    · rw [hu, update_self] at hw
      cases hw
    · rwa [update_of_ne hu] at hw
  refine ⟨hring, ?_, h.known, fun u w hw => h.under u w (hwrite u w hw),
    fun u u' v w hv hw => h.apart u u' v w (hwrite u v hv) (hwrite u' w hw), h.atomic,
    fun w r hmem => ?_⟩
  · simp only [List.flatMap_append, List.flatMap_singleton, Ret.data, List.append_assoc, hstored]
    exact h.data
  · rcases List.mem_append.mp hmem with hmem | hmem
    · obtain ⟨hcall, hnone, hcount⟩ := h.ended w r hmem
      exact ⟨hcall, fun u v hv => hnone u v (hwrite u v hv), hcount⟩
    · simp at hmem

omit [DecidableEq T] in
theorem pieces_of_append {s s' : State α T} {id : ℕ} {c : List α}
    (h : s'.chunks = s.chunks ++ [(id, c)]) (k : ℕ) :
    s'.pieces k = if k = id then s.pieces k ++ [c] else s.pieces k := by
  unfold State.pieces
  rw [h, List.filter_append, List.map_append]
  by_cases hk : k = id
  · simp [hk]
  · simp [hk, Ne.symm hk]

omit [DecidableEq T] in
theorem Stream.fresh {s : State α T} (h : Stream out s) {t : T} {w : Write α}
    (hw : (s.phase t).write? = some w) (hlen : w.all.length ≤ pipeBuf) :
    s.pieces w.id = [] ∧ w.rest = w.all := by
  obtain ⟨hcall, hpieces, hrest⟩ := h.under t w hw
  rcases h.atomic w.id w.all hcall hlen with hnone | hone
  · rw [hnone] at hpieces
    exact ⟨hnone, hpieces⟩
  · rw [hone] at hpieces
    exact absurd (by simpa using hpieces) hrest

theorem Stream.chunk {s : State α T} (h : Stream out s) {t : T} {w : Write α}
    (hw : (s.phase t).write? = some w) (f : File)
    (hfree : min w.rest.length pipeBuf ≤ s.ring.totalBytes - s.ring.msgBytes) :
    Stream (out ++ (if w.rest.drop (s.ring.totalBytes - s.ring.msgBytes) = [] then
        [(some w, .written w.all.length)] else [])) { s with
      ring := s.ring.copyIn (w.rest.take (s.ring.totalBytes - s.ring.msgBytes))
      phase := update s.phase t
        (if w.rest.drop (s.ring.totalBytes - s.ring.msgBytes) = [] then
          .idle (some (.written w.all.length))
        else .writeEnter f { w with rest := w.rest.drop (s.ring.totalBytes - s.ring.msgBytes) })
      chunks := s.chunks ++
        [(w.id, w.rest.take (s.ring.totalBytes - s.ring.msgBytes))] } := by
  obtain ⟨hcall, hpieces, hrest⟩ := h.under t w hw
  have hlen := List.length_pos_of_ne_nil hrest
  generalize hF : s.ring.totalBytes - s.ring.msgBytes = F at hfree
  have hsplit := List.take_append_drop F w.rest
  have hchunk : w.rest.take F ≠ [] := by
    intro hnil
    rw [List.take_eq_nil_iff] at hnil
    rcases hnil with hzero | hnil
    · have : pipeBuf = 4096 := rfl
      omega
    · exact hrest hnil
  obtain ⟨hring, hstored⟩ := copyIn_spec h.ring
    (by rw [hF, List.length_take]; omega) hchunk
  have hwrite : ∀ u v, ((update s.phase t
      (if w.rest.drop F = [] then .idle (some (.written w.all.length))
        else .writeEnter f { w with rest := w.rest.drop F })) u).write? = some v →
      (u = t ∧ v = { w with rest := w.rest.drop F } ∧ w.rest.drop F ≠ []) ∨
        (u ≠ t ∧ (s.phase u).write? = some v) := by
    intro u v hv
    by_cases hu : u = t
    · rw [hu, update_self] at hv
      split_ifs at hv with hdone
      · cases hv
      · exact Or.inl ⟨hu, (Option.some.inj hv).symm, hdone⟩
    · rw [update_of_ne hu] at hv
      exact Or.inr ⟨hu, hv⟩
  refine ⟨hring, ?_, fun p hp => ?_, fun u v hv => ?_, fun u u' v v' hv hv' hid => ?_,
    fun id bytes hb hlen' => ?_, fun v r hmem => ?_⟩
  · have hnone : (if w.rest.drop F = [] then [(some w, .written w.all.length)] else
        ([] : List (Answer α))).flatMap (fun r => r.2.data) = [] := by
      split_ifs <;> rfl
    simp only [List.flatMap_append, hnone, List.append_nil, State.stream, List.map_append,
      List.flatten_append, hstored]
    rw [← List.append_assoc, h.data]
    simp [State.stream]
  · rcases List.mem_append.mp hp with hp | hp
    · exact h.known p hp
    · rw [List.mem_singleton.mp hp]
      exact (List.getElem?_eq_some_iff.mp hcall).1
  · rw [pieces_of_append rfl]
    rcases hwrite u v hv with ⟨-, rfl, hdone⟩ | ⟨hu, hv⟩
    · refine ⟨hcall, ?_, hdone⟩
      rw [if_pos rfl, List.flatten_append, List.flatten_singleton, List.append_assoc, hsplit]
      exact hpieces
    · have hid : v.id ≠ w.id := fun hid => hu (h.apart u t v w hv hw hid)
      rw [if_neg hid]
      exact h.under u v hv
  · rcases hwrite u v hv with ⟨rfl, rfl, -⟩ | ⟨-, hold⟩ <;>
      rcases hwrite u' v' hv' with ⟨rfl, rfl, -⟩ | ⟨-, hold'⟩
    · rfl
    · exact h.apart u u' w v' hw hold' hid
    · exact h.apart u u' v w hold hw hid
    · exact h.apart u u' v v' hold hold' hid
  · rw [pieces_of_append rfl]
    by_cases hid : id = w.id
    · subst hid
      obtain rfl : w.all = bytes := Option.some.inj (hcall.symm.trans hb)
      obtain ⟨hnone, hall⟩ := h.fresh hw hlen'
      right
      rw [if_pos rfl, hnone, hall, List.nil_append, List.take_of_length_le]
      rw [hall] at hfree
      omega
    · rw [if_neg hid]
      exact h.atomic id bytes hb hlen'
  · rcases List.mem_append.mp hmem with hmem | hmem
    · obtain ⟨hcall', hnone, hcount⟩ := h.ended v r hmem
      have hid : v.id ≠ w.id := (hnone t w hw).symm
      rw [pieces_of_append rfl, if_neg hid]
      refine ⟨hcall', fun u v' hv' => ?_, hcount⟩
      rcases hwrite u v' hv' with ⟨-, rfl, -⟩ | ⟨-, hv'⟩
      · exact hid.symm
      · exact hnone u v' hv'
    · by_cases hdone : w.rest.drop F = []
      · rw [if_pos hdone, List.mem_singleton, Prod.mk.injEq, Option.some.injEq] at hmem
        obtain ⟨rfl, rfl⟩ := hmem
        rw [hdone, List.append_nil] at hsplit
        refine ⟨hcall, fun u v' hv' hid => ?_, fun n hn => ?_⟩
        · rcases hwrite u v' hv' with ⟨-, -, hrest'⟩ | ⟨hu, hv'⟩
          · exact hrest' hdone
          · exact hu (h.apart u t v' v hv' hw hid)
        · obtain rfl : v.all.length = n := Option.some.inj hn
          rw [pieces_of_append rfl, if_pos rfl, List.flatten_append, List.flatten_singleton,
            hsplit, hpieces, List.take_length]
      · rw [if_neg hdone] at hmem
        cases hmem

end SylixOS.Spipe
