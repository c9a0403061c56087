import SylixOS.IoPath

/-! `_PathCondense` computes the canonical form of a path, but for components of three dots and
more. -/

namespace SylixOS.IoPath
open SylixOS.ByteBuffer SylixOS.PathStack Function

section Turn

variable {buf : Bytes} {node temp k : Nat} {b b' : Bool}

theorem turn_back (hc : isDivider (buf temp) = true) (hk : 1 < k)
    (hback : isDivider (update buf temp pxDivider
      (putBack (update buf temp pxDivider) node)) = true) :
    turn ⟨buf, node, temp, k, b, b'⟩ = ⟨update buf temp pxDivider,
      putBack (update buf temp pxDivider) node, temp + 1, 0, true, b'⟩ := by
  simp [turn, hc, hk, hback]

theorem turn_single (hc : isDivider (buf temp) = true) :
    turn ⟨buf, node, temp, 1, b, b'⟩ =
      ⟨update buf temp pxDivider, node, temp + 1, 0, true, b'⟩ := by
  simp [turn, hc]

theorem turn_divider (hc : isDivider (buf temp) = true) :
    turn ⟨buf, node, temp, 0, b, b'⟩ =
      ⟨update (update buf temp pxDivider) node pxDivider, node, temp + 1, 0, true,
        true⟩ := by
  simp [turn, hc]

theorem turn_dot (hc : buf temp = dot) :
    turn ⟨buf, node, temp, k, true, b'⟩ = ⟨buf, node, temp + 1, k + 1, true, b'⟩ := by
  have hdot : isDivider dot = false := rfl
  simp [turn, hc, hdot]

theorem turn_first (hc : isDivider (buf temp) = false) (hdot : buf temp ≠ dot)
    (hroom : node + 1 + k ≤ temp) :
    turn ⟨buf, node, temp, k, true, true⟩ =
      ⟨update (patch buf (node + 1) k fun _ => dot) (node + 1 + k) (buf temp),
        node + 1 + k + 1, temp + 1, 0, false, false⟩ := by
  have hread : patch buf (node + 1) k (fun _ => dot) temp = buf temp :=
    patch_outside _ _ (Or.inr hroom)
  simp [turn, hc, hdot, hread]

theorem turn_next (hc : isDivider (buf temp) = false) :
    turn ⟨buf, node, temp, 0, false, false⟩ =
      ⟨update buf node (buf temp), node + 1, temp + 1, 0, false, false⟩ := by
  simp [turn, hc]

end Turn

variable {s p cur : List UInt8} {comps : List (List UInt8)} {buf : Bytes} {σ : Condense} {x : UInt8}

structure Common (s p : List UInt8) (comps : List (List UInt8)) (cur : List UInt8) (buf : Bytes) :
    Prop where
  split : components p = comps ++ [cur]
  unread : ∀ i, p.length ≤ i → (hi : i < s.length) → buf i = s[i]
  terminator : buf s.length = pxEos
  room : (joined (resolve dotKind comps)).length + 1 + cur.length ≤ p.length

inductive Reading (s p : List UInt8) : Condense → Prop
  | dots {comps : List (List UInt8)} {k : Nat} {buf : Bytes}
      (common : Common s p comps (List.replicate k dot) buf)
      (starts : Starts buf (joined (resolve dotKind comps) ++ [pxDivider])) :
      Reading s p ⟨buf, (joined (resolve dotKind comps)).length, p.length, k, true, true⟩
  | name {comps : List (List UInt8)} {cur : List UInt8} {buf : Bytes}
      (common : Common s p comps cur buf) (hname : dotKind cur = .name)
      (starts : Starts buf (joined (resolve dotKind comps ++ [cur]))) :
      Reading s p
        ⟨buf, (joined (resolve dotKind comps ++ [cur])).length, p.length, 0, false, false⟩

theorem allDots_iff : cur.all (· == dot) = true ↔ ∀ x ∈ cur, x = dot := by
  simp only [List.all_eq_true, beq_iff_eq]

theorem dotKind_dots (k : Nat) :
    dotKind (List.replicate k dot) = if k ≤ 1 then .skip else .up := by
  have hall : ∀ x ∈ List.replicate k dot, x = dot := fun x hx => List.eq_of_mem_replicate hx
  rw [dotKind, if_pos (allDots_iff.mpr hall), List.length_replicate]

theorem dotKind_name (hx : x ∈ cur) (hdot : x ≠ dot) : dotKind cur = .name :=
  if_neg fun hall => hdot (allDots_iff.mp hall x hx)

theorem exists_of_dotKind_name (h : dotKind cur = .name) : ∃ x ∈ cur, x ≠ dot := by
  by_contra hnone
  have hall : ∀ x ∈ cur, x = dot := fun x hx => by_contra fun hne => hnone ⟨x, hx, hne⟩
  rw [dotKind, if_pos (allDots_iff.mpr hall)] at h
  split at h <;> exact nomatch h

theorem joined_length_le_dropLast (l : List (List UInt8)) :
    (joined l.dropLast).length ≤ (joined l).length := by
  induction l using List.reverseRecOn with
  | nil => exact le_rfl
  | append_singleton l c =>
    rw [List.dropLast_concat, joined_concat, List.length_append]
    exact Nat.le_add_right _ _

namespace Common

theorem rest_length {rest : List UInt8} (hs : s = p ++ x :: rest) : p.length < s.length := by
  rw [hs, List.length_append, List.length_cons]
  omega

theorem next (common : Common s p comps cur buf) {rest : List UInt8} (hs : s = p ++ x :: rest) :
    buf p.length = x := by
  rw [common.unread _ le_rfl (rest_length hs)]
  simp [hs]

theorem step (common : Common s p comps cur buf) {rest cur' : List UInt8}
    {comps' : List (List UInt8)} {buf' : Bytes} (hs : s = p ++ x :: rest)
    (hsplit : components (p ++ [x]) = comps' ++ [cur'])
    (hbuf : ∀ i, p.length < i → buf' i = buf i)
    (hroom : (joined (resolve dotKind comps')).length + 1 + cur'.length ≤ p.length + 1) :
    Common s (p ++ [x]) comps' cur' buf' := by
  have hlen : (p ++ [x]).length = p.length + 1 := List.length_append
  refine ⟨hsplit, fun i hi hi' => ?_, ?_, by omega⟩
  · rw [hbuf i (by omega)]
    exact common.unread i (by omega) hi'
  · rw [hbuf _ (rest_length hs)]
    exact common.terminator

theorem names (common : Common s p comps cur buf) :
    ∀ c ∈ resolve dotKind comps, ∀ x ∈ c, isDivider x = false := by
  intro c hc x hx
  have hmem : c ∈ components p := common.split ▸ List.mem_append_left _ (mem_resolve hc).1
  exact (mem_components hmem x hx).2

end Common

theorem putBack_joined {l : List (List UInt8)} (hl : ∀ c ∈ l, ∀ x ∈ c, isDivider x = false)
    (starts : Starts buf (joined l ++ [pxDivider])) :
    putBack buf (joined l).length = (joined l.dropLast).length ∧
      Starts buf (joined l.dropLast ++ [pxDivider]) := by
  induction l using List.reverseRecOn with
  | nil => exact ⟨rfl, starts⟩
  | append_singleton l c =>
    rw [List.dropLast_concat]
    rw [joined_concat] at starts ⊢
    refine ⟨putBack_eq starts.left (hl c (by simp)), ?_⟩
    have hcons : joined l ++ pxDivider :: c ++ [pxDivider] =
        joined l ++ [pxDivider] ++ (c ++ [pxDivider]) := by simp
    rw [hcons] at starts
    exact starts.left

namespace Reading

variable {k : Nat} {rest : List UInt8}

theorem divider_dots (common : Common s p comps (List.replicate k dot) buf)
    (starts : Starts buf (joined (resolve dotKind comps) ++ [pxDivider])) (hs : s = p ++ x :: rest)
    (hx : isDivider x = true) :
    Reading s (p ++ [x])
      (turn ⟨buf, (joined (resolve dotKind comps)).length, p.length, k, true, true⟩) := by
  have hread : isDivider (buf p.length) = true := common.next hs ▸ hx
  have hroom := common.room
  rw [List.length_replicate] at hroom
  have hbuf : ∀ i, p.length < i → update buf p.length pxDivider i = buf i :=
    fun i hi => update_of_ne (by omega) _ _
  have hshort : (joined (resolve dotKind comps) ++ [pxDivider]).length ≤ p.length := by
    rw [List.length_append, List.length_singleton]
    omega
  have starts' := starts.update (v := pxDivider) hshort
  have hsplit : components (p ++ [x]) = comps ++ [List.replicate k dot] ++ [[]] := by
    rw [components_divider hx, common.split]
  have hkind := dotKind_dots k
  have hlen : (p ++ [x]).length = p.length + 1 := List.length_append
  rcases Nat.lt_trichotomy k 1 with hk | rfl | hk
  · obtain rfl := Nat.lt_one_iff.mp hk
    have hres : resolve dotKind (comps ++ [List.replicate 0 dot]) = resolve dotKind comps := by
      rw [resolve_concat, push_skip hkind]
    have starts'' := (starts'.left.write (v := pxDivider))
    rw [turn_divider hread, ← hlen, ← hres]
    rw [← hres] at starts'' hroom
    refine .dots (common.step hs hsplit (fun i hi => ?_) ?_) starts''
    · rw [update_of_ne (by omega), hbuf i hi]
    · rw [List.length_replicate]
      omega
  · have hres : resolve dotKind (comps ++ [List.replicate 1 dot]) = resolve dotKind comps := by
      rw [resolve_concat, push_skip hkind]
    rw [turn_single hread, ← hlen, ← hres]
    rw [← hres] at starts' hroom
    refine .dots (common.step hs hsplit hbuf ?_) starts'
    rw [List.length_replicate]
    omega
  · have hup : dotKind (List.replicate k dot) = .up := hkind.trans (if_neg (by omega))
    have hres : resolve dotKind (comps ++ [List.replicate k dot]) =
        (resolve dotKind comps).dropLast := by
      rw [resolve_concat, push_up hup]
    obtain ⟨hnode, hback⟩ := putBack_joined common.names starts'
    have hshorter := joined_length_le_dropLast (resolve dotKind comps)
    have hdivider : isDivider (update buf p.length pxDivider
        (putBack (update buf p.length pxDivider)
          (joined (resolve dotKind comps)).length)) = true := by
      rw [hnode, hback.at]
      rfl
    rw [turn_back hread hk hdivider, hnode, ← hlen, ← hres]
    rw [← hres] at hback hshorter
    refine .dots (common.step hs hsplit hbuf ?_) hback
    rw [List.length_replicate]
    omega

theorem divider_name (common : Common s p comps cur buf) (hname : dotKind cur = .name)
    (starts : Starts buf (joined (resolve dotKind comps ++ [cur]))) (hs : s = p ++ x :: rest)
    (hx : isDivider x = true) :
    Reading s (p ++ [x])
      (turn ⟨buf, (joined (resolve dotKind comps ++ [cur])).length, p.length, 0, false, false⟩) := by
  have hread : isDivider (buf p.length) = true := common.next hs ▸ hx
  have hroom := common.room
  have hres : resolve dotKind (comps ++ [cur]) = resolve dotKind comps ++ [cur] := by
    rw [resolve_concat, push_name hname]
  have hshort : (joined (resolve dotKind comps ++ [cur])).length ≤ p.length := by
    rw [joined_concat, List.length_append, List.length_cons]
    omega
  have starts' := (starts.update (v := pxDivider) hshort).write (v := pxDivider)
  have hsplit : components (p ++ [x]) = comps ++ [cur] ++ [[]] := by
    rw [components_divider hx, common.split]
  have hlen : (p ++ [x]).length = p.length + 1 := List.length_append
  rw [turn_divider hread, ← hlen, ← hres]
  rw [← hres] at starts' hshort
  refine .dots (common.step hs hsplit (fun i hi => ?_) ?_) starts'
  · rw [update_of_ne (by omega), update_of_ne (by omega)]
  · rw [List.length_replicate]
    omega

theorem first (common : Common s p comps (List.replicate k dot) buf)
    (starts : Starts buf (joined (resolve dotKind comps) ++ [pxDivider])) (hs : s = p ++ x :: rest)
    (hx : isDivider x = false) (hdot : x ≠ dot) :
    Reading s (p ++ [x])
      (turn ⟨buf, (joined (resolve dotKind comps)).length, p.length, k, true, true⟩) := by
  have hnext := common.next hs
  have hroom := common.room
  rw [List.length_replicate] at hroom
  have hname : dotKind (List.replicate k dot ++ [x]) = .name :=
    dotKind_name (List.mem_append_right _ (List.mem_singleton_self x)) hdot
  have hjoined : joined (resolve dotKind comps ++ [List.replicate k dot ++ [x]]) =
      joined (resolve dotKind comps) ++ [pxDivider] ++ List.replicate k dot ++ [x] := by
    rw [joined_concat]
    simp
  have hnode : (joined (resolve dotKind comps) ++ [pxDivider] ++ List.replicate k dot).length =
      (joined (resolve dotKind comps)).length + 1 + k := by
    simp
    omega
  have starts' := (starts.fill (v := dot) k).write (v := x)
  have hlen : (p ++ [x]).length = p.length + 1 := List.length_append
  rw [hnode, ← hjoined] at starts'
  have hread : isDivider (buf p.length) = false := hnext.symm ▸ hx
  have hread' : buf p.length ≠ dot := hnext.symm ▸ hdot
  have hnode' : (joined (resolve dotKind comps)).length + 1 + k + 1 =
      (joined (resolve dotKind comps ++ [List.replicate k dot ++ [x]])).length := by
    rw [hjoined, List.length_append, hnode, List.length_singleton]
  have hfill : (joined (resolve dotKind comps) ++ [pxDivider]).length =
      (joined (resolve dotKind comps)).length + 1 := List.length_append
  rw [turn_first hread hread' hroom, hnext, hnode', ← hlen]
  rw [hfill] at starts'
  refine .name (common.step hs (components_concat common.split hx) (fun i hi => ?_) ?_) hname
    starts'
  · rw [update_of_ne (by omega), patch_outside _ _ (by omega)]
  · rw [List.length_append, List.length_replicate, List.length_singleton]
    omega

theorem more (common : Common s p comps cur buf) (hname : dotKind cur = .name)
    (starts : Starts buf (joined (resolve dotKind comps ++ [cur]))) (hs : s = p ++ x :: rest)
    (hx : isDivider x = false) :
    Reading s (p ++ [x])
      (turn ⟨buf, (joined (resolve dotKind comps ++ [cur])).length, p.length, 0, false, false⟩) := by
  have hnext := common.next hs
  have hroom := common.room
  have hread : isDivider (buf p.length) = false := hnext.symm ▸ hx
  obtain ⟨y, hy, hdot⟩ := exists_of_dotKind_name hname
  have hname' : dotKind (cur ++ [x]) = .name := dotKind_name (List.mem_append_left _ hy) hdot
  have hjoined : joined (resolve dotKind comps ++ [cur ++ [x]]) =
      joined (resolve dotKind comps ++ [cur]) ++ [x] := by
    rw [joined_concat, joined_concat]
    simp
  have hnode : (joined (resolve dotKind comps ++ [cur])).length + 1 =
      (joined (resolve dotKind comps ++ [cur ++ [x]])).length := by
    rw [hjoined, List.length_append, List.length_singleton]
  have hshort : (joined (resolve dotKind comps ++ [cur])).length ≤ p.length := by
    rw [joined_concat, List.length_append, List.length_cons]
    omega
  have starts' := starts.write (v := x)
  have hlen : (p ++ [x]).length = p.length + 1 := List.length_append
  rw [← hjoined] at starts'
  rw [turn_next hread, hnext, hnode, ← hlen]
  refine .name (common.step hs (components_concat common.split hx) (fun i hi => ?_) ?_) hname'
    starts'
  · rw [update_of_ne (by omega)]
  · rw [List.length_append, List.length_singleton]
    omega

theorem oneDot (common : Common s p comps (List.replicate k dot) buf)
    (starts : Starts buf (joined (resolve dotKind comps) ++ [pxDivider])) (hs : s = p ++ dot :: rest) :
    Reading s (p ++ [dot])
      (turn ⟨buf, (joined (resolve dotKind comps)).length, p.length, k, true, true⟩) := by
  have hroom := common.room
  rw [List.length_replicate] at hroom
  have hdots : List.replicate k dot ++ [dot] = List.replicate (k + 1) dot :=
    List.replicate_succ'.symm
  have hlen : (p ++ [dot]).length = p.length + 1 := List.length_append
  have hsplit := components_concat common.split (show isDivider dot = false from rfl)
  rw [hdots] at hsplit
  rw [turn_dot (common.next hs), ← hlen]
  refine .dots (common.step hs hsplit (fun _ _ => rfl) ?_) starts
  rw [List.length_replicate]
  omega

theorem turn (reading : Reading s p σ) (hs : s = p ++ x :: rest) :
    Reading s (p ++ [x]) (IoPath.turn σ) := by
  cases reading with
  | dots common starts =>
    cases hx : isDivider x with
    | true => exact divider_dots common starts hs hx
    | false =>
      by_cases hdot : x = dot
      · subst hdot
        exact oneDot common starts hs
      · exact first common starts hs hx hdot
  | name common hname starts =>
    cases hx : isDivider x with
    | true => exact divider_name common hname starts hs hx
    | false => exact more common hname starts hs hx

theorem common (reading : Reading s p σ) :
    σ.pcTemp = p.length ∧ ∃ comps cur, Common s p comps cur σ.buf := by
  cases reading with
  | dots common => exact ⟨rfl, _, _, common⟩
  | name common => exact ⟨rfl, _, _, common⟩

theorem loop (hs : pxEos ∉ s) (rest : List UInt8) {p : List UInt8} {σ : Condense}
    (reading : Reading s p σ) (hrest : s = p ++ rest) :
    ∃ σ', (∀ fuel, rest.length < fuel → condenseLoop fuel σ = some σ') ∧ Reading s s σ' := by
  induction rest generalizing p σ with
  | nil =>
    obtain ⟨htemp, comps, cur, common⟩ := reading.common
    rw [List.append_nil] at hrest
    subst hrest
    refine ⟨σ, fun fuel hfuel => ?_, reading⟩
    obtain ⟨fuel, rfl⟩ := Nat.exists_eq_succ_of_ne_zero (Nat.ne_zero_of_lt hfuel)
    rw [Nat.succ_eq_add_one, condenseLoop, htemp, if_pos common.terminator]
  | cons x rest ih =>
    obtain ⟨htemp, comps, cur, common⟩ := reading.common
    have hx : x ≠ pxEos := fun heq => hs (by rw [hrest, heq]; simp)
    have hrest' : s = p ++ [x] ++ rest := by rw [hrest, List.append_assoc]; rfl
    obtain ⟨σ', hloop, reading'⟩ := ih (reading.turn hrest) hrest'
    refine ⟨σ', fun fuel hfuel => ?_, reading'⟩
    obtain ⟨fuel, rfl⟩ := Nat.exists_eq_succ_of_ne_zero (Nat.ne_zero_of_lt hfuel)
    rw [Nat.succ_eq_add_one, condenseLoop, htemp, common.next hrest, if_neg hx]
    exact hloop fuel (Nat.lt_of_succ_lt_succ hfuel)

theorem start {rest : List UInt8} (hs : s = pxDivider :: rest) (holds : Holds buf s) :
    Reading s [pxDivider] (IoPath.turn ⟨buf, 0, 0, 0, true, false⟩) := by
  have hfirst : buf 0 = pxDivider := by
    rw [holds.1 0 (by rw [hs, List.length_cons]; omega)]
    simp [hs]
  have hread : isDivider (buf 0) = true := hfirst ▸ rfl
  have hupdate : update buf 0 pxDivider = buf := hfirst ▸ update_eq_self 0 buf
  have hsplit : components [pxDivider] = [[]] ++ [List.replicate 0 dot] := rfl
  have hres : resolve dotKind [[]] = [] := rfl
  rw [turn_divider hread, hupdate, hupdate]
  refine .dots ⟨hsplit, fun i _ hi => holds.1 i hi, holds.2, le_rfl⟩ ?_
  intro i hi
  obtain rfl : i = 0 := Nat.lt_one_iff.mp hi
  exact hfirst

theorem end_name (common : Common s s comps cur buf) (hname : dotKind cur = .name)
    (starts : Starts buf (joined (resolve dotKind comps ++ [cur]))) :
    Holds (condenseEnd
        ⟨buf, (joined (resolve dotKind comps ++ [cur])).length, s.length, 0, false, false⟩)
      (joined (resolve dotKind comps ++ [cur])) := by
  obtain ⟨y, hy, -⟩ := exists_of_dotKind_name hname
  obtain ⟨cur, z, rfl⟩ := (List.eq_nil_or_concat cur).resolve_left (List.ne_nil_of_mem hy)
  rw [List.concat_eq_append] at *
  have hz : isDivider z = false := by
    have hmem : cur ++ [z] ∈ components s := common.split ▸ List.mem_append_right _ (by simp)
    exact (mem_components hmem z (by simp)).2
  have hjoined : joined (resolve dotKind comps ++ [cur ++ [z]]) =
      joined (resolve dotKind comps ++ [cur]) ++ [z] := by
    rw [joined_concat, joined_concat]
    simp
  have hlen : (joined (resolve dotKind comps ++ [cur]) ++ [z]).length =
      (joined (resolve dotKind comps ++ [cur])).length + 1 := List.length_append
  rw [hjoined] at starts ⊢
  have hlast : buf (joined (resolve dotKind comps ++ [cur])).length = z := starts.at
  have hend : condenseEnd
      ⟨buf, (joined (resolve dotKind comps ++ [cur]) ++ [z]).length, s.length, 0, false, false⟩ =
        update buf (joined (resolve dotKind comps ++ [cur]) ++ [z]).length pxEos := by
    simp [condenseEnd, hlast, hz]
  rw [hend]
  exact ⟨starts.update le_rfl, update_self ..⟩

theorem end_divider {l : List (List UInt8)} (starts : Starts buf (joined l ++ [pxDivider])) {n k : Nat}
    (hk : k ≤ 1) : Holds (condenseEnd ⟨buf, (joined l).length, n, k, true, true⟩) (render l) := by
  have hlast : buf (joined l).length = pxDivider := starts.at
  have hdivider : isDivider pxDivider = true := rfl
  have hdots : ¬1 < k := by omega
  rcases List.eq_nil_or_concat l with rfl | ⟨l, c, rfl⟩
  · have hend : condenseEnd ⟨buf, (joined []).length, n, k, true, true⟩ =
        update buf [pxDivider].length pxEos := by
      simp [condenseEnd, joined, hdots]
    rw [hend]
    exact ⟨Starts.update starts le_rfl, update_self ..⟩
  · rw [List.concat_eq_append] at *
    have hpos : 0 < (joined (l ++ [c])).length := by
      rw [joined_concat, List.length_append, List.length_cons]
      omega
    have hend : condenseEnd ⟨buf, (joined (l ++ [c])).length, n, k, true, true⟩ =
        update (update buf ((joined (l ++ [c])).length + 1) pxEos)
          (joined (l ++ [c])).length pxEos := by
      simp [condenseEnd, hdots, hlast, hdivider, hpos]
    have hrender : render (l ++ [c]) = joined (l ++ [c]) := if_neg (by simp)
    rw [hend, hrender]
    exact ⟨(starts.left.update (Nat.le_succ _)).update le_rfl, update_self ..⟩

theorem end_dots {k : Nat} (common : Common s s comps (List.replicate k dot) buf)
    (starts : Starts buf (joined (resolve dotKind comps) ++ [pxDivider])) :
    Holds (condenseEnd ⟨buf, (joined (resolve dotKind comps)).length, s.length, k, true, true⟩)
      (render (resolve dotKind (comps ++ [List.replicate k dot]))) := by
  have hkind := dotKind_dots k
  by_cases hk : k ≤ 1
  · rw [if_pos hk] at hkind
    rw [resolve_concat, push_skip hkind]
    exact end_divider starts hk
  · rw [if_neg hk] at hkind
    obtain ⟨hnode, hback⟩ := putBack_joined common.names starts
    have hend : condenseEnd ⟨buf, (joined (resolve dotKind comps)).length, s.length, k, true, true⟩ =
        condenseEnd ⟨buf, (joined (resolve dotKind comps).dropLast).length, s.length, 0, true,
          true⟩ := by
      simp [condenseEnd, hnode, not_le.mp hk]
    rw [resolve_concat, push_up hkind, hend]
    exact end_divider hback (Nat.zero_le 1)

theorem ends (reading : Reading s s σ) :
    Holds (condenseEnd σ) (render (resolve dotKind (components s))) := by
  cases reading with
  | dots common starts =>
    rw [common.split]
    exact end_dots common starts
  | @name comps cur buf common hname starts =>
    have hres : resolve dotKind (comps ++ [cur]) = resolve dotKind comps ++ [cur] := by
      rw [resolve_concat, push_name hname]
    have hrender : render (resolve dotKind comps ++ [cur]) = joined (resolve dotKind comps ++ [cur]) :=
      if_neg (by simp)
    rw [common.split, hres, hrender]
    exact end_name common hname starts

end Reading

end SylixOS.IoPath
