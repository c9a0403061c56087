import SylixOS.RamFsLib

/-! The block lists of files. `Chained` says that the five fields of a file
describe one line of blocks; every operation on a file is specified by the
line it leaves and by what it does to the blocks outside the line. -/

namespace SylixOS.RamFs
open SylixOS.ByteBuffer SylixOS.LinkedChain SylixOS.ListLink Function

section Sizes

variable (c : Config)

theorem Config.word_bound : c.word / 8 * 2 ≤ 16 ∧ 8 ≤ c.word / 8 * 2 := by
  rcases c.word_eq with h | h
  · rw [h]
    decide
  · rw [h]
    decide

theorem Config.bsize_ge : 2048 ≤ c.bsize :=
  (show 2048 ≤ 2 ^ 11 by decide).trans (Nat.pow_le_pow_right (by decide) c.shift_ge)

theorem Config.bdatasize_ge : 2032 ≤ c.bdatasize := by
  have := c.bsize_ge
  have := c.word_bound
  rw [Config.bdatasize]
  omega

theorem Config.bdatasize_lt : c.bdatasize < c.bsize := by
  have := c.bsize_ge
  have := c.word_bound
  rw [Config.bdatasize]
  omega

theorem Config.bsize_le : c.bsize * 2 ≤ 2 ^ c.word := by
  rw [Config.bsize, ← Nat.pow_succ]
  exact Nat.pow_le_pow_right (by decide) c.shift_lt

end Sizes

structure Chained (s : Store) (f : File) (l : List Nat) : Prop where
  line : IsLine s.links l
  start : f.bStart = l.head?
  last : f.bEnd = l.getLast?
  cnt : f.cnt = l.length
  live : ∀ b ∈ l, b ∈ s.live
  cookie : ∀ b, f.cookie = some b → l[f.ulCookie]? = some b

structure Touches (s : Store) (f : File) (l : List Nat) (s' : Store) (f' : File) (l' : List Nat) :
    Prop where
  chained : Chained s' f' l'
  links : ∀ x ∈ s.live, x ∉ l →
    s'.links.next x = s.links.next x ∧ s'.links.prev x = s.links.prev x
  data : ∀ x ∈ s.live, x ∉ l → s'.data x = s.data x
  live : ∀ x ∈ s.live, x ∉ l → x ∈ s'.live
  fresh : ∀ x ∈ l', x ∈ l ∨ x ∉ s.live
  count : s'.curBlk + f.cnt = s.curBlk + f'.cnt
  card : s'.live.card + f.cnt = s.live.card + f'.cnt
  max : s'.maxBlk = s.maxBlk

variable {s s' s'' : Store} {f f' f'' : File} {l l' l'' : List Nat}

theorem Touches.refl (h : Chained s f l) : Touches s f l s f l :=
  ⟨h, fun _ _ _ => ⟨rfl, rfl⟩, fun _ _ _ => rfl, fun _ hx _ => hx, fun _ hx => Or.inl hx, rfl, rfl, rfl⟩

theorem Touches.trans (h : Touches s f l s' f' l') (h' : Touches s' f' l' s'' f'' l'') :
    Touches s f l s'' f'' l'' := by
  have stays : ∀ x ∈ s.live, x ∉ l → x ∈ s'.live ∧ x ∉ l' := by
    intro x hx hxl
    refine ⟨h.live x hx hxl, ?_⟩
    intro hx'
    rcases h.fresh x hx' with hin | hout
    · exact hxl hin
    · exact hout hx
  refine ⟨h'.chained, ?_, ?_, ?_, ?_, ?_, ?_, h'.max.trans h.max⟩
  · intro x hx hxl
    have h1 := h.links x hx hxl
    have h2 := h'.links x (stays x hx hxl).1 (stays x hx hxl).2
    exact ⟨h2.1.trans h1.1, h2.2.trans h1.2⟩
  · intro x hx hxl
    exact (h'.data x (stays x hx hxl).1 (stays x hx hxl).2).trans (h.data x hx hxl)
  · intro x hx hxl
    exact h'.live x (stays x hx hxl).1 (stays x hx hxl).2
  · intro x hx
    rcases h'.fresh x hx with hin | hout
    · exact h.fresh x hin
    · by_cases hxl : x ∈ l
      · exact Or.inl hxl
      · exact Or.inr fun hlive => hout (h.live x hlive hxl)
  · have := h.count
    have := h'.count
    omega
  · have := h.card
    have := h'.card
    omega

theorem walk_next (h : IsLine s.links l) {i n b : Nat} (hb : l[i]? = some b) :
    walk s.links.next n b = l[i + n]? := by
  induction n generalizing i b with
  | zero => rw [walk, Nat.add_zero, hb]
  | succ n ih =>
    rw [walk, h.next_getElem hb]
    cases hnext : l[i + 1]? with
    | none =>
      rw [List.getElem?_eq_none_iff] at hnext
      rw [List.getElem?_eq_none (by omega)]
    | some b' =>
      rw [show i + (n + 1) = i + 1 + n by omega]
      exact ih hnext

theorem walk_prev (h : IsLine s.links l) {i n b : Nat} (hb : l[i]? = some b) (hn : n ≤ i) :
    walk s.links.prev n b = l[i - n]? := by
  induction n generalizing i b with
  | zero => rw [walk, Nat.sub_zero, hb]
  | succ n ih =>
    obtain ⟨i, rfl⟩ : ∃ j, i = j + 1 := ⟨i - 1, by omega⟩
    rw [walk, h.prev_getElem_succ hb]
    have hlt : i + 1 < l.length := (List.getElem?_eq_some_iff.mp hb).1
    have hprev : l[i]? = some l[i] := List.getElem?_eq_getElem (by omega)
    rw [hprev, show i + 1 - (n + 1) = i - n by omega]
    exact ih hprev (by omega)

theorem getbufByEnds_eq {c : Config} (h : Chained s f l) {idx : Nat} (hne : l ≠ [])
    (hidx : 2 * idx < 2 ^ c.word) (hlen : l.length < 2 ^ c.word) :
    getbufByEnds c s.links f idx = l[idx]? := by
  have hstart : l[0]? = some (l.head hne) := by
    rw [← List.head?_eq_getElem?, List.head?_eq_some_head]
  have hlast : l[l.length - 1]? = some (l.getLast hne) := by
    rw [← List.getLast?_eq_getElem?, List.getLast?_eq_some_getLast]
  have hpos : 0 < l.length := List.length_pos_iff.mpr hne
  rw [getbufByEnds, h.start, h.last, h.cnt, List.head?_eq_some_head hne,
    List.getLast?_eq_some_getLast hne]
  by_cases hlt : idx < l.length
  · have hback : (l.length + 2 ^ c.word - idx - 1) % 2 ^ c.word = l.length - 1 - idx := by
      rw [show l.length + 2 ^ c.word - idx - 1 = l.length - 1 - idx + 2 ^ c.word by omega,
        Nat.add_mod_right, Nat.mod_eq_of_lt (by omega)]
    rw [hback]
    split
    · rw [Option.bind_some, walk_next h.line hstart, Nat.zero_add]
    · rw [Option.bind_some, walk_prev h.line hlast (by omega)]
      congr 1
      omega
  · -- behind the end the difference wraps, and the walk from the start meets the null pointer
    have hle : idx ≤ (l.length + 2 ^ c.word - idx - 1) % 2 ^ c.word := by
      rw [Nat.mod_eq_of_lt (by omega)]
      omega
    rw [if_pos hle, Option.bind_some, walk_next h.line hstart, Nat.zero_add]

theorem getbufFind_eq {c : Config} (h : Chained s f l) {idx : Nat} (hne : l ≠ [])
    (hidx : 2 * idx < 2 ^ c.word) (hlen : l.length < 2 ^ c.word) :
    getbufFind c s.links f idx = l[idx]? := by
  have hends := getbufByEnds_eq h hne hidx hlen
  rw [getbufFind]
  cases hcookie : f.cookie with
  | none => exact hends
  | some cookie =>
    have hat := h.cookie cookie hcookie
    dsimp only
    split
    · rename_i hzero
      have heq : f.ulCookie = idx := by
        rw [ramFoot] at hzero
        split at hzero <;> omega
      rw [← heq, hat]
    · split
      · split
        · rw [walk_next h.line hat, ramFoot, if_neg (by omega)]
          congr 1
          omega
        · rename_i hnz _ hge
          have hlt : idx < f.ulCookie := by
            rw [ramFoot] at hnz
            split at hnz <;> omega
          rw [ramFoot, if_pos hlt, walk_prev h.line hat (by omega)]
          congr 1
          omega
      · exact hends

def SameButCookie (f f' : File) : Prop :=
  f' = { f with cookie := f'.cookie, ulCookie := f'.ulCookie }

theorem SameButCookie.trans (h : SameButCookie f f') (h' : SameButCookie f' f'') :
    SameButCookie f f'' := by
  rw [SameButCookie] at *
  rw [h', h]

theorem SameButCookie.chained (h : SameButCookie f f') (hf : Chained s f l)
    (hcookie : ∀ b, f'.cookie = some b → l[f'.ulCookie]? = some b) : Chained s f' l := by
  rw [SameButCookie] at h
  rw [h]
  exact ⟨hf.line, hf.start, hf.last, hf.cnt, hf.live, hcookie⟩

theorem ramGetbuf_spec {c : Config} (h : Chained s f l) {stOft : Nat} (hoft : stOft < 2 ^ c.word)
    (hlen : l.length < 2 ^ c.word) :
    (ramGetbuf c s.links f stOft).1 = l[stOft / c.bdatasize]? ∧
      Chained s (ramGetbuf c s.links f stOft).2 l ∧
      SameButCookie f (ramGetbuf c s.links f stOft).2 ∧
      ∀ b, (ramGetbuf c s.links f stOft).1 = some b →
        (ramGetbuf c s.links f stOft).2.cookie = some b ∧
          (ramGetbuf c s.links f stOft).2.ulCookie = stOft / c.bdatasize := by
  have hB := c.bdatasize_ge
  have hidx : 2 * (stOft / c.bdatasize) < 2 ^ c.word := by
    have := Nat.div_mul_le_self stOft c.bdatasize
    have : stOft / c.bdatasize * 2 ≤ stOft / c.bdatasize * c.bdatasize :=
      Nat.mul_le_mul_left _ (by omega)
    omega
  rw [ramGetbuf]
  by_cases hnil : l = []
  · subst hnil
    rw [if_pos (by rw [h.start]; rfl)]
    exact ⟨by simp, h, rfl, fun b hb => nomatch hb⟩
  have hne : f.bStart ≠ none := by
    rw [h.start, List.head?_eq_some_head hnil]
    exact fun e => nomatch e
  rw [if_neg hne]
  dsimp only
  rw [getbufFind_eq h hnil hidx hlen]
  cases hget : l[stOft / c.bdatasize]? with
  | none => exact ⟨rfl, h, rfl, fun b hb => nomatch hb⟩
  | some b =>
    refine ⟨rfl, ?_, rfl, fun b' hb' => ⟨?_, rfl⟩⟩
    · refine SameButCookie.chained rfl h ?_
      intro b' hb'
      dsimp only at hb' ⊢
      rw [hget, ← hb']
    · exact hb'

theorem ramGetbufNext_spec (h : Chained s f l) {i b : Nat} (hcookie : f.cookie = some b)
    (hi : f.ulCookie = i) :
    (ramGetbufNext s.links f).1 = l[i + 1]? ∧ Chained s (ramGetbufNext s.links f).2 l ∧
      SameButCookie f (ramGetbufNext s.links f).2 ∧
      (ramGetbufNext s.links f).2.cookie = l[i + 1]? ∧
      (ramGetbufNext s.links f).2.ulCookie = i + 1 := by
  have hat := h.cookie b hcookie
  rw [hi] at hat
  have hnext := h.line.next_getElem hat
  rw [ramGetbufNext, hcookie]
  dsimp only
  rw [hnext, hi]
  refine ⟨rfl, ?_, rfl, rfl, rfl⟩
  exact SameButCookie.chained rfl h fun b' hb' => hb'

def byteAt (c : Config) (s : Store) (l : List Nat) (p : Nat) : UInt8 :=
  match l[p / c.bdatasize]? with
  | some b => s.data b (p % c.bdatasize)
  | none => 0

theorem byteAt_block {c : Config} {i b j : Nat} (hb : l[i]? = some b) (hj : j < c.bdatasize) :
    byteAt c s l (i * c.bdatasize + j) = s.data b j := by
  have hpos : 0 < c.bdatasize := by omega
  have hdiv : (i * c.bdatasize + j) / c.bdatasize = i := by
    rw [Nat.mul_comm, Nat.mul_add_div hpos, Nat.div_eq_of_lt hj, Nat.add_zero]
  have hmod : (i * c.bdatasize + j) % c.bdatasize = j := by
    rw [Nat.mul_comm, Nat.mul_add_mod, Nat.mod_eq_of_lt hj]
  rw [byteAt, hdiv, hb, hmod]

theorem byteAt_behind {c : Config} {p : Nat} (h : l.length * c.bdatasize ≤ p) :
    byteAt c s l p = 0 := by
  have hpos : 0 < c.bdatasize := by
    have := c.bdatasize_ge
    omega
  have hlen : l.length ≤ p / c.bdatasize := (Nat.le_div_iff_mul_le hpos).mpr h
  rw [byteAt, List.getElem?_eq_none hlen]

theorem readLoop_spec {c : Config} (fuel : Nat) {idx st n : Nat} (h : Chained s f l)
    (hcookie : ∀ b, l[idx]? = some b → f.cookie = some b ∧ f.ulCookie = idx)
    (hst : st < c.bdatasize) (hn : n < fuel) :
    (readLoop c s fuel l[idx]? st n f).1 =
        (List.range n).map (fun i => byteAt c s l (idx * c.bdatasize + st + i)) ∧
      Chained s (readLoop c s fuel l[idx]? st n f).2 l ∧
      SameButCookie f (readLoop c s fuel l[idx]? st n f).2 := by
  induction fuel generalizing idx st n f with
  | zero => omega
  | succ fuel ih =>
    cases hget : l[idx]? with
    | none =>
      have hidx : l.length ≤ idx := List.getElem?_eq_none_iff.mp hget
      refine ⟨?_, h, rfl⟩
      rw [readLoop]
      symm
      rw [List.eq_replicate_iff]
      refine ⟨by simp, ?_⟩
      intro x hx
      obtain ⟨i, -, rfl⟩ := List.mem_map.mp hx
      apply byteAt_behind
      have := Nat.mul_le_mul_right c.bdatasize hidx
      omega
    | some b =>
      obtain ⟨hc, hi⟩ := hcookie b hget
      rw [readLoop]
      dsimp only
      split
      · refine ⟨?_, h, rfl⟩
        apply List.map_congr_left
        intro i hi'
        rw [List.mem_range] at hi'
        rw [Nat.add_assoc, byteAt_block hget (by omega)]
      · -- the rest of the bytes comes from the next block
        obtain ⟨hnext, hchain, hsame, hcookie', hidx'⟩ := ramGetbufNext_spec h hc hi
        rw [hnext]
        have hrest := ih (n := n - (c.bdatasize - st)) hchain
          (fun b' hb' => ⟨hcookie'.trans hb', hidx'⟩) (show 0 < c.bdatasize by omega) (by omega)
        refine ⟨?_, hrest.2.1, hsame.trans hrest.2.2⟩
        dsimp only
        rw [hrest.1]
        have hsplit : List.range n = List.range (c.bdatasize - st) ++
            (List.range (n - (c.bdatasize - st))).map (c.bdatasize - st + ·) := by
          rw [← List.range_add]
          congr 1
          omega
        rw [hsplit, List.map_append, List.map_map]
        congr 1
        · apply List.map_congr_left
          intro i hi'
          rw [List.mem_range] at hi'
          rw [Nat.add_assoc, byteAt_block hget (by omega)]
        · apply List.map_congr_left
          intro i _
          simp only [Function.comp_apply]
          congr 1
          rw [Nat.add_mul]
          omega

theorem ramRead_spec {c : Config} (h : Chained s f l) {stSize stOft : Nat}
    (hoft : stOft < 2 ^ c.word) (hlen : l.length < 2 ^ c.word) :
    (ramRead c s f stSize stOft).1 =
        (List.range (min (f.vSize - stOft) stSize)).map (fun i => byteAt c s l (stOft + i)) ∧
      Chained s (ramRead c s f stSize stOft).2 l ∧
      SameButCookie f (ramRead c s f stSize stOft).2 := by
  rw [ramRead]
  split
  · rename_i hend
    rw [show f.vSize - stOft = 0 by omega, Nat.zero_min]
    exact ⟨rfl, h, rfl⟩
  · dsimp only
    obtain ⟨hbuf, hchain, hsame, hcookie⟩ := ramGetbuf_spec h hoft hlen
    have hpos : 0 < c.bdatasize := by
      have := c.bdatasize_ge
      omega
    rw [hbuf] at hcookie ⊢
    have hloop := readLoop_spec (min (f.vSize - stOft) stSize + 1) hchain hcookie
      (Nat.mod_lt stOft hpos) (Nat.lt_succ_self _)
    rw [Nat.div_add_mod'] at hloop
    exact ⟨hloop.1, hloop.2.1, hsame.trans hloop.2.2⟩

theorem byteAt_put {c : Config} (hnodup : l.Nodup) {i b st k : Nat} (hb : l[i]? = some b)
    (hk : st + k ≤ c.bdatasize) (src : Bytes) (p : Nat) :
    byteAt c (s.put b st k src) l p =
      if i * c.bdatasize + st ≤ p ∧ p < i * c.bdatasize + st + k then
        src (p - (i * c.bdatasize + st)) else byteAt c s l p := by
  have hpos : 0 < c.bdatasize := by
    have := c.bdatasize_ge
    omega
  have hp := Nat.div_add_mod' p c.bdatasize
  have hlt := Nat.mod_lt p hpos
  by_cases hi : p / c.bdatasize = i
  · -- the block itself
    rw [hi] at hp
    simp only [byteAt, hi, hb, Store.put, update_self, patch]
    split
    · rw [if_pos (by omega)]
      congr 1
      omega
    · rw [if_neg (by omega)]
  · have hother : ∀ b', l[p / c.bdatasize]? = some b' → b' ≠ b := by
      intro b' hb' heq
      subst heq
      obtain ⟨hlt', heq'⟩ := List.getElem?_eq_some_iff.mp hb'
      obtain ⟨hlt, heq⟩ := List.getElem?_eq_some_iff.mp hb
      exact hi ((List.Nodup.getElem_inj_iff hnodup).mp (heq'.trans heq.symm))
    have hout : ¬ (i * c.bdatasize + st ≤ p ∧ p < i * c.bdatasize + st + k) := by
      intro hin
      apply hi
      rw [Nat.div_eq_iff hpos]
      omega
    rw [if_neg hout]
    simp only [byteAt]
    cases hget : l[p / c.bdatasize]? with
    | none => rfl
    | some b' => simp only [Store.put, update_of_ne (hother b' hget)]

structure SameButData (s : Store) (l : List Nat) (s' : Store) : Prop where
  links : s'.links = s.links
  live : s'.live = s.live
  curBlk : s'.curBlk = s.curBlk
  maxBlk : s'.maxBlk = s.maxBlk
  data : ∀ b, b ∉ l → s'.data b = s.data b

theorem SameButData.refl (s : Store) (l : List Nat) : SameButData s l s :=
  ⟨rfl, rfl, rfl, rfl, fun _ _ => rfl⟩

theorem SameButData.trans (h : SameButData s l s') (h' : SameButData s' l s'') :
    SameButData s l s'' :=
  ⟨h'.links.trans h.links, h'.live.trans h.live, h'.curBlk.trans h.curBlk,
    h'.maxBlk.trans h.maxBlk, fun b hb => (h'.data b hb).trans (h.data b hb)⟩

theorem sameButData_put (s : Store) {b : Nat} (hb : b ∈ l) (st k : Nat) (src : Bytes) :
    SameButData s l (s.put b st k src) := by
  refine ⟨rfl, rfl, rfl, rfl, ?_⟩
  intro x hx
  have hne : x ≠ b := fun e => hx (e ▸ hb)
  exact update_of_ne hne _ _

theorem SameButData.chained (h : SameButData s l s') (hf : Chained s f l) : Chained s' f l :=
  ⟨h.links ▸ hf.line, hf.start, hf.last, hf.cnt, h.live ▸ hf.live, hf.cookie⟩

theorem SameButData.touches (h : SameButData s l s') (hf : Chained s' f' l) (hcnt : f'.cnt = f.cnt) :
    Touches s f l s' f' l where
  chained := hf
  links := fun x _ _ => by rw [h.links]; exact ⟨rfl, rfl⟩
  data := fun x _ hx => h.data x hx
  live := fun x hx _ => h.live ▸ hx
  fresh := fun x hx => Or.inl hx
  count := by rw [h.curBlk, hcnt]
  card := by rw [h.live, hcnt]
  max := h.maxBlk

theorem writeLoop_spec {c : Config} (src : Bytes) (fuel : Nat) {idx st n : Nat} (wr : Nat)
    (h : Chained s f l)
    (hcookie : ∀ b, l[idx]? = some b → f.cookie = some b ∧ f.ulCookie = idx)
    (hst : st < c.bdatasize) (hn : n < fuel) :
    let r := writeLoop c src fuel l[idx]? st n wr s f
    let k := min n (l.length * c.bdatasize - (idx * c.bdatasize + st))
    r.1 = wr + k ∧ SameButData s l r.2.1 ∧ Chained r.2.1 r.2.2 l ∧ SameButCookie f r.2.2 ∧
      ∀ p, byteAt c r.2.1 l p =
        if idx * c.bdatasize + st ≤ p ∧ p < idx * c.bdatasize + st + k then
          src (wr + (p - (idx * c.bdatasize + st))) else byteAt c s l p := by
  induction fuel generalizing idx st n wr s f with
  | zero => omega
  | succ fuel ih =>
    dsimp only
    cases hget : l[idx]? with
    | none =>
      have hidx : l.length ≤ idx := List.getElem?_eq_none_iff.mp hget
      have hmul := Nat.mul_le_mul_right c.bdatasize hidx
      have hk : min n (l.length * c.bdatasize - (idx * c.bdatasize + st)) = 0 := by omega
      rw [hk]
      refine ⟨rfl, .refl s l, h, rfl, ?_⟩
      intro p
      rw [if_neg (by omega)]
      rfl
    | some b =>
      obtain ⟨hc, hi⟩ := hcookie b hget
      obtain ⟨hlt, hbl⟩ := List.getElem?_eq_some_iff.mp hget
      have hmem : b ∈ l := List.mem_of_getElem? hget
      have hroom : (idx + 1) * c.bdatasize ≤ l.length * c.bdatasize :=
        Nat.mul_le_mul_right _ hlt
      rw [Nat.add_mul, Nat.one_mul] at hroom
      have hput := fun k => sameButData_put s hmem st k (advance src wr)
      rw [writeLoop]
      split
      · rename_i hzero
        subst hzero
        rw [Nat.zero_min]
        refine ⟨rfl, .refl s l, h, rfl, ?_⟩
        intro p
        rw [if_neg (by omega)]
      · dsimp only
        split
        · -- the last block written
          rw [Nat.min_eq_left (by omega)]
          refine ⟨rfl, hput n, (hput n).chained h, rfl, ?_⟩
          intro p
          exact byteAt_put h.line.nodup hget (by omega) _ p
        · obtain ⟨hnext, hchain, hsame, hcookie', hidx'⟩ := ramGetbufNext_spec h hc hi
          rw [hnext]
          have hfilled := hput (c.bdatasize - st)
          have hrest := ih (n := n - (c.bdatasize - st)) (wr + (c.bdatasize - st))
            (hfilled.chained hchain) (fun b' hb' => ⟨hcookie'.trans hb', hidx'⟩)
            (show 0 < c.bdatasize by omega) (by omega)
          dsimp only at hrest
          obtain ⟨hwr, hdata, hch, hsb, hbytes⟩ := hrest
          rw [Nat.add_mul, Nat.one_mul] at hwr hbytes
          refine ⟨?_, hfilled.trans hdata, hch, hsame.trans hsb, ?_⟩
          · rw [hwr]
            omega
          · intro p
            rw [hbytes p, byteAt_put h.line.nodup hget (by omega)]
            by_cases hlow : p < idx * c.bdatasize + c.bdatasize
            · rw [if_neg (by omega)]
              split
              · rw [if_pos (by omega)]
                rfl
              · rw [if_neg (by omega)]
            · split
              · rw [if_pos (by omega)]
                congr 1
                omega
              · rw [if_neg (by omega), if_neg (by omega)]

/-- Each call of `__RAM_BALLOC` gives a block that is not in use, and the blocks in use fit in the
address space. -/
structure FreshAlloc (c : Config) (alloc : Alloc) (live : Finset Nat) : Prop where
  fresh : ∀ i b bytes, alloc i = some (b, bytes) → b ∉ live
  distinct : ∀ i j b bytes bytes', alloc i = some (b, bytes) → alloc j = some (b, bytes') → i = j
  room : ∀ i r, alloc i = some r → (live.card + i + 1) * c.bsize ≤ 2 ^ c.word

def allocated (alloc : Alloc) : (left i : Nat) → List (Nat × Bytes)
  | 0, _ => []
  | left + 1, i =>
    match alloc i with
    | none => []
    | some r => r :: allocated alloc left (i + 1)

def addBlocks (clear : Bool) (s : Store) (f : File) : List (Nat × Bytes) → Store × File
  | [] => (s, f)
  | (b, bytes) :: rest =>
    let grown := addBlock s f b (if clear then fun _ => 0 else bytes)
    addBlocks clear grown.1 grown.2 rest

theorem automemLoop_eq (clear : Bool) (alloc : Alloc) (left i : Nat) (s : Store) (f : File) :
    automemLoop clear alloc left i s f =
      (decide ((allocated alloc left i).length = left), addBlocks clear s f (allocated alloc left i)) := by
  induction left generalizing i s f with
  | zero => rfl
  | succ left ih =>
    rw [automemLoop, allocated]
    cases alloc i with
    | none => rfl
    | some r =>
      obtain ⟨b, bytes⟩ := r
      dsimp only
      rw [ih, addBlocks, List.length_cons]
      simp only [Nat.add_right_cancel_iff]

theorem length_allocated_le (alloc : Alloc) (left i : Nat) :
    (allocated alloc left i).length ≤ left := by
  induction left generalizing i with
  | zero => exact le_rfl
  | succ left ih =>
    rw [allocated]
    cases alloc i with
    | none => exact Nat.zero_le _
    | some r =>
      rw [List.length_cons]
      exact Nat.succ_le_succ (ih (i + 1))

theorem allocated_getElem {alloc : Alloc} {left i j : Nat} {r : Nat × Bytes}
    (h : (allocated alloc left i)[j]? = some r) : alloc (i + j) = some r := by
  induction left generalizing i j with
  | zero => simp [allocated] at h
  | succ left ih =>
    rw [allocated] at h
    cases halloc : alloc i with
    | none =>
      rw [halloc] at h
      simp at h
    | some r' =>
      rw [halloc] at h
      cases j with
      | zero =>
        rw [List.getElem?_cons_zero] at h
        rw [Nat.add_zero, halloc, h]
      | succ j =>
        rw [List.getElem?_cons_succ] at h
        rw [show i + (j + 1) = i + 1 + j by omega]
        exact ih h

theorem FreshAlloc.allocated {c : Config} {alloc : Alloc} {live : Finset Nat}
    (h : FreshAlloc c alloc live) (left : Nat) :
    ((allocated alloc left 0).map Prod.fst).Nodup ∧
      ∀ b ∈ (RamFs.allocated alloc left 0).map Prod.fst, b ∉ live := by
  refine ⟨?_, ?_⟩
  · rw [List.nodup_iff_getElem?_ne_getElem?]
    intro i j hij hj heq
    rw [List.length_map] at hj
    rw [List.getElem?_map, List.getElem?_map, List.getElem?_eq_getElem (by omega),
      List.getElem?_eq_getElem hj, Option.map_some, Option.map_some, Option.some.injEq] at heq
    have hi : i < (RamFs.allocated alloc left 0).length := hij.trans hj
    have hi' := allocated_getElem (List.getElem?_eq_getElem hi)
    have hj' := allocated_getElem (List.getElem?_eq_getElem hj)
    rw [Nat.zero_add] at hi' hj'
    have hsame : (RamFs.allocated alloc left 0)[j] =
        ((RamFs.allocated alloc left 0)[i].1, (RamFs.allocated alloc left 0)[j].2) :=
      Prod.ext heq.symm rfl
    rw [hsame] at hj'
    have := h.distinct i j _ (RamFs.allocated alloc left 0)[i].2 _ hi' hj'
    omega
  · intro b hb
    obtain ⟨⟨b', bytes⟩, hmem, rfl⟩ := List.mem_map.mp hb
    obtain ⟨j, hj⟩ := List.getElem?_of_mem hmem
    exact h.fresh _ _ _ (allocated_getElem hj)

theorem addBlock_touches (h : Chained s f l) {b : Nat} (hb : b ∉ s.live) (bytes : Bytes) :
    Touches s f l (addBlock s f b bytes).1 (addBlock s f b bytes).2 (l ++ [b]) := by
  have hbl : b ∉ l := fun hm => hb (h.live b hm)
  have hline : ∃ links start, (addBlock s f b bytes).1.links = links ∧
      (addBlock s f b bytes).2.bStart = start ∧ (addBlock s f b bytes).2.bEnd = some b ∧
      IsLine links (l ++ [b]) ∧ start = (l ++ [b]).head? ∧
      ∀ x, x ∉ l ++ [b] → links.next x = s.links.next x ∧ links.prev x = s.links.prev x := by
    rcases List.eq_nil_or_concat l with rfl | ⟨t, z, rfl⟩
    · have hlast : f.bEnd = none := h.last
      have hstart : f.bStart = ([] : List Nat).head? := h.start
      obtain ⟨hadd, hframe⟩ := listLineAddAhead_spec h.line hbl
      refine ⟨_, _, rfl, rfl, ?_, ?_, ?_, ?_⟩
      · simp only [addBlock, hlast, listLineAddAhead]
      · simp only [addBlock, hlast, hstart]
        exact hadd
      · simp only [addBlock, hlast, listLineAddAhead]
        rfl
      · simp only [addBlock, hlast, hstart]
        exact hframe
    · rw [List.concat_eq_append] at *
      have hlast : f.bEnd = some z := by rw [h.last, List.getLast?_concat]
      have hzb : z ≠ b := fun e => hbl (by simp [e])
      have hcut : IsLine s.links (t ++ z :: []) := h.line
      obtain ⟨hadd, hframe⟩ := listLineAddTail_spec hcut hbl
      rw [← listLineAddRight_eq hzb] at hadd hframe
      refine ⟨_, _, rfl, rfl, ?_, ?_, ?_, ?_⟩
      · simp only [addBlock, hlast]
      · simp only [addBlock, hlast]
        simpa using hadd
      · simp only [addBlock, hlast, h.start]
        cases t <;> simp
      · simp only [addBlock, hlast]
        simpa using hframe
  obtain ⟨links, start, hlinks, hstart, hend, hisline, hhead, hframe⟩ := hline
  have hcur : (addBlock s f b bytes).1.curBlk = s.curBlk + 1 := rfl
  have hcnt : (addBlock s f b bytes).2.cnt = f.cnt + 1 := rfl
  have hlive : (addBlock s f b bytes).1.live = insert b s.live := rfl
  refine ⟨⟨hlinks ▸ hisline, hstart.trans hhead, ?_, ?_, ?_, ?_⟩, ?_, ?_, ?_, ?_, ?_, ?_, rfl⟩
  · rw [hend, List.getLast?_concat]
  · rw [hcnt, h.cnt, List.length_append, List.length_singleton]
  · intro x hx
    rw [hlive, Finset.mem_insert]
    rcases List.mem_append.mp hx with hx | hx
    · exact Or.inr (h.live x hx)
    · exact Or.inl (List.mem_singleton.mp hx)
  · intro x hx
    have hat := h.cookie x hx
    have hlt := (List.getElem?_eq_some_iff.mp hat).1
    exact (List.getElem?_append_left hlt).trans hat
  · intro x hx hxl
    rw [hlinks]
    apply hframe
    rw [List.mem_append, List.mem_singleton, not_or]
    exact ⟨hxl, fun e => hb (e ▸ hx)⟩
  · intro x hx hxl
    have hne : x ≠ b := fun e => hb (e ▸ hx)
    exact update_of_ne hne _ _
  · intro x hx _
    rw [hlive]
    exact Finset.mem_insert_of_mem hx
  · intro x hx
    rcases List.mem_append.mp hx with hx | hx
    · exact Or.inl hx
    · rw [List.mem_singleton.mp hx]
      exact Or.inr hb
  · rw [hcur, hcnt]
    omega
  · rw [hlive, hcnt, Finset.card_insert_of_notMem hb]
    omega

theorem addBlocks_spec (clear : Bool) (news : List (Nat × Bytes)) (h : Chained s f l)
    (hnodup : (news.map Prod.fst).Nodup) (hfresh : ∀ b ∈ news.map Prod.fst, b ∉ s.live) :
    let r := addBlocks clear s f news
    Touches s f l r.1 r.2 (l ++ news.map Prod.fst) ∧
      (∀ x, x ∉ news.map Prod.fst → r.1.data x = s.data x) ∧
      (∀ new ∈ news, r.1.data new.1 = if clear then fun _ => 0 else new.2) ∧
      r.2.size = f.size ∧ r.2.vSize = f.vSize := by
  induction news generalizing s f l with
  | nil =>
    dsimp only [addBlocks]
    rw [List.map_nil, List.append_nil]
    exact ⟨.refl h, fun _ _ => rfl, fun _ hm => absurd hm (by simp), rfl, rfl⟩
  | cons new news ih =>
    obtain ⟨b, bytes⟩ := new
    rw [List.map_cons, List.nodup_cons] at hnodup
    have hb : b ∉ s.live := hfresh b (by simp)
    have hone := addBlock_touches h hb (if clear then fun _ => 0 else bytes)
    have hnews : ∀ x ∈ news.map Prod.fst,
        x ∉ (addBlock s f b (if clear then fun _ => 0 else bytes)).1.live := by
      intro x hx hlive
      rcases Finset.mem_insert.mp hlive with rfl | hlive
      · exact hnodup.1 hx
      · exact hfresh x (List.mem_cons_of_mem _ hx) hlive
    obtain ⟨htouch, hother, hdata, hsize, hvsize⟩ := ih hone.chained hnodup.2 hnews
    dsimp only [addBlocks]
    rw [List.map_cons]
    refine ⟨?_, ?_, ?_, hsize, hvsize⟩
    · rw [List.append_cons]
      exact hone.trans htouch
    · intro x hx
      rw [List.mem_cons, not_or] at hx
      rw [hother x hx.2]
      exact update_of_ne hx.1 _ _
    · intro new' hnew
      rcases List.mem_cons.mp hnew with rfl | hnew
      · rw [hother b hnodup.1]
        exact update_self _ _ _
      · exact hdata new' hnew

structure StoreOk (c : Config) (s : Store) : Prop where
  cur : s.curBlk = s.live.card
  room : s.live.card * c.bsize ≤ 2 ^ c.word
  max : s.curBlk ≤ s.maxBlk

theorem Chained.length_le (h : Chained s f l) : l.length ≤ s.live.card := by
  have hsub : l.toFinset ⊆ s.live := fun b hb => h.live b (List.mem_toFinset.mp hb)
  rw [← List.toFinset_card_of_nodup h.line.nodup]
  exact Finset.card_le_card hsub

theorem StoreOk.length_mul_lt {c : Config} (hs : StoreOk c s) (h : Chained s f l) :
    l.length * c.bdatasize < 2 ^ c.word := by
  have hroom := hs.room
  have hlen := h.length_le
  have hsize := c.bdatasize_lt
  have hpos : 0 < 2 ^ c.word := Nat.two_pow_pos _
  rcases Nat.eq_zero_or_pos l.length with hzero | hlpos
  · rw [hzero]
    omega
  · calc l.length * c.bdatasize < l.length * c.bsize := Nat.mul_lt_mul_of_pos_left hsize hlpos
      _ ≤ s.live.card * c.bsize := Nat.mul_le_mul_right _ hlen
      _ ≤ 2 ^ c.word := hroom

theorem StoreOk.length_lt {c : Config} (hs : StoreOk c s) (h : Chained s f l) :
    l.length < 2 ^ c.word := by
  have hmul := hs.length_mul_lt h
  have : l.length * 1 ≤ l.length * c.bdatasize :=
    Nat.mul_le_mul_left _ (by have := c.bdatasize_ge; omega)
  omega

theorem blocksFor_mul_lt (c : Config) (n : Nat) :
    blocksFor c n * c.bdatasize < n + c.bdatasize := by
  have hpos : 0 < c.bdatasize := by
    have := c.bdatasize_ge
    omega
  have hdiv := Nat.div_add_mod' n c.bdatasize
  have hmod := Nat.mod_lt n hpos
  rw [blocksFor, Nat.add_mul]
  split <;> omega

theorem le_blocksFor_mul (c : Config) (n : Nat) : n ≤ blocksFor c n * c.bdatasize := by
  have hpos : 0 < c.bdatasize := by
    have := c.bdatasize_ge
    omega
  have hdiv := Nat.div_add_mod' n c.bdatasize
  have hmod := Nat.mod_lt n hpos
  rw [blocksFor, Nat.add_mul]
  split <;> omega

def newBlocks (s : Store) (f : File) (ulNBlk : Nat) (alloc : Alloc) : List (Nat × Bytes) :=
  if ulNBlk ≤ f.cnt ∨ s.maxBlk < ulNBlk - f.cnt + s.curBlk then []
  else allocated alloc (ulNBlk - f.cnt) 0

theorem StoreOk.need_lt {c : Config} (hs : StoreOk c s) {n : Nat} (hn : n < 2 ^ c.word) :
    blocksFor c n + s.curBlk < 2 ^ c.word := by
  have hB := c.bdatasize_ge
  have hsize := c.bdatasize_lt
  have hhalf := c.bsize_le
  have hmul := blocksFor_mul_lt c n
  have hroom := hs.room
  have h1 : blocksFor c n * 2032 ≤ blocksFor c n * c.bdatasize := Nat.mul_le_mul_left _ hB
  have h2 : s.live.card * 2048 ≤ s.live.card * c.bsize := Nat.mul_le_mul_left _ c.bsize_ge
  rw [hs.cur]
  omega

theorem ramAutomem_eq {c : Config} (hs : StoreOk c s) {n : Nat} (hn : n < 2 ^ c.word)
    (f : File) (stStart stLen : Nat) (alloc : Alloc) :
    ramAutomem c s f (blocksFor c n) stStart stLen alloc =
      (decide (blocksFor c n ≤ f.cnt + (newBlocks s f (blocksFor c n) alloc).length),
        addBlocks (automemClear c f.cnt stStart stLen) s f
          (newBlocks s f (blocksFor c n) alloc)) := by
  have hneed := hs.need_lt hn
  rw [ramAutomem, newBlocks]
  by_cases henough : blocksFor c n ≤ f.cnt
  · rw [if_pos henough, if_pos (Or.inl henough), decide_eq_true (by omega)]
    rfl
  · rw [if_neg henough]
    dsimp only
    rw [Nat.mod_eq_of_lt (by omega)]
    by_cases hmax : s.maxBlk < blocksFor c n - f.cnt + s.curBlk
    · rw [if_pos hmax, if_pos (Or.inr hmax), List.length_nil, decide_eq_false (by omega)]
      rfl
    · rw [if_neg hmax, if_neg (by omega), automemLoop_eq]
      have hle := length_allocated_le alloc (blocksFor c n - f.cnt) 0
      congr 1
      rw [decide_eq_decide]
      omega

theorem newBlocks_spec {c : Config} (hs : StoreOk c s) (h : Chained s f l) (ulNBlk : Nat)
    {alloc : Alloc} (halloc : FreshAlloc c alloc s.live) (clear : Bool) :
    let news := newBlocks s f ulNBlk alloc
    let r := addBlocks clear s f news
    Touches s f l r.1 r.2 (l ++ news.map Prod.fst) ∧ StoreOk c r.1 ∧
      (∀ x, x ∉ news.map Prod.fst → r.1.data x = s.data x) ∧
      (∀ new ∈ news, r.1.data new.1 = if clear then fun _ => 0 else new.2) ∧
      r.2.size = f.size ∧ r.2.vSize = f.vSize := by
  dsimp only
  have hnews : ((newBlocks s f ulNBlk alloc).map Prod.fst).Nodup ∧
      (∀ b ∈ (newBlocks s f ulNBlk alloc).map Prod.fst, b ∉ s.live) ∧
      s.curBlk + (newBlocks s f ulNBlk alloc).length ≤ s.maxBlk ∧
      (s.live.card + (newBlocks s f ulNBlk alloc).length) * c.bsize ≤ 2 ^ c.word := by
    rw [newBlocks]
    split
    · exact ⟨List.nodup_nil, fun b hb => absurd hb (by simp), by simpa using hs.max,
        by simpa using hs.room⟩
    · rename_i hcond
      obtain ⟨hnodup, hfresh⟩ := halloc.allocated (ulNBlk - f.cnt)
      have hle := length_allocated_le alloc (ulNBlk - f.cnt) 0
      refine ⟨hnodup, hfresh, by omega, ?_⟩
      rcases Nat.eq_zero_or_pos (allocated alloc (ulNBlk - f.cnt) 0).length with hzero | hpos
      · rw [hzero]
        exact hs.room
      · have hlast := allocated_getElem (List.getElem?_eq_getElem
          (show (allocated alloc (ulNBlk - f.cnt) 0).length - 1 <
            (allocated alloc (ulNBlk - f.cnt) 0).length by omega))
        have hroom := halloc.room _ _ hlast
        rwa [Nat.zero_add, show s.live.card + ((allocated alloc (ulNBlk - f.cnt) 0).length - 1) + 1 =
          s.live.card + (allocated alloc (ulNBlk - f.cnt) 0).length by omega] at hroom
  obtain ⟨hnodup, hfresh, hmax, hroom⟩ := hnews
  obtain ⟨htouch, hother, hdata, hsize, hvsize⟩ := addBlocks_spec clear _ h hnodup hfresh
  refine ⟨htouch, ?_, hother, hdata, hsize, hvsize⟩
  have hlen := htouch.chained.cnt
  rw [List.length_append, List.length_map, ← h.cnt] at hlen
  have hcount := htouch.count
  have hcard := htouch.card
  have hcur := hs.cur
  refine ⟨by omega, ?_, by rw [htouch.max]; omega⟩
  have : (addBlocks clear s f (newBlocks s f ulNBlk alloc)).1.live.card =
      s.live.card + (newBlocks s f ulNBlk alloc).length := by omega
  rw [this]
  exact hroom

theorem Chained.grow (h : Chained s f l) (m : Nat) : Chained s (f.grow m) l := by
  rw [File.grow]
  split
  · exact ⟨h.line, h.start, h.last, h.cnt, h.live, h.cookie⟩
  · exact h

theorem grow_cnt (f : File) (m : Nat) : (f.grow m).cnt = f.cnt := by
  rw [File.grow]
  split <;> rfl

theorem grow_congr (hsize : f'.size = f.size) (hvsize : f'.vSize = f.vSize) (m : Nat) :
    (f'.grow m).size = (f.grow m).size ∧ (f'.grow m).vSize = (f.grow m).vSize := by
  simp only [File.grow, hsize, hvsize]
  split
  · exact ⟨rfl, rfl⟩
  · exact ⟨hsize, hvsize⟩

section Write

variable (c : Config) (s : Store) (f : File) (n stOft : Nat) (alloc : Alloc)

def writeBlocks : Nat := blocksFor c ((stOft + n) % 2 ^ c.word)

def writeNews : List (Nat × Bytes) := newBlocks s f (writeBlocks c n stOft) alloc

def writeGrown : Store :=
  (addBlocks (automemClear c f.cnt stOft n) s f (writeNews c s f n stOft alloc)).1

def writeLine (l : List Nat) : List Nat := l ++ (writeNews c s f n stOft alloc).map Prod.fst

def WriteFits : Prop := writeBlocks c n stOft ≤ f.cnt + (writeNews c s f n stOft alloc).length

instance : Decidable (WriteFits c s f n stOft alloc) :=
  inferInstanceAs (Decidable (_ ≤ _))

def writeLen : Nat :=
  if WriteFits c s f n stOft alloc then
    min n ((f.cnt + (writeNews c s f n stOft alloc).length) * c.bdatasize - stOft) else 0

end Write

theorem ramWrite_spec {c : Config} (hs : StoreOk c s) (h : Chained s f l) {n stOft : Nat}
    (hoft : stOft < 2 ^ c.word) {alloc : Alloc} (halloc : FreshAlloc c alloc s.live)
    (src : Bytes) :
    let l' := writeLine c s f n stOft alloc l
    let k := writeLen c s f n stOft alloc
    let r := ramWrite c s f src n stOft alloc
    r.1 = k ∧ Touches s f l r.2.1 r.2.2 l' ∧ StoreOk c r.2.1 ∧
      (∀ p, byteAt c r.2.1 l' p = if stOft ≤ p ∧ p < stOft + k then src (p - stOft)
        else byteAt c (writeGrown c s f n stOft alloc) l' p) ∧
      (r.2.2.size = (if WriteFits c s f n stOft alloc then
          f.grow ((stOft + k) % 2 ^ c.word) else f).size ∧
        r.2.2.vSize = (if WriteFits c s f n stOft alloc then
          f.grow ((stOft + k) % 2 ^ c.word) else f).vSize) := by
  dsimp only
  have hend : (stOft + n) % 2 ^ c.word < 2 ^ c.word := Nat.mod_lt _ (Nat.two_pow_pos _)
  obtain ⟨htouch, hstore, -, -, hsize, hvsize⟩ := newBlocks_spec hs h (writeBlocks c n stOft) halloc
    (automemClear c f.cnt stOft n)
  have hauto := ramAutomem_eq hs hend f stOft n alloc
  rw [ramWrite]
  dsimp only
  rw [hauto]
  by_cases hfits : WriteFits c s f n stOft alloc
  · have hdec : decide (blocksFor c ((stOft + n) % 2 ^ c.word) ≤ f.cnt +
        (newBlocks s f (blocksFor c ((stOft + n) % 2 ^ c.word)) alloc).length) = true :=
      decide_eq_true hfits
    rw [hdec]
    dsimp only
    have hchain := htouch.chained
    obtain ⟨hbuf, hch, hsame, hcookie⟩ := ramGetbuf_spec hchain hoft (hstore.length_lt hchain)
    have hpos : 0 < c.bdatasize := by
      have := c.bdatasize_ge
      omega
    rw [hbuf] at hcookie
    have hloop := writeLoop_spec src (n + 1) 0 hch hcookie (Nat.mod_lt stOft hpos)
      (Nat.lt_succ_self n)
    dsimp only at hloop
    rw [Nat.div_add_mod'] at hloop
    obtain ⟨hwr, hdata, hch', hsame', hbytes⟩ := hloop
    have hk : writeLen c s f n stOft alloc =
        min n ((writeLine c s f n stOft alloc l).length * c.bdatasize - stOft) := by
      rw [writeLen, if_pos hfits, h.cnt, writeLine, List.length_append, List.length_map]
    have hsb := hsame.trans hsame'
    rw [SameButCookie] at hsb
    have hcnt := congrArg File.cnt hsb
    simp only [writeLine, writeNews, writeBlocks] at hk ⊢
    rw [hk]
    simp only [writeBlocks] at hbuf hwr hdata hch' hbytes hsb hcnt htouch
    rw [hbuf, hwr, if_pos hfits]
    refine ⟨Nat.zero_add _, ?_, ?_, ?_, ?_⟩
    · refine htouch.trans ?_
      exact hdata.touches (hch'.grow _) ((grow_cnt _ _).trans hcnt)
    · have hst := hstore
      simp only [writeBlocks] at hst
      exact ⟨by rw [hdata.curBlk, hdata.live]; exact hst.cur,
        by rw [hdata.live]; exact hst.room, by rw [hdata.curBlk, hdata.maxBlk]; exact hst.max⟩
    · intro p
      rw [hbytes p]
      simp only [Nat.zero_add]
      rfl
    · rw [Nat.zero_add]
      apply grow_congr
      · exact (congrArg File.size hsb).trans hsize
      · exact (congrArg File.vSize hsb).trans hvsize
  · have hdec : decide (blocksFor c ((stOft + n) % 2 ^ c.word) ≤ f.cnt +
        (newBlocks s f (blocksFor c ((stOft + n) % 2 ^ c.word)) alloc).length) = false :=
      decide_eq_false hfits
    have hk : writeLen c s f n stOft alloc = 0 := if_neg hfits
    rw [hdec, hk, if_neg hfits]
    refine ⟨rfl, htouch, hstore, ?_, hsize, hvsize⟩
    intro p
    rw [if_neg (by omega)]
    rfl

theorem blocksFor_le_iff (c : Config) (n i : Nat) : blocksFor c n ≤ i ↔ n ≤ i * c.bdatasize := by
  constructor
  · intro h
    exact (le_blocksFor_mul c n).trans (Nat.mul_le_mul_right _ h)
  · intro h
    by_contra hlt
    have hmul : (i + 1) * c.bdatasize ≤ blocksFor c n * c.bdatasize :=
      Nat.mul_le_mul_right _ (by omega)
    have hupper := blocksFor_mul_lt c n
    rw [Nat.add_mul] at hmul
    omega

theorem truncateFind_spec {c : Config} (hs : StoreOk c s) (h : Chained s f l) (stOft : Nat)
    (fuel : Nat) {i : Nat} (hi : i ≤ blocksFor c stOft) (hlen : i ≤ l.length)
    (hfuel : l.length < fuel + i) :
    truncateFind c s.links stOft fuel l[i]? (i * c.bdatasize) = l[blocksFor c stOft]? := by
  induction fuel generalizing i with
  | zero => omega
  | succ fuel ih =>
    cases hget : l[i]? with
    | none =>
      have := List.getElem?_eq_none_iff.mp hget
      rw [truncateFind, List.getElem?_eq_none (by omega)]
      exact fun _ _ _ e => nomatch e
    | some b =>
      have hlt := (List.getElem?_eq_some_iff.mp hget).1
      rw [truncateFind]
      split
      · rename_i hle
        have heq : blocksFor c stOft = i := by
          have := (blocksFor_le_iff c stOft i).mpr hle
          omega
        rw [heq, hget]
      · rename_i hgt
        have hstep : (i * c.bdatasize + c.bdatasize) % 2 ^ c.word = (i + 1) * c.bdatasize := by
          have hmul : (i + 1) * c.bdatasize ≤ l.length * c.bdatasize := Nat.mul_le_mul_right _ hlt
          have hbound := hs.length_mul_lt h
          rw [Nat.add_mul, Nat.one_mul] at hmul ⊢
          exact Nat.mod_eq_of_lt (by omega)
        rw [h.line.next_getElem hget, hstep]
        apply ih
        · have := (blocksFor_le_iff c stOft i).not.mpr hgt
          omega
        · omega
        · omega

theorem truncateFree_spec (fuel : Nat) {keep rest : List Nat} {b : Nat}
    (hline : IsLine s.links (keep ++ b :: rest)) (hlive : ∀ x ∈ keep ++ b :: rest, x ∈ s.live)
    (hstart : keep ≠ [] → f.bStart = keep.head?) (hfuel : rest.length < fuel) :
    let r := truncateFree fuel b s f
    IsLine r.1.links keep ∧ r.2 = { f with bStart := keep.head?, cnt := f.cnt - (rest.length + 1) } ∧
      (∀ x, x ∉ keep ++ b :: rest →
        r.1.links.next x = s.links.next x ∧ r.1.links.prev x = s.links.prev x) ∧
      r.1.data = s.data ∧ (∀ x, x ∈ r.1.live ↔ x ∈ s.live ∧ x ∉ b :: rest) ∧
      r.1.curBlk = s.curBlk - (rest.length + 1) ∧ r.1.maxBlk = s.maxBlk := by
  induction fuel generalizing b rest s f with
  | zero => omega
  | succ fuel ih =>
    dsimp only
    obtain ⟨hprev, hnext⟩ := hline.split
    obtain ⟨hdel, hframe⟩ := listLineDel_spec hline f.bStart
    have hframe' : ∀ x, x ∉ keep ++ b :: rest →
        (listLineDel s.links b f.bStart).1.next x = s.links.next x ∧
          (listLineDel s.links b f.bStart).1.prev x = s.links.prev x := by
      intro x hx
      apply hframe
      intro hmem
      apply hx
      rcases List.mem_append.mp hmem with hm | hm
      · exact List.mem_append_left _ hm
      · exact List.mem_append_right _ (List.mem_cons_of_mem _ hm)
    have hheader : (listLineDel s.links b f.bStart).2 =
        if keep = [] then rest.head? else f.bStart := by
      simp only [listLineDel, hprev, hnext]
      cases keep with
      | nil => rfl
      | cons a t => simp
    rw [truncateFree, hnext]
    cases rest with
    | nil =>
      dsimp only [List.head?_nil]
      rw [List.append_nil] at hdel
      refine ⟨hdel, ?_, hframe', rfl, ?_, rfl, rfl⟩
      · rw [hheader]
        by_cases hk : keep = []
        · rw [if_pos hk, hk]
          rfl
        · rw [if_neg hk, hstart hk]
          rfl
      · intro x
        rw [Store.bfree, Finset.mem_erase, List.mem_singleton, and_comm]
    | cons n rest =>
      dsimp only [List.head?_cons]
      have hnot : ∀ x ∈ keep ++ n :: rest, x ∈ (s.bfree (listLineDel s.links b f.bStart).1 b).live := by
        intro x hx
        rw [Store.bfree, Finset.mem_erase]
        refine ⟨hline.ne_of_around hx, hlive x ?_⟩
        rcases List.mem_append.mp hx with hm | hm
        · exact List.mem_append_left _ hm
        · exact List.mem_append_right _ (List.mem_cons_of_mem _ hm)
      have hrest := ih (s := s.bfree (listLineDel s.links b f.bStart).1 b)
        (f := { f with bStart := (listLineDel s.links b f.bStart).2, cnt := f.cnt - 1 })
        hdel hnot (fun hk => by rw [hheader, if_neg hk, hstart hk]) (by
          rw [List.length_cons] at hfuel
          omega)
      dsimp only at hrest
      obtain ⟨hl, hf, hfr, hd, hlv, hc, hm⟩ := hrest
      refine ⟨hl, ?_, ?_, hd, ?_, ?_, hm⟩
      · rw [hf, List.length_cons]
        simp only [File.mk.injEq, true_and, and_true]
        omega
      · intro x hx
        have hx' : x ∉ keep ++ n :: rest := by
          intro hmem
          apply hx
          rcases List.mem_append.mp hmem with hm | hm
          · exact List.mem_append_left _ hm
          · exact List.mem_append_right _ (List.mem_cons_of_mem _ hm)
        have h1 := hfr x hx'
        have h2 := hframe' x hx
        exact ⟨h1.1.trans h2.1, h1.2.trans h2.2⟩
      · intro x
        rw [hlv x, Store.bfree, Finset.mem_erase, List.mem_cons (a := x) (b := b)]
        tauto
      · rw [hc, List.length_cons]
        simp only [Store.bfree]
        omega

def CutsAtEnd (c : Config) (cnt stOft : Nat) : Prop :=
  blocksFor c stOft = 0 ∨ cnt ≤ blocksFor c stOft + 1

instance (c : Config) (cnt stOft : Nat) : Decidable (CutsAtEnd c cnt stOft) :=
  inferInstanceAs (Decidable (_ ∨ _))

theorem ramTruncate_cut {c : Config} (hs : StoreOk c s) (h : Chained s f l) {stOft : Nat}
    (hlt : blocksFor c stOft < l.length) :
    let k := blocksFor c stOft
    let r := ramTruncate c s f stOft
    IsLine r.1.links (l.take k) ∧
      r.2 = { f with
        size := stOft, vSize := stOft, bStart := (l.take k).head?
        bEnd := if k = 0 then none else if k + 1 = l.length then l[k - 1]? else f.bEnd
        cnt := k, cookie := none } ∧
      (∀ x, x ∉ l → r.1.links.next x = s.links.next x ∧ r.1.links.prev x = s.links.prev x) ∧
      r.1.data = s.data ∧ (∀ x, x ∈ r.1.live ↔ x ∈ s.live ∧ x ∉ l.drop k) ∧
      r.1.curBlk = s.curBlk - (l.length - k) ∧ r.1.maxBlk = s.maxBlk := by
  dsimp only
  generalize hk : blocksFor c stOft = k at hlt
  have hlen := h.length_le
  have hsplit : l.take k ++ l[k] :: l.drop (k + 1) = l := by
    rw [List.getElem_cons_drop, List.take_append_drop]
  have hfind : truncateFind c s.links stOft (s.live.card + 1) f.bStart 0 = some l[k] := by
    have := truncateFind_spec hs h stOft (s.live.card + 1) (i := 0) (Nat.zero_le _)
      (Nat.zero_le _) (by omega)
    rwa [Nat.zero_mul, ← List.head?_eq_getElem?, ← h.start, hk, List.getElem?_eq_getElem hlt] at this
  have hat : l[k]? = some l[k] := List.getElem?_eq_getElem hlt
  have hinj : ∀ {i : Nat}, l[i]? = some l[k] → i = k := by
    intro i hi
    obtain ⟨hi', heq⟩ := List.getElem?_eq_some_iff.mp hi
    exact (List.Nodup.getElem_inj_iff h.line.nodup).mp heq
  have hfirst : some l[k] = f.bStart ↔ k = 0 := by
    rw [h.start, List.head?_eq_getElem?]
    constructor
    · intro e
      exact (hinj e.symm).symm
    · rintro rfl
      exact hat.symm
  have hlast : some l[k] = f.bEnd ↔ k + 1 = l.length := by
    rw [h.last, List.getLast?_eq_getElem?]
    constructor
    · intro e
      have := hinj e.symm
      omega
    · intro e
      rw [show l.length - 1 = k by omega, hat]
  -- the fields set before the blocks are freed
  have hset : (if some l[k] = f.bStart then { f with bStart := none, bEnd := none }
      else if some l[k] = f.bEnd then { f with bEnd := s.links.prev l[k] } else f) =
      { f with
        bStart := if k = 0 then none else f.bStart
        bEnd := if k = 0 then none else if k + 1 = l.length then l[k - 1]? else f.bEnd } := by
    by_cases hzero : k = 0
    · rw [if_pos (hfirst.mpr hzero), if_pos hzero, if_pos hzero]
    · rw [if_neg (hfirst.not.mpr hzero), if_neg hzero, if_neg hzero]
      by_cases hend : k + 1 = l.length
      · rw [if_pos (hlast.mpr hend), if_pos hend]
        obtain ⟨j, rfl⟩ : ∃ j, k = j + 1 := ⟨k - 1, by omega⟩
        rw [h.line.prev_getElem_succ hat, Nat.add_sub_cancel]
      · rw [if_neg (hlast.not.mpr hend), if_neg hend]
  have hline : IsLine s.links (l.take k ++ l[k] :: l.drop (k + 1)) := by
    rw [hsplit]
    exact h.line
  have hfree := truncateFree_spec (s := s) (f := { f with
      bStart := if k = 0 then none else f.bStart
      bEnd := if k = 0 then none else if k + 1 = l.length then l[k - 1]? else f.bEnd })
    (s.live.card + 1) hline (by rw [hsplit]; exact h.live) (by
      intro hne
      have hzero : k ≠ 0 := fun e => hne (by rw [e, List.take_zero])
      rw [if_neg hzero, h.start, List.head?_take, if_neg hzero]) (by
      rw [List.length_drop]
      omega)
  dsimp only at hfree
  rw [hsplit] at hfree
  obtain ⟨hl, hf, hframe, hdata, hlive, hcur, hmax⟩ := hfree
  have hcount : (l.drop (k + 1)).length + 1 = l.length - k := by
    rw [List.length_drop]
    omega
  rw [ramTruncate, hfind]
  dsimp only
  rw [hset]
  refine ⟨hl, ?_, hframe, hdata, ?_, ?_, hmax⟩
  · rw [hf, hcount, h.cnt, show l.length - (l.length - k) = k by omega]
  · intro x
    rw [hlive x, List.getElem_cons_drop]
  · rw [hcur, hcount]

theorem ramTruncate_keep {c : Config} (hs : StoreOk c s) (h : Chained s f l) {stOft : Nat}
    (hle : l.length ≤ blocksFor c stOft) :
    ramTruncate c s f stOft = (s, { f with size := stOft, vSize := stOft }) := by
  have hfind := truncateFind_spec hs h stOft (s.live.card + 1) (i := 0) (Nat.zero_le _)
    (Nat.zero_le _) (by have := h.length_le; omega)
  rw [Nat.zero_mul, ← List.head?_eq_getElem?, ← h.start, List.getElem?_eq_none hle] at hfind
  rw [ramTruncate, hfind]

theorem card_of_freed {live live' : Finset Nat} {l : List Nat} {k : Nat} (hnodup : l.Nodup)
    (hsub : ∀ b ∈ l, b ∈ live) (hlive : ∀ x, x ∈ live' ↔ x ∈ live ∧ x ∉ l.drop k)
    (hk : k ≤ l.length) : live'.card + l.length = live.card + k := by
  have heq : live' = live \ (l.drop k).toFinset := by
    ext x
    rw [hlive x, Finset.mem_sdiff, List.mem_toFinset]
  have hdrop : (l.drop k).toFinset ⊆ live := fun b hb =>
    hsub b (List.mem_of_mem_drop (List.mem_toFinset.mp hb))
  have hcard := Finset.card_sdiff_of_subset hdrop
  have hle := Finset.card_le_card hdrop
  rw [List.toFinset_card_of_nodup (hnodup.sublist (List.drop_sublist k l)), List.length_drop] at hcard hle
  rw [heq, hcard]
  omega

theorem ramTruncate_spec {c : Config} (hs : StoreOk c s) (h : Chained s f l) {stOft : Nat}
    (hcut : CutsAtEnd c f.cnt stOft) :
    let r := ramTruncate c s f stOft
    Touches s f l r.1 r.2 (l.take (blocksFor c stOft)) ∧ StoreOk c r.1 ∧ r.1.data = s.data ∧
      r.2.size = stOft ∧ r.2.vSize = stOft := by
  dsimp only
  by_cases hlt : blocksFor c stOft < l.length
  · obtain ⟨hl, hf, hframe, hdata, hlive, hcur, hmax⟩ := ramTruncate_cut hs h hlt
    have hcard := card_of_freed h.line.nodup h.live hlive hlt.le
    have hsize := congrArg File.size hf
    have hvsize := congrArg File.vSize hf
    have hcnt := congrArg File.cnt hf
    dsimp only at hsize hvsize hcnt
    have hscur := hs.cur
    have hlen := h.length_le
    have hfcnt := h.cnt
    refine ⟨?_, ⟨?_, ?_, ?_⟩, hdata, hsize, hvsize⟩
    · refine ⟨⟨hl, ?_, ?_, ?_, ?_, ?_⟩, ?_, ?_, ?_, ?_, ?_, ?_, hmax⟩
      · rw [hf]
      · rw [hf]
        dsimp only
        rw [List.getLast?_take]
        rcases hcut with hzero | hone
        · rw [if_pos hzero, if_pos hzero]
        · by_cases hzero : blocksFor c stOft = 0
          · rw [if_pos hzero, if_pos hzero]
          · have hsome : l[blocksFor c stOft - 1]? = some l[blocksFor c stOft - 1] :=
              List.getElem?_eq_getElem (by omega)
            rw [if_neg hzero, if_pos (by omega), if_neg hzero, hsome, Option.some_or]
      · rw [hcnt, List.length_take]
        omega
      · intro b hb
        rw [hlive b]
        refine ⟨h.live b (List.mem_of_mem_take hb), ?_⟩
        exact fun hd => List.disjoint_take_drop h.line.nodup le_rfl hb hd
      · intro b hb
        rw [hf] at hb
        exact nomatch hb
      · intro x _ hx
        exact hframe x hx
      · intro x _ _
        rw [hdata]
      · intro x hx hxl
        rw [hlive x]
        exact ⟨hx, fun hd => hxl (List.mem_of_mem_drop hd)⟩
      · intro x hx
        exact Or.inl (List.mem_of_mem_take hx)
      · rw [hcnt, hcur]
        omega
      · rw [hcnt, hfcnt]
        exact hcard
    · omega
    · refine le_trans (Nat.mul_le_mul_right _ ?_) hs.room
      omega
    · have := hs.max
      omega
  · rw [ramTruncate_keep hs h (by omega), List.take_of_length_le (by omega)]
    have hsame : Chained s { f with size := stOft, vSize := stOft } l :=
      ⟨h.line, h.start, h.last, h.cnt, h.live, h.cookie⟩
    exact ⟨(SameButData.refl s l).touches hsame rfl, hs, rfl, rfl, rfl⟩

theorem ramTruncate_dangling {c : Config} (hs : StoreOk c s) (h : Chained s f l) {stOft : Nat}
    (hcut : ¬ CutsAtEnd c f.cnt stOft) :
    ∃ z, (ramTruncate c s f stOft).2.bEnd = some z ∧ z ∉ (ramTruncate c s f stOft).1.live := by
  rw [CutsAtEnd, h.cnt, not_or] at hcut
  obtain ⟨hl, hf, hframe, hdata, hlive, hcur, hmax⟩ := ramTruncate_cut hs h
    (show blocksFor c stOft < l.length by omega)
  have hne : l ≠ [] := List.length_pos_iff.mp (by omega)
  refine ⟨l.getLast hne, ?_, ?_⟩
  · rw [hf]
    dsimp only
    rw [if_neg hcut.1, if_neg (by omega), h.last, List.getLast?_eq_some_getLast hne]
  · rw [hlive]
    intro hmem
    apply hmem.2
    have hdrop : l.drop (blocksFor c stOft) ≠ [] := by
      rw [Ne, List.drop_eq_nil_iff]
      omega
    rw [← List.getLast_drop hdrop]
    exact List.getLast_mem hdrop

structure Frees (s : Store) (l : List Nat) (s' : Store) : Prop where
  links : ∀ x, x ∉ l → s'.links.next x = s.links.next x ∧ s'.links.prev x = s.links.prev x
  data : s'.data = s.data
  live : ∀ x, x ∈ s'.live ↔ x ∈ s.live ∧ x ∉ l
  curBlk : s'.curBlk = s.curBlk - l.length
  maxBlk : s'.maxBlk = s.maxBlk

theorem unlinkFree_spec (fuel : Nat) (hline : IsLine s.links l) (hstart : f.bStart = l.head?)
    (hfuel : l.length < fuel) : Frees s l (unlinkFree fuel s f).1 := by
  induction fuel generalizing l s f with
  | zero => omega
  | succ fuel ih =>
    rw [unlinkFree, hstart]
    cases l with
    | nil =>
      exact ⟨fun _ _ => ⟨rfl, rfl⟩, rfl, fun x => by simp, rfl, rfl⟩
    | cons b t =>
      have hcut : IsLine s.links ([] ++ b :: t) := hline
      obtain ⟨hprev, hnext⟩ := hcut.split
      obtain ⟨hdel, hframe⟩ := listLineDel_spec hcut (some b)
      rw [List.nil_append] at hdel hframe
      dsimp only [List.head?_cons]
      have hhead : (listLineDel s.links b (some b)).2 = t.head? := by
        simp only [listLineDel, hprev, hnext]
        rfl
      have hrest := ih (s := s.bfree (listLineDel s.links b (some b)).1 b)
        (f := { f with bStart := (listLineDel s.links b (some b)).2, cnt := f.cnt - 1 }) hdel hhead
        (by rw [List.length_cons] at hfuel; omega)
      refine ⟨?_, hrest.data, ?_, ?_, hrest.maxBlk⟩
      · intro x hx
        rw [List.mem_cons, not_or] at hx
        have h1 := hrest.links x hx.2
        have h2 := hframe x hx.2
        exact ⟨h1.1.trans h2.1, h1.2.trans h2.2⟩
      · intro x
        rw [hrest.live x, Store.bfree, Finset.mem_erase, List.mem_cons]
        tauto
      · rw [hrest.curBlk, List.length_cons]
        simp only [Store.bfree]
        omega

end SylixOS.RamFs
