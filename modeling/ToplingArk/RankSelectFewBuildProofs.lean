import Mathlib.Data.Bool.Count
import Mathlib.Data.List.Induction
import ToplingArk.RankSelectFewProofs

/-! # `rank_select_few_builder` — from the positions of the ones to the layers

    The builder is told the ones in increasing order, or all of them in decreasing
    order when it was created with `rev`.  When the pivots are the zeros it writes the
    positions it was not told.  `finish` writes the rest and copies every 256th entry of
    each layer into the next one.

    Whatever the direction, the finished structure holds the pivots in increasing
    order. -/

namespace RankSelectFew

open RankSelectLine List Option Nat

/-- The builder: the pool under construction and the place of the next entry, which
    runs off the low end when building downwards. -/
structure Builder where
  pivot : Bool
  rev : Bool
  last : Nat
  it : Int
  num0 : Nat
  num1 : Nat
  offsets : List Nat
  items : List Nat

/-- `while (n) { sz += n * W; cache[layer++] = sz; n >>= 8; }` -/
def layerEnds : Nat → Nat → Nat → List Nat
  | 0, _, _ => []
  | fuel + 1, n, sz => if n = 0 then [] else (sz + n) :: layerEnds fuel (n / 256) (sz + n)

/-- The constructor.  A `size_t` has at most eight layers; with a single one an entry is
    kept behind it as bound. -/
def Builder.create (pivot : Bool) (num0 num1 : Nat) (rev : Bool) : Builder :=
  let offsets := layerEnds 8 (if pivot then num1 else num0) 0
  { pivot := pivot
    rev := rev
    last := if rev then num0 + num1 - 1 else 0
    it := if rev then (offsets.getD 0 0 : Int) - 1 else 0
    num0 := num0
    num1 := num1
    offsets := offsets
    items := replicate (offsets.getLastD 0 + if offsets.length ≤ 1 then 1 else 0) 0 }

/-- `*m_it |= pos` and one entry on.  A position of more than `W` bytes would spill over
    into the next entry. -/
def Builder.put (W : Nat) (b : Builder) (pos : Nat) : Option Builder :=
  if pos < 256 ^ W ∧ 0 ≤ b.it ∧ b.it < b.items.length then
    some { b with
      items := b.items.modify b.it.toNat (· ||| pos)
      it := if b.rev then b.it - 1 else b.it + 1 }
  else none

/-- `k` rounds of `*m_it |= m_last--; m_it -= W` or its increasing form. -/
def Builder.emit (W : Nat) : Nat → Builder → Option Builder
  | 0, b => some b
  | k + 1, b => (b.put W b.last).bind (fun c =>
    emit W k { c with last := if c.rev then wsub c.last 1 else c.last + 1 })

/-- `insert(pos)`; `while (m_last != pos)` takes as many rounds as the two are apart. -/
def Builder.insert (W : Nat) (b : Builder) (pos : Nat) : Option Builder :=
  if pos < 256 ^ W then
    if b.pivot then b.put W pos
    else if b.rev then
      if pos ≤ b.last then
        (b.emit W (b.last - pos)).map (fun c => { c with last := wsub c.last 1 })
      else none
    else if b.last ≤ pos then
      (b.emit W (pos - b.last)).map (fun c => { c with last := c.last + 1 })
    else none
  else none

/-- The first half of `finish`: the pivots after the last insertion, down to the start
    of the pool or up to the end of its first layer. -/
def Builder.drain (W : Nat) (b : Builder) : Option Builder :=
  if b.pivot then some b
  else if b.rev then b.emit W (b.it + 1).toNat
  else b.emit W ((b.offsets.getD 0 0 : Int) - b.it).toNat

/-- `for (dst = …; dst < …;) { memcpy(dst, src, W); src += W * 256; dst += W; }` -/
def copyEntries : Nat → Nat → Nat → List Nat → Option (List Nat)
  | 0, _, _, items => some items
  | k + 1, src, dst, items =>
    items[src]?.bind (fun v => copyEntries k (src + 256) (dst + 1) (items.set dst v))

/-- The loop over the layers. -/
def copyLayers (offsets : List Nat) : Nat → Nat → Nat → List Nat → Option (List Nat)
  | 0, _, _, items => some items
  | k + 1, i, src, items =>
    (copyEntries (offsets.getD (i + 1) 0 - offsets.getD i 0) src (offsets.getD i 0) items).bind
      (fun items => copyLayers offsets k (i + 1) (offsets.getD i 0) items)

/-- `finish(r)` -/
def Builder.finish (W : Nat) (b : Builder) : Option Few :=
  (b.drain W).bind (fun c =>
    (copyLayers c.offsets (c.offsets.length - 1) 0 0 c.items).map (fun items =>
      { pivot := c.pivot, items := items, offsets := c.offsets, num0 := c.num0, num1 := c.num1 }))

/-- The places of the value `b` in a list that starts at place `m`. -/
def positions (b : Bool) : Nat → List Bool → List Nat
  | _, [] => []
  | m, c :: cs => if c = b then m :: positions b (m + 1) cs else positions b (m + 1) cs

/-- Build the structure for a bit sequence: the ones are inserted in increasing order,
    with `rev` in decreasing order. -/
def build (W : Nat) (pivot rev : Bool) (B : List Bool) : Option Few :=
  let ones := positions true 0 B
  ((if rev then ones.reverse else ones).foldlM (Builder.insert W)
    (Builder.create pivot (B.count false) (B.count true) rev)).bind (Builder.finish W)

/-! ## Positions -/

theorem positions_cons_same (b : Bool) (m : Nat) (cs : List Bool) :
    positions b m (b :: cs) = m :: positions b (m + 1) cs := if_pos rfl

variable {b pivot : Bool} {B : List Bool} {W e k m n q j : Nat} {items piv : List Nat}

theorem positions_cons_other {c : Bool} (h : c ≠ b) (m : Nat) (cs : List Bool) :
    positions b m (c :: cs) = positions b (m + 1) cs := if_neg h

theorem positions_eq (b : Bool) (m : Nat) (B : List Bool) :
    positions b m B = ((B.zipIdx m).filter (fun p => p.1 == b)).map Prod.snd := by
  induction B generalizing m with
  | nil => rfl
  | cons c cs ih =>
    rw [positions, ih, zipIdx_cons]
    by_cases h : c = b
    · simp [h]
    · simp [h]

/-- The positions of two parts. -/
theorem positions_append (b : Bool) (m : Nat) (B C : List Bool) :
    positions b m (B ++ C) = positions b m B ++ positions b (m + B.length) C := by
  rw [positions_eq, positions_eq, positions_eq, zipIdx_append, filter_append, map_append]

/-- There are as many positions as such bits. -/
theorem positions_length (b : Bool) (m : Nat) (B : List Bool) :
    (positions b m B).length = B.count b := by
  rw [positions_eq, length_map, ← countP_eq_length_filter]
  nth_rewrite 2 [← zipIdx_map_fst m B]
  rw [List.count, countP_map]
  rfl

/-- A position is one of such a bit. -/
theorem mem_positions : k ∈ positions b m B ↔ m ≤ k ∧ B[k - m]? = some b := by
  rw [positions_eq, List.mem_map]
  constructor
  · rintro ⟨p, hp, rfl⟩
    obtain ⟨hmem, hb⟩ := mem_filter.mp hp
    rw [← beq_iff_eq.mp hb]
    exact mk_mem_zipIdx_iff_le_and_getElem?_sub.mp hmem
  · intro h
    exact ⟨(b, k), mem_filter.mpr ⟨mk_mem_zipIdx_iff_le_and_getElem?_sub.mpr h, beq_self_eq_true b⟩,
      rfl⟩

/-- The positions ascend. -/
theorem positions_sorted (b : Bool) (m : Nat) (B : List Bool) :
    (positions b m B).Pairwise (· < ·) := by
  have hsub : (positions b m B).Sublist (range' m B.length) := by
    rw [positions_eq, ← zipIdx_map_snd]
    exact filter_sublist.map _
  exact List.Pairwise.sublist hsub pairwise_lt_range'

theorem positions_lt (hk : k ∈ positions b m B) : k < m + B.length := by
  obtain ⟨hle, hget⟩ := mem_positions.mp hk
  have := (List.getElem_of_getElem? hget).1
  omega

/-! ## Entries written one after another -/

/-- The first `ys` of `n` pivots are written, from the low end of the pool or, with
    `rev`, from the high end of its first layer; `e` entries stand behind the layer. -/
structure Written (n e : Nat) (b : Builder) (ys : List Nat) : Prop where
  left : ys.length ≤ n
  place : b.it = if b.rev then (n - ys.length : Int) - 1 else ys.length
  pool : b.items = (if b.rev then replicate (n - ys.length) 0 ++ ys.reverse
    else ys ++ replicate (n - ys.length) 0) ++ replicate e 0

theorem modify_middle (xs zs : List Nat) (f : Nat → Nat) (y : Nat) :
    (xs ++ y :: zs).modify xs.length f = xs ++ f y :: zs := by
  induction xs with
  | nil => rfl
  | cons x xs ih => simp [ih]

/-- One more item is written at its end. -/
theorem put_written {b : Builder} {ys : List Nat} {y : Nat} (h : Written n e b ys)
    (hroom : ys.length < n) (hy : y < 256 ^ W) :
    ∃ items it, b.put W y = some { b with items := items, it := it } ∧
      Written n e { b with items := items, it := it } (ys ++ [y]) := by
  obtain ⟨r, hr⟩ : ∃ r, n - ys.length = r + 1 := ⟨n - ys.length - 1, by omega⟩
  have hpool := h.pool
  have hplace := h.place
  rw [hr] at hpool
  have hr' : n - (ys ++ [y]).length = r := by simp; omega
  -- the entry under the cursor is still zero; filling it extends what is written
  obtain ⟨xs, zs, hsplit, hcur, hnew⟩ : ∃ xs zs, b.items = xs ++ 0 :: zs ∧ b.it = xs.length ∧
      xs ++ y :: zs = (if b.rev then replicate r 0 ++ (ys ++ [y]).reverse
        else (ys ++ [y]) ++ replicate r 0) ++ replicate e 0 := by
    cases hrev : b.rev with
    | false =>
      rw [hrev] at hpool hplace
      refine ⟨ys, replicate r 0 ++ replicate e 0, ?_, hplace, by simp⟩
      rw [hpool]
      simp [replicate_succ]
    | true =>
      rw [hrev] at hpool hplace
      refine ⟨replicate r 0, ys.reverse ++ replicate e 0, ?_, ?_, by simp⟩
      · rw [hpool]
        simp [replicate_succ']
      · rw [hplace]
        simp only [if_true, length_replicate]
        omega
  have hfits : y < 256 ^ W ∧ 0 ≤ b.it ∧ b.it < b.items.length := by
    refine ⟨hy, by omega, ?_⟩
    rw [hcur, hsplit]
    simp
  refine ⟨_, _, if_pos hfits, ⟨by simp; omega, ?_, ?_⟩⟩
  · rw [hplace]
    cases b.rev
    · simp
    · simp
      omega
  · rw [hcur, Int.toNat_natCast, hsplit, modify_middle, zero_or, hr']
    exact hnew

/-- The pool of a builder and its last position replaced: what building does to it. -/
def Builder.at (b : Builder) (last : Nat) (items : List Nat) (it : Int) : Builder :=
  { b with last := last, items := items, it := it }

/-- Place `j` of `q` in the order of the builder: upwards, or downwards with `rev`. -/
def place (rev : Bool) (q j : Nat) : Nat := if rev then wsub (q - j) 1 else j

theorem place_up (q j : Nat) : place false q j = j := if_neg Bool.false_ne_true

theorem place_down (q j : Nat) : place true q j = wsub (q - j) 1 := if_pos rfl

/-- The next item, upwards or downwards. -/
theorem place_succ (rev : Bool) (hj : j < q) :
    (if rev then wsub (place rev q j) 1 else place rev q j + 1) = place rev q (j + 1) := by
  cases rev with
  | false => rw [if_neg Bool.false_ne_true, place_up, place_up]
  | true =>
    rw [if_pos rfl, place_down, place_down, wsub_eq (show 1 ≤ q - j by omega), Nat.sub_sub]

theorem place_lt (rev : Bool) (hj : j < q) : place rev q j < q := by
  cases rev with
  | false => rwa [place_up]
  | true =>
    rw [place_down, wsub_eq (by omega)]
    omega

/-- Positions from the other end. -/
theorem reverse_positions (b : Bool) (B : List Bool) (m : Nat) :
    (positions b m B).reverse =
      (positions b 0 B.reverse).map (fun j => m + (B.length - j) - 1) := by
  induction B generalizing m with
  | nil => rfl
  | cons c cs ih =>
    have hrest : (positions b (m + 1) cs).reverse =
        (positions b 0 cs.reverse).map (fun j => m + ((c :: cs).length - j) - 1) := by
      rw [ih]
      refine map_congr_left (fun j hj => ?_)
      have hlt := positions_lt hj
      rw [length_reverse] at hlt
      rw [length_cons]
      omega
    rw [reverse_cons, positions_append, map_append, ← hrest]
    by_cases h : c = b
    · subst h
      rw [positions_cons_same, positions_cons_same]
      simp [positions]
    · rw [positions_cons_other h, positions_cons_other h]
      simp [positions]

/-- The positions of a sequence, in the order of the builder. -/
theorem positions_place (rev b : Bool) (B : List Bool) :
    (positions b 0 (if rev then B.reverse else B)).map (place rev B.length) =
      if rev then (positions b 0 B).reverse else positions b 0 B := by
  cases rev with
  | false => exact map_id _
  | true =>
    show (positions b 0 B.reverse).map _ = (positions b 0 B).reverse
    rw [reverse_positions]
    refine map_congr_left (fun j hj => ?_)
    have hlt := positions_lt hj
    rw [length_reverse] at hlt
    rw [place_down, wsub_eq (by omega), zero_add]

section Complements

variable {n q : Nat} (hfit : ∀ y, y < q → y < 256 ^ W)

include hfit

/-- From place `j` on, `k` rounds write the next `k` places. -/
theorem emit_spec (k : Nat) {b : Builder} {ys : List Nat} (hlast : b.last = place b.rev q j)
    (hq : j + k ≤ q) (hw : Written n e b ys) (hroom : ys.length + k ≤ n) :
    ∃ items it, b.emit W k = some (b.at (place b.rev q (j + k)) items it) ∧
      Written n e (b.at (place b.rev q (j + k)) items it)
        (ys ++ (range' j k).map (place b.rev q)) := by
  induction k generalizing j b ys with
  | zero =>
    refine ⟨b.items, b.it, ?_, ?_⟩
    · rw [add_zero, ← hlast]
      rfl
    · rw [add_zero, ← hlast]
      simpa [Builder.at] using hw
  | succ k ih =>
    obtain ⟨items, it, hput, hput'⟩ := put_written hw (y := b.last) (by omega)
      (hfit _ (hlast ▸ place_lt b.rev (by omega)))
    have hstep : Written n e (b.at (place b.rev q (j + 1)) items it) (ys ++ [b.last]) :=
      ⟨hput'.left, hput'.place, hput'.pool⟩
    obtain ⟨items', it', hrest, hw'⟩ := ih (b := b.at (place b.rev q (j + 1)) items it) rfl
      (by omega) hstep (by simp; omega)
    rw [show j + 1 + k = j + (k + 1) by omega] at hrest hw'
    refine ⟨items', it', ?_, ?_⟩
    · rw [Builder.emit, hput, bind_some]
      rw [hlast, place_succ b.rev (by omega)]
      exact hrest
    · rw [range'_succ, map_cons, append_cons, ← hlast]
      exact hw'

/-- Told place `m`, the builder writes the places before it. -/
theorem insert_place {b : Builder} (hpivot : b.pivot = false) (hlast : b.last = place b.rev q j)
    (hjm : j ≤ m) (hm : m < q) :
    b.insert W (place b.rev q m) = (b.emit W (m - j)).map
      (fun c => { c with last := if b.rev then wsub c.last 1 else c.last + 1 }) := by
  rw [Builder.insert, if_pos (hfit _ (place_lt b.rev hm)), hpivot, if_neg Bool.false_ne_true, hlast]
  cases b.rev with
  | false =>
    rw [place_up, place_up, if_pos hjm]
    simp only [Bool.false_eq_true, if_false]
  | true =>
    rw [if_pos rfl, place_down, place_down, wsub_eq (show 1 ≤ q - m by omega),
      wsub_eq (show 1 ≤ q - j by omega), if_pos (by omega),
      show q - j - 1 - (q - m - 1) = m - j by omega]
    simp only [if_true]

/-- **COMPLEMENTS INSERTED**: told the ones of `C` from place `m` on, with the places from
    `j` on still to be written, the builder ends with all zeros. -/
theorem insert_complements (C : List Bool) {b : Builder} {ys : List Nat} (hpivot : b.pivot = false)
    (hoff : b.offsets.getD 0 0 = n) (hlast : b.last = place b.rev q j) (hw : Written n e b ys)
    (hjm : j ≤ m) (hq : m + C.length = q) (hcount : ys.length + (m - j) + C.count false = n) :
    ∃ last items it, (((positions true m C).map (place b.rev q)).foldlM
        (Builder.insert W) b).bind (Builder.drain W) = some (b.at last items it) ∧
      Written n e (b.at last items it) (ys ++ (range' j (m - j)).map (place b.rev q) ++
        (positions false m C).map (place b.rev q)) := by
  induction C generalizing m j b ys with
  -- `drain` writes what is left behind the last pivot
  | nil =>
    rw [count_nil] at hcount
    rw [length_nil] at hq
    obtain ⟨items, it, hemit, hw'⟩ :=
      emit_spec hfit (m - j) hlast (by omega) hw (by omega)
    refine ⟨_, items, it, ?_, by simpa [positions] using hw'⟩
    show b.drain W = _
    rw [← hemit, Builder.drain, hpivot, hoff, hw.place]
    cases b.rev with
    | false =>
      show b.emit W ((n : Int) - ys.length).toNat = _
      rw [show ((n : Int) - ys.length).toNat = m - j by omega]
    | true =>
      show b.emit W ((n : Int) - ys.length - 1 + 1).toNat = _
      rw [show ((n : Int) - ys.length - 1 + 1).toNat = m - j by omega]
  | cons c C ih =>
    rw [length_cons] at hq
    cases c with
    | true =>
      rw [count_cons_of_ne (by decide)] at hcount
      -- a pivot ends a run of complements, which are written now
      obtain ⟨items, it, hemit, hw'⟩ :=
        emit_spec hfit (m - j) hlast (by omega) hw (by omega)
      rw [show j + (m - j) = m by omega] at hemit hw'
      have hstep : Written n e (b.at (place b.rev q (m + 1)) items it)
          (ys ++ (range' j (m - j)).map (place b.rev q)) :=
        ⟨hw'.left, hw'.place, hw'.pool⟩
      obtain ⟨last, items', it', hrest, hdone⟩ := ih (m := m + 1)
        (b := b.at (place b.rev q (m + 1)) items it) hpivot hoff rfl hstep le_rfl
        (by omega) (by simp; omega)
      refine ⟨last, items', it', ?_, ?_⟩
      · rw [positions_cons_same, map_cons, foldlM_cons,
          insert_place hfit hpivot hlast hjm (by omega), hemit]
        show Option.bind (foldlM _ (b.at (if b.rev then wsub (place b.rev q m) 1
          else place b.rev q m + 1) items it) _) _ = _
        rw [place_succ b.rev (by omega)]
        exact hrest
      · rw [Nat.sub_self, range'_zero, map_nil, append_nil] at hdone
        exact hdone
    | false =>
      rw [count_cons_self] at hcount
      -- a complement waits for the next pivot
      obtain ⟨last, items', it', hrest, hdone⟩ := ih (m := m + 1) hpivot hoff hlast hw
        (by omega) (by omega) (by omega)
      refine ⟨last, items', it', ?_, ?_⟩
      · exact hrest
      · rw [show m + 1 - j = m - j + 1 by omega, range'_concat, one_mul,
          show j + (m - j) = m by omega] at hdone
        rw [positions_cons_same]
        simpa using hdone

end Complements

/-- All pivots are written one after the other. -/
theorem insert_pivots (zs : List Nat) {b : Builder} {ys : List Nat} (hpivot : b.pivot = true)
    (hw : Written n e b ys) (hroom : ys.length + zs.length ≤ n) (hfit : ∀ z ∈ zs, z < 256 ^ W) :
    ∃ items it, zs.foldlM (Builder.insert W) b = some (b.at b.last items it) ∧
      Written n e (b.at b.last items it) (ys ++ zs) := by
  induction zs generalizing b ys with
  | nil => exact ⟨b.items, b.it, rfl, by simpa [Builder.at] using hw⟩
  | cons z zs ih =>
    rw [length_cons] at hroom
    have hz : z < 256 ^ W := hfit z mem_cons_self
    obtain ⟨items, it, hput, hput'⟩ := put_written hw (y := z) (by omega) hz
    obtain ⟨items', it', hrest, hw'⟩ := ih (b := b.at b.last items it) hpivot hput'
      (by simp; omega) (fun y hy => hfit y (mem_cons_of_mem z hy))
    refine ⟨items', it', ?_, ?_⟩
    · rw [foldlM_cons, Builder.insert, if_pos hz, hpivot, hput]
      exact hrest
    · rw [append_cons]
      exact hw'

/-! ## The layers -/

/-- Every layer ends one 256th of the previous one's entries further on. -/
theorem layerEnds_spec (fuel n sz i : Nat) (hi : i < (layerEnds fuel n sz).length) :
    0 < n / 256 ^ i ∧ (layerEnds fuel n sz).getD i 0 =
      (if i = 0 then sz else (layerEnds fuel n sz).getD (i - 1) 0) + n / 256 ^ i := by
  induction fuel generalizing n sz i with
  | zero => cases hi
  | succ fuel ih =>
    rw [layerEnds] at hi ⊢
    by_cases hn : n = 0
    · rw [if_pos hn] at hi
      cases hi
    rw [if_neg hn] at hi ⊢
    cases i with
    | zero =>
      simp only [pow_zero, Nat.div_one, getD_cons_zero, if_true]
      exact ⟨pos_of_ne_zero hn, trivial⟩
    | succ i =>
      obtain ⟨hpos, hend⟩ := ih (n / 256) (sz + n) i (by simpa using hi)
      have hdiv : n / 256 / 256 ^ i = n / 256 ^ (i + 1) := by
        rw [Nat.div_div_eq_div_mul, pow_succ, mul_comm]
      rw [hdiv] at hpos hend
      refine ⟨hpos, ?_⟩
      rw [getD_cons_succ, hend]
      cases i with
      | zero => simp
      | succ i => simp

theorem layerEnds_pos (hn : 0 < n) (fuel sz : Nat) :
    layerEnds (fuel + 1) n sz = (sz + n) :: layerEnds fuel (n / 256) (sz + n) := by
  rw [layerEnds, if_neg (by omega)]

/-- Copying reads below the entries it writes. -/
theorem copyEntries_spec (k src dst : Nat) (items : List Nat)
    (hsrc : ∀ j, j < k → src + 256 * j < dst) (hlen : dst + k ≤ items.length) :
    ∃ items', copyEntries k src dst items = some items' ∧ items'.length = items.length ∧
      (∀ p, p < dst → items'[p]? = items[p]?) ∧
      ∀ j, j < k → items'[dst + j]? = items[src + 256 * j]? := by
  induction k generalizing src dst items with
  | zero => exact ⟨items, rfl, rfl, fun _ _ => rfl, fun j hj => absurd hj (not_lt_zero j)⟩
  | succ k ih =>
    have h0 : src < dst := by simpa using hsrc 0 (succ_pos k)
    have hget : items[src]? = some items[src] := getElem?_eq_getElem (by omega)
    obtain ⟨items', hcopy, hlen', hlow, hnew⟩ := ih (src + 256) (dst + 1)
      (items.set dst items[src])
      (fun j hj => by have := hsrc (j + 1) (by omega); omega) (by simp; omega)
    refine ⟨items', ?_, by simpa using hlen', ?_, ?_⟩
    · rw [copyEntries, hget]
      exact hcopy
    · intro p hp
      rw [hlow p (by omega), getElem?_set_ne (by omega)]
    intro j hj
    cases j with
    | zero =>
      rw [add_zero, hlow dst (lt_succ_self dst),
        getElem?_set_self (by omega), mul_zero, add_zero, hget]
    | succ j =>
      have hj' := hsrc (j + 1) hj
      rw [show dst + (j + 1) = dst + 1 + j by omega, hnew j (by omega), getElem?_set_ne (by omega)]
      congr 1
      omega

section Copy

variable {offsets : List Nat} {n i j : Nat} {v : Nat → Nat}

/-- Where layer `i` starts. -/
def startOf (offsets : List Nat) (i : Nat) : Nat := if i = 0 then 0 else offsets.getD (i - 1) 0

/-- The layers up to the `i`-th are filled. -/
def Filled (offsets : List Nat) (n : Nat) (v : Nat → Nat) (i : Nat) (items : List Nat) : Prop :=
  ∀ a, a ≤ i → ∀ j, j < n / 256 ^ a → items[startOf offsets a + j]? = some (v (256 ^ a * j))

variable (hoff : ∀ i, i < offsets.length →
  offsets.getD i 0 = startOf offsets i + n / 256 ^ i)

include hoff

theorem offsets_mono (hij : i ≤ j) (hj : j < offsets.length) :
    offsets.getD i 0 ≤ offsets.getD j 0 := by
  induction j with
  | zero => rw [le_zero.mp hij]
  | succ j ih =>
    rcases lt_or_eq_of_le hij with h | rfl
    · have h1 := ih (by omega) (by omega)
      rw [hoff (j + 1) hj]
      exact h1.trans (le_add_right _ _)
    · exact le_rfl

/-- One layer is filled from the one below. -/
theorem copyLayer_filled (hi : i + 1 < offsets.length)
    (hlen : ∀ i, i < offsets.length → offsets.getD i 0 ≤ items.length)
    (h : Filled offsets n v i items) :
    ∃ items', copyEntries (offsets.getD (i + 1) 0 - offsets.getD i 0) (startOf offsets i)
        (offsets.getD i 0) items = some items' ∧ items'.length = items.length ∧
      Filled offsets n v (i + 1) items' := by
  have hlow := hoff i (by omega)
  have hnext : offsets.getD (i + 1) 0 = offsets.getD i 0 + n / 256 ^ (i + 1) := hoff (i + 1) hi
  obtain ⟨items', hcopy, hlen', hkeep, hnew⟩ := copyEntries_spec (n / 256 ^ (i + 1))
    (startOf offsets i) (offsets.getD i 0) items
    (fun j hj => by have := layer_child hj; omega)
    (by have := hlen (i + 1) hi; omega)
  rw [hnext, Nat.add_sub_cancel_left]
  refine ⟨items', hcopy, hlen', ?_⟩
  intro a ha j hj
  rcases lt_or_eq_of_le ha with hlt | rfl
  · -- an older layer lies below what was written
    have hend := hoff a (by omega)
    have hmono := offsets_mono hoff (show a ≤ i by omega) (by omega)
    rw [hkeep _ (by omega)]
    exact h a (by omega) j hj
  · show items'[offsets.getD i 0 + j]? = _
    rw [hnew j hj, mul_comm 256 j, h i le_rfl _ (layer_child hj), layer_child_index]

/-- Layer after layer is sampled from the one below. -/
theorem copyLayers_filled (k i : Nat) (items : List Nat) (hk : i + k + 1 = offsets.length)
    (hlen : ∀ i, i < offsets.length → offsets.getD i 0 ≤ items.length)
    (h : Filled offsets n v i items) :
    ∃ items', copyLayers offsets k i (startOf offsets i) items = some items' ∧
      items'.length = items.length ∧ Filled offsets n v (i + k) items' ∧
      (k = 0 → items' = items) := by
  induction k generalizing i items with
  | zero => exact ⟨items, rfl, rfl, h, fun _ => rfl⟩
  | succ k ih =>
    obtain ⟨items₁, hcopy, hlen₁, hfill⟩ := copyLayer_filled hoff (by omega) hlen h
    obtain ⟨items₂, hrest, hlen₂, hfill₂, -⟩ := ih (i + 1) items₁ (by omega)
      (by rw [hlen₁]; exact hlen) hfill
    refine ⟨items₂, ?_, hlen₂.trans hlen₁, ?_, fun hk0 => absurd hk0 (succ_ne_zero k)⟩
    · rw [copyLayers, hcopy, bind_some]
      exact hrest
    · rwa [show i + (k + 1) = i + 1 + k by omega]

end Copy

/-! ## The finished structure -/

/-- Reading a list as a table. -/
def table (l : List Nat) (k : Nat) : Nat := l.getD k 0

theorem table_get {l : List Nat} (hk : k < l.length) : l[k]? = some (table l k) := by
  simp [table, getElem?_eq_getElem hk]

/-- Written out and copied into the layers, the pool holds the pivots. -/
theorem finish_layered {b : Builder} {it : Int} {last : Nat} {c : Builder}
    (hdrain : c.drain W = some (b.at last items it)) (hoff : b.offsets = layerEnds 8 piv.length 0)
    (hn : 0 < piv.length) (hcount : piv.length = if b.pivot then b.num1 else b.num0)
    (hitems : items = piv ++ replicate (b.offsets.getLastD 0 - piv.length +
      if b.offsets.length ≤ 1 then 1 else 0) 0) (hsorted : piv.Pairwise (· < ·))
    (hword : b.num0 + b.num1 < 2 ^ 64) :
    ∃ x, c.finish W = some x ∧ x.pivot = b.pivot ∧ x.num0 = b.num0 ∧ x.num1 = b.num1 ∧
      Layered x (table piv) := by
  have hcons := layerEnds_pos hn 7 0
  rw [zero_add] at hcons
  have hlayers : 0 < b.offsets.length := by rw [hoff, hcons]; simp
  have hends : ∀ i, i < b.offsets.length →
      b.offsets.getD i 0 = startOf b.offsets i + piv.length / 256 ^ i := by
    intro i hi
    rw [hoff] at hi ⊢
    exact (layerEnds_spec 8 piv.length 0 i hi).2
  have hfirst : b.offsets.getD 0 0 = piv.length := by rw [hoff, hcons]; rfl
  have hlast : ∀ i, i < b.offsets.length → b.offsets.getD i 0 ≤ b.offsets.getLastD 0 := by
    intro i hi
    have h := offsets_mono hends (show i ≤ b.offsets.length - 1 by omega) (by omega)
    rwa [getLastD_eq_getLast?, getLast?_eq_getElem?]
  have hlen : ∀ i, i < b.offsets.length → b.offsets.getD i 0 ≤ items.length := by
    intro i hi
    have := hlast i hi
    rw [hitems, length_append, length_replicate]
    omega
  have hbase : Filled b.offsets piv.length (table piv) 0 items := by
    intro a ha j hj
    obtain rfl : a = 0 := le_zero.mp ha
    rw [pow_zero, Nat.div_one] at hj
    rw [startOf, if_pos rfl, zero_add, hitems, getElem?_append_left hj, pow_zero,
      one_mul, table_get hj]
  obtain ⟨items', hcopy, hlen', hfill, hsame⟩ := copyLayers_filled hends (b.offsets.length - 1) 0
    items (by omega) hlen hbase
  refine ⟨⟨b.pivot, items', b.offsets, b.num0, b.num1⟩, ?_, rfl, rfl, rfl, ?_⟩
  · rw [Builder.finish, hdrain]
    show (copyLayers b.offsets (b.offsets.length - 1) 0 (startOf b.offsets 0) items).map _ = _
    rw [hcopy]
    rfl
  have hcnt : (Few.mk b.pivot items' b.offsets b.num0 b.num1).n = piv.length := hcount.symm
  have hget : ∀ i, i < b.offsets.length → ∀ j, j < piv.length / 256 ^ i →
      items'[startOf b.offsets i + j]? = some (table piv (256 ^ i * j)) :=
    fun i hi j hj => hfill i (by omega) j hj
  refine ⟨hcnt.symm ▸ hn, hlayers, ?_, ?_, ?_, ?_, ?_, hword⟩
  · intro i hi
    rw [hcnt]
    rw [hoff] at hi
    exact (layerEnds_spec 8 piv.length 0 i hi).1
  · rw [hcnt]
    exact hends
  · rw [hcnt]
    exact hget
  · rw [hcnt]
    by_cases hone : b.offsets.length ≤ 1
    · -- one layer: the bound behind it is still zero
      refine ⟨0, zero_le _, ?_⟩
      show items'[piv.length]? = some 0
      rw [hsame (by omega), hitems, if_pos hone, getElem?_append_right le_rfl, getElem?_replicate,
        if_pos (by omega)]
    -- the next layer starts with the first pivot
    have hpos : 0 < piv.length / 256 ^ 1 := by
      have := (layerEnds_spec 8 piv.length 0 1 (by rw [← hoff]; omega)).1
      exact this
    have h := hget 1 (by omega) 0 hpos
    rw [startOf, hfirst] at h
    exact ⟨_, le_rfl, h⟩
  · rw [hcnt]
    intro i j hij hj
    have := pairwise_iff_getElem.mp hsorted i j (by omega) hj hij
    simpa [table, getElem?_eq_getElem hj, getElem?_eq_getElem (hij.trans hj)] using this

theorem create_written (pivot : Bool) (num0 num1 : Nat) (rev : Bool) (hn : 0 < n)
    (hcount : n = if pivot then num1 else num0) :
    Written n ((layerEnds 8 n 0).getLastD 0 - n + if (layerEnds 8 n 0).length ≤ 1 then 1 else 0)
      (Builder.create pivot num0 num1 rev) [] := by
  have hcons := layerEnds_pos hn 7 0
  rw [zero_add] at hcons
  have hends := fun i hi => (layerEnds_spec 8 n 0 i hi).2
  have hmono := offsets_mono hends (zero_le ((layerEnds 8 n 0).length - 1))
    (by rw [hcons]; simp)
  have hlast : n ≤ (layerEnds 8 n 0).getLastD 0 := by
    rw [getLastD_eq_getLast?, getLast?_eq_getElem?]
    rwa [show (layerEnds 8 n 0).getD 0 0 = n by rw [hcons]; rfl] at hmono
  refine ⟨zero_le n, ?_, ?_⟩
  · show (if rev then _ - 1 else 0) = if rev then ((n : Int) - _) - 1 else _
    rw [← hcount, hcons]
    simp
  · show replicate _ 0 = _
    rw [← hcount]
    simp only [length_nil, reverse_nil, append_nil, nil_append,
      ite_self, replicate_append_replicate]
    congr 1
    omega

/-- When all pivots are written the pool lists them upwards, whichever way they came. -/
theorem Written.done {b : Builder} (hn : piv.length = n)
    (h : Written n e b (if b.rev then piv.reverse else piv)) : b.items = piv ++ replicate e 0 := by
  rw [h.pool]
  cases b.rev with
  | false => simp [hn]
  | true => simp [hn]

/-- The whole of the insertions and the first half of `finish` write the pivots. -/
theorem insert_all (rev : Bool) (hpiv : pivot ∈ B)
    (hfit : ∀ k, B[k]? = some true ∨ B[k]? = some pivot → k < 256 ^ W) :
    ∃ c last items it,
      ((if rev then (positions true 0 B).reverse else positions true 0 B).foldlM
        (Builder.insert W) (Builder.create pivot (B.count false) (B.count true) rev)) = some c ∧
      c.drain W =
        some ((Builder.create pivot (B.count false) (B.count true) rev).at last items it) ∧
      items = positions pivot 0 B ++ replicate ((layerEnds 8 (B.count pivot) 0).getLastD 0 -
        B.count pivot + if (layerEnds 8 (B.count pivot) 0).length ≤ 1 then 1 else 0) 0 := by
  have hn : 0 < B.count pivot := count_pos_iff.mpr hpiv
  have hcount : B.count pivot = if pivot then B.count true else B.count false := by
    cases pivot <;> rfl
  have hstart := create_written pivot (B.count false) (B.count true) rev hn hcount
  have hlen := positions_length pivot 0 B
  -- ones are inserted as they come, zeros are what lies between the inserted ones
  cases hp : pivot with
  | true =>
    subst hp
    have hones : ∀ z ∈ (if rev then (positions true 0 B).reverse else positions true 0 B),
        z < 256 ^ W := by
      intro z hz
      have hz' : z ∈ positions true 0 B := by
        cases rev
        · exact hz
        · exact mem_reverse.mp hz
      exact hfit z (Or.inl (by simpa using (mem_positions.mp hz').2))
    obtain ⟨items, it, hfold, hw⟩ := insert_pivots
      (if rev then (positions true 0 B).reverse else positions true 0 B) rfl hstart
      (by cases rev <;> simp [hlen]) hones
    exact ⟨_, _, items, it, hfold, rfl, Written.done hlen hw⟩
  | false =>
    subst hp
    have hall : ∀ k, k < B.length → k < 256 ^ W := by
      intro k hk
      refine hfit k ?_
      rw [getElem?_eq_getElem hk]
      cases B[k] <;> simp
    have hsum : B.count false + B.count true = B.length := count_false_add_count_true B
    have hfirst : (Builder.create false (B.count false) (B.count true) rev).last =
        place rev B.length 0 := by
      cases rev with
      | false =>
        rfl
      | true =>
        rw [place_down, wsub_eq (by omega), ← hsum]
        rfl
    have hoff : (layerEnds 8 (B.count false) 0).getD 0 0 = B.count false := by
      rw [layerEnds_pos hn, zero_add, getD_cons_zero]
    obtain ⟨last, items, it, hbind, hw⟩ := insert_complements hall
      (if rev then B.reverse else B) (m := 0) rfl hoff hfirst hstart (le_refl 0)
      (by cases rev <;> simp) (by cases rev <;> simp)
    rw [show (Builder.create false (B.count false) (B.count true) rev).rev = rev from rfl,
      positions_place] at hbind hw
    obtain ⟨c, hfold, hdrain⟩ := bind_eq_some_iff.mp hbind
    exact ⟨c, last, items, it, hfold, hdrain, Written.done hlen hw⟩

/-- **THE BUILDER BUILDS**: for positions that fit the entries the finished structure
    holds the pivots of the bit sequence. -/
theorem build_layered (rev : Bool) (hpiv : pivot ∈ B) (hword : B.length < 2 ^ 64)
    (hfit : ∀ k, B[k]? = some true ∨ B[k]? = some pivot → k < 256 ^ W) :
    ∃ x, build W pivot rev B = some x ∧ x.pivot = pivot ∧ x.num0 = B.count false ∧
      x.num1 = B.count true ∧ Layered x (table (positions pivot 0 B)) := by
  have hlen := positions_length pivot 0 B
  have hn : 0 < B.count pivot := count_pos_iff.mpr hpiv
  have hcount : B.count pivot = if pivot then B.count true else B.count false := by
    cases pivot <;> rfl
  have hsum : B.count false + B.count true = B.length := count_false_add_count_true B
  obtain ⟨c, last, items, it, hfold, hdrain, hitems⟩ := insert_all rev hpiv hfit
  have hoff : (Builder.create pivot (B.count false) (B.count true) rev).offsets =
      layerEnds 8 (positions pivot 0 B).length 0 := by
    rw [hlen, hcount]
    rfl
  obtain ⟨x, hfinish, h1, h2, h3, hx⟩ := finish_layered hdrain hoff (by omega)
    (by rw [hlen]; exact hcount) (by rw [hoff, hlen]; exact hitems) (positions_sorted pivot 0 B)
    (by
      show B.count false + B.count true < 2 ^ 64
      omega)
  refine ⟨x, ?_, h1, h2, h3, hx⟩
  show ((if rev then (positions true 0 B).reverse else positions true 0 B).foldlM
    (Builder.insert W) _).bind _ = _
  rw [hfold]
  exact hfinish

/-! ## What the queries answer -/

section Answers

open Search

variable {x : Few} {b : Bool} {pos : Nat}

/-- Both values together fill the places. -/
theorem count_other (hb : b ≠ x.pivot) (hpos : pos ≤ B.length) :
    (B.take pos).count x.pivot + (B.take pos).count b = pos := by
  rw [Bool.eq_not_of_ne hb, count_add_count_not, length_take, min_eq_left hpos]

theorem other_value (hpos : pos < B.length) (hp : B[pos]? ≠ some x.pivot) :
    B[pos]? = some (!x.pivot) := by
  rw [getElem?_eq_getElem hpos] at hp ⊢
  exact congrArg some (Bool.eq_not_of_ne (fun h => hp (congrArg some h)))

variable (hn : x.n = B.count x.pivot)

include hn

/-- The pivots before `pos` are those in the part before it. -/
theorem table_lt_iff (hk : k < x.n) (pos : Nat) :
    table (positions x.pivot 0 B) k < pos ↔ k < (B.take pos).count x.pivot := by
  have hsplit := positions_append x.pivot 0 (B.take pos) (B.drop pos)
  rw [take_append_drop] at hsplit
  have hlen := positions_length x.pivot 0 (B.take pos)
  have hget := table_get (l := positions x.pivot 0 B) (k := k) (by rwa [positions_length, ← hn])
  rw [hsplit] at hget
  rcases lt_or_ge k ((B.take pos).count x.pivot) with hlt | hge
  · rw [getElem?_append_left (by omega), ← hsplit] at hget
    have hbefore := positions_lt (mem_of_getElem? hget)
    rw [length_take] at hbefore
    exact iff_of_true (by omega) hlt
  · rw [getElem?_append_right (by omega), ← hsplit] at hget
    obtain ⟨hle, hat⟩ := mem_positions.mp (mem_of_getElem? hget)
    obtain ⟨hdrop, -⟩ := List.getElem_of_getElem? hat
    rw [length_drop] at hdrop
    rw [length_take] at hle
    exact iff_of_false (by omega) hge.not_gt

/-- The places of the pivots are those in the table. -/
theorem pivot_iff :
    B[pos]? = some x.pivot ↔ ∃ k, k < x.n ∧ table (positions x.pivot 0 B) k = pos := by
  have hmem := mem_positions (b := x.pivot) (B := B) (m := 0) (k := pos)
  rw [Nat.sub_zero] at hmem
  rw [← and_iff_right (zero_le pos) (b := B[pos]? = some x.pivot), ← hmem, hn,
    ← positions_length x.pivot 0 B]
  constructor
  · intro h
    obtain ⟨k, hval⟩ := mem_iff_getElem?.mp h
    obtain ⟨hk, -⟩ := List.getElem_of_getElem? hval
    exact ⟨k, hk, mem_unique (table_get hk) hval⟩
  · rintro ⟨k, hk, rfl⟩
    exact mem_of_getElem? (table_get hk)

/-- Whatever separates the pivots before a place from the others counts the former. -/
theorem count_take_eq {t : Nat} (ht : t ≤ x.n)
    (h : ∀ k, k < x.n → (k < t ↔ table (positions x.pivot 0 B) k < pos)) :
    (B.take pos).count x.pivot = t := by
  have hcount : (B.take pos).count x.pivot ≤ x.n := by
    rw [hn]
    exact (take_sublist pos B).count_le _
  refine le_antisymm (not_lt.mp (fun hlt => ?_)) (not_lt.mp (fun hlt => ?_))
  · have hk : t < x.n := by omega
    exact lt_irrefl _ ((h t hk).mpr ((table_lt_iff hn hk pos).mpr hlt))
  · have hk : (B.take pos).count x.pivot < x.n := by omega
    exact lt_irrefl _ ((table_lt_iff hn hk pos).mp ((h _ hk).mp hlt))

variable (hx : Layered x (table (positions x.pivot 0 B)))

include hx

/-- `lower_bound` counts the pivots before the place. -/
theorem lowerBound_count (pos : Nat) : lowerBound x pos = some ((B.take pos).count x.pivot) := by
  rw [lowerBound_eq hx, count_take_eq hn (hx.place_le _ pos) (fun k hk => hx.lt_place pos hk)]

/-- `rank` counts the bits before `pos`. -/
theorem rank_eq (b : Bool) (hpos : pos ≤ B.length) :
    rank x b pos = some ((B.take pos).count b) := by
  rw [rank, lowerBound_count hn hx, map_some]
  by_cases hb : b = x.pivot
  · rw [if_pos hb, hb]
  · have hsum := count_other hb hpos
    rw [if_neg hb, wsub_eq (by omega)]
    congr 1
    omega

/-- `operator[]`.  Behind the last pivot the entry that is read is not above the first. -/
theorem bitAt_eq (hpos : pos < B.length) :
    (lowerBound x pos).bind (fun idx => bitAt x idx pos) = B[pos]? := by
  have hplace := fun k (hk : k < x.n) => table_lt_iff hn hk pos
  have hle : (B.take pos).count x.pivot ≤ x.n := hn ▸ (take_sublist pos B).count_le _
  rw [lowerBound_count hn hx, bind_some]
  generalize (B.take pos).count x.pivot = idx at hplace hle ⊢
  by_cases hp : B[pos]? = some x.pivot
  · obtain ⟨k, hk, hv⟩ := (pivot_iff hn).mp hp
    have hidx : idx = k := by
      have h1 := hplace k hk
      by_contra hne
      have h2 := hx.mono idx k (by omega) hk
      have h3 := hplace idx (by omega)
      omega
    rw [hp, bitAt, hidx, hx.val hk, hv]
    cases x.pivot <;> simp
  obtain ⟨w, hval, hne⟩ : ∃ w, x.val idx = some w ∧ w ≠ pos := by
    rcases lt_or_eq_of_le hle with hlt | rfl
    · exact ⟨_, hx.val hlt, fun h => hp ((pivot_iff hn).mpr ⟨idx, hlt, h⟩)⟩
    · obtain ⟨w, hfirst, hval⟩ := hx.behind
      have h0 := (hplace 0 hx.some_pivot).mpr hx.some_pivot
      exact ⟨w, hval, by omega⟩
  rw [other_value hpos hp, bitAt, hval]
  cases x.pivot <;> simp [hne]

/-- `select` finds the bit with this rank. -/
theorem select_eq {id : Nat} (hid : id < B.count b) :
    ∃ p, select x b id = some p ∧ B[p]? = some b ∧ (B.take p).count b = id := by
  unfold select
  by_cases hb : b = x.pivot
  · subst hb
    rw [← hn] at hid
    rw [if_pos rfl, hx.val hid]
    refine ⟨_, rfl, (pivot_iff hn).mpr ⟨id, hid, rfl⟩, count_take_eq hn hid.le (fun k hk => ?_)⟩
    constructor
    · intro hlt
      exact hx.mono k id hlt hid
    · intro hlt
      by_contra hge
      have := hx.mono_le (not_lt.mp hge) hk
      omega
  rw [if_neg hb, selectComplement_eq hx]
  have hle := hx.place_le (fun k => table (positions x.pivot 0 B) k - k) (id + 1)
  have hpassed := fun k (hk : k < x.n) => hx.lt_passed id hk
  generalize firstGe _ (x.n - 1) (id + 1) = t at hle hpassed ⊢
  -- the pivots passed are before the answer, the others behind it
  have hbehind : ∀ k, t ≤ k → k < x.n → id + t < table (positions x.pivot 0 B) k := by
    intro k htk hk
    have h1 := hpassed t (by omega)
    have h2 := hx.mono_le htk hk
    omega
  have hbefore : ∀ k, k < x.n → (k < t ↔ table (positions x.pivot 0 B) k < id + t) := by
    intro k hk
    constructor
    · intro hlt
      have := (hpassed k hk).mp hlt
      omega
    · intro hlt
      by_contra hge
      have := hbehind k (not_lt.mp hge) hk
      omega
  have htotal := count_other hb (le_refl B.length)
  rw [take_length] at htotal
  have hlt : id + t < B.length := by omega
  have hcount := count_take_eq hn hle hbefore
  have hsum := count_other hb hlt.le
  refine ⟨_, rfl, ?_, by omega⟩
  rw [Bool.eq_not_of_ne hb]
  refine other_value hlt (fun h => ?_)
  obtain ⟨k, hk, hv⟩ := (pivot_iff hn).mp h
  have h1 := hbefore k hk
  have h2 := hbehind k
  omega

end Answers

/-- **EVERY QUERY OF A BUILT SEQUENCE ANSWERS FOR THE BITS**, in either order of insertion and
    over any number of layers: the bit at a place, the count before a place, and the place of
    the bit of a rank. -/
theorem few_answers {pivot : Bool} (rev : Bool) (hpiv : pivot ∈ B) (hword : B.length < 2 ^ 64)
    (hfit : ∀ k, B[k]? = some true ∨ B[k]? = some pivot → k < 256 ^ W) :
    ∃ x, build W pivot rev B = some x ∧
      (∀ pos < B.length, (lowerBound x pos).bind (fun idx => bitAt x idx pos) = B[pos]?) ∧
      (∀ b, ∀ pos ≤ B.length, rank x b pos = some ((B.take pos).count b)) ∧
      ∀ b, ∀ id < B.count b,
        ∃ p, select x b id = some p ∧ B[p]? = some b ∧ (B.take p).count b = id := by
  obtain ⟨x, hbuild, rfl, h0, h1, hx⟩ := build_layered rev hpiv hword hfit
  have hn : x.n = B.count x.pivot := by
    rw [Few.n, h0, h1]
    cases x.pivot <;> rfl
  refine ⟨x, hbuild, fun pos hpos => bitAt_eq hn hx hpos, fun b pos hpos => ?_,
    fun b id hid => select_eq hn hx hid⟩
  exact rank_eq hn hx b hpos

/-- Five bits, two of them ones. -/
theorem few_answers_five : false ∈ [false, true, false, true, false] ∧
    ∃ x, build 1 false true [false, true, false, true, false] = some x ∧
      (∀ pos < 5, (lowerBound x pos).bind (fun idx => bitAt x idx pos) =
        [false, true, false, true, false][pos]?) ∧
      (∀ b, ∀ pos ≤ 5, rank x b pos = some (([false, true, false, true, false].take pos).count b)) ∧
      ∀ b, ∀ id < [false, true, false, true, false].count b,
        ∃ p, select x b id = some p ∧ [false, true, false, true, false][p]? = some b ∧
          ([false, true, false, true, false].take p).count b = id := by
  refine ⟨by decide, few_answers true (by decide) (by simp) (fun k hk => ?_)⟩
  have hlt : k < 5 := by
    rcases hk with h | h
    · exact (List.getElem_of_getElem? h).1
    · exact (List.getElem_of_getElem? h).1
  omega

end RankSelectFew
