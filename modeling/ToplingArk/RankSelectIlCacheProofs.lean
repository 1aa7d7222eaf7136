import ToplingArk.RankSelectIlProofs

/-! # `rank_select_il` — building the index and asking it

    `build_cache_q` writes the counts into the lines, puts a SENTINEL line behind
    them and, behind the sentinel, the select caches: tables of line numbers, one
    slot for every `256 / Q` ones (or zeros).  All of it lives in the capacity of
    the line vector, so a line number one past the sentinel reads the first slots
    as a line; the model keeps that aliasing (`Image.rlev1`), because the slot
    loop with `Q0 = 4` uses it.  Memory that was never written holds an
    arbitrary `junk`. -/

namespace RankSelectIl

open BitCount Search RankSelectLine List Option Nat

/-! ## Memory and object -/

/-- The allocated memory: the lines with the sentinel, then `uint32_t` words up
    to the capacity (a line is ten of them). -/
structure Image where
  body : List Line
  tail : List Nat

/-- `lines[k].rlev1`; behind the sentinel a line number reads the words there. -/
def Image.rlev1 (img : Image) (k : Nat) : Option Nat :=
  match img.body[k]? with
  | some l => some l.rlev1
  | none => img.tail[10 * (k - img.body.length)]?

/-- The `uint32_t` at word address `a` from the start of the memory. -/
def Image.u32 (img : Image) (a : Nat) : Option Nat :=
  if a < 10 * img.body.length then none else img.tail[a - 10 * img.body.length]?

/-- The object with its index: `m_lines` (memory and size), `m_size`, the rank
    totals and the addresses of the select caches (`NULL` is `none`). -/
structure Cache where
  mem : Image
  nlines : Nat
  size : Nat
  maxRank0 : Nat
  maxRank1 : Nat
  fastSelect0 : Option Nat
  fastSelect1 : Option Nat

/-! ## `build_cache_q` -/

/-- The running count `inc` of the inner loop before word `j`. -/
def Line.inc (l : Line) : Nat → Nat
  | 0 => 0
  | j + 1 => l.inc j + fastPopcount (l.word j)

/-- The loop over the lines: write `rlev1` and `rlev2`, return the total. -/
def fillRlev : List Line → Nat → List Line × Nat
  | [], rank => ([], rank)
  | l :: ls, rank =>
    let rest := fillRlev ls (rank + l.inc 4)
    ({ l with rlev1 := rank % 2 ^ 32, rlev2 := fun j => l.inc j % 2 ^ 8 } :: rest.1, rest.2)

/-- `bits_range_set0(line.words, i, LineBits)` -/
def Line.clearFrom (l : Line) (i : Nat) : Line :=
  { l with bit64 := fun j => bitsRangeSet0 l.word i 256 j }

/-- `bits_range_set0(m_lines.back().words, m_size % LineBits, LineBits)`, done
    when the size is no multiple of the line: the PHYSICALLY last line. -/
def clearBack (s : Il) : Option (List Line) :=
  if s.size % 256 = 0 then some s.lines
  else match s.lines.getLast? with
    | none => none
    | some l => some (s.lines.dropLast ++ [l.clearFrom (s.size % 256)])

variable (junk : Nat → Nat) {l : Line} {W : Nat → BitVec 64} {nl p Q1 : Nat} {body : List Line}

/-- `lines[k].rlev1` while the select caches are being written: behind the
    sentinel stand the slots written so far, then junk. -/
def rlev1While (body : List Line) (written : List Nat) (k : Nat) : Nat :=
  match body[k]? with
  | some l => l.rlev1
  | none => (written[10 * (k - body.length)]?).getD (junk (10 * (k - body.length)))

/-- The 64-bit flags word: size, select1 flag, select0 flag. -/
def flagsOf (size : Nat) (speed1 speed0 : Bool) : Nat :=
  size * 2 ^ 8 + speed1.toNat * 2 + speed0.toNat

/-- The words of the tail: the slots, junk up to the capacity, the flags. -/
def tailWords (slots : List Nat) (flags : Nat) : List Nat :=
  let len := 10 * ((slots.length + 2 + 9) / 10)
  slots ++ (List.range (len - 2 - slots.length)).map (fun i => junk (slots.length + i))
    ++ [flags % 2 ^ 32, flags / 2 ^ 32]

/-- The line behind the last one, with the rank of all. -/
def sentinel (rank : Nat) : Line := { Line.make false with rlev1 := rank % 2 ^ 32 }

/-- `LineBits / (Q ? Q : 1)` -/
def quantum (Q : Nat) : Nat := 256 / (if Q = 0 then 1 else Q)

/-- `(max_rank + LineBits - 1) / (LineBits / (Q ? Q : 1))` -/
def slotCount (Q maxRank : Nat) : Nat := ((maxRank + 255) % 2 ^ 64) / quantum Q

/-- The select0 cache, if wanted. -/
def buildSel0 (body : List Line) (nl Q0 maxRank0 : Nat) : Option (List Nat) :=
  if Q0 = 0 then some []
  else hints (fun acc j k =>
    some (decide (wsub (k * 256) (rlev1While junk body acc k) < (256 / Q0) * j)))
      (nl + 2) (slotCount Q0 maxRank0) nl

/-- The select1 cache, if wanted; it stands behind the select0 cache. -/
def buildSel1 (body : List Line) (sel0 : List Nat) (nl Q1 maxRank1 : Nat) : Option (List Nat) :=
  if Q1 = 0 then some []
  else hints (fun acc j k =>
    some (decide (rlev1While junk body (sel0 ++ acc) k < (256 / Q1) * j)))
      (nl + 2) (slotCount Q1 maxRank1) nl

/-- The object after the select caches are written. -/
def finishCache (size nl rank Q0 Q1 : Nat) (body : List Line) (sel0 sel1 : List Nat) : Cache where
  mem := ⟨body, tailWords junk (sel0 ++ sel1) (flagsOf size (Q1 != 0) (Q0 != 0))⟩
  nlines := nl
  size := size
  maxRank0 := wsub size rank
  maxRank1 := rank
  fastSelect0 := if Q0 = 0 then none else some (10 * (nl + 1))
  fastSelect1 := if Q1 = 0 then none else some (10 * (nl + 1) + sel0.length)

/-- `build_cache_q(Q0, Q1)` -/
def buildCacheQ (s : Il) (Q0 Q1 : Nat) : Option Cache :=
  if s.size > maxSize then none
  else (clearBack s).bind (fun cleared =>
    let lines := (fillRlev cleared 0).1
    let rank := (fillRlev cleared 0).2
    let body := lines ++ [sentinel rank]
    (buildSel0 junk body lines.length Q0 (wsub s.size rank)).bind (fun sel0 =>
      (buildSel1 junk body sel0 lines.length Q1 rank).map (fun sel1 =>
        finishCache junk s.size lines.length rank Q0 Q1 body sel0 sel1)))

/-- `build_cache(speed_select0, speed_select1)` -/
def buildCache (s : Il) (speed0 speed1 : Bool) : Option Cache :=
  buildCacheQ junk s speed0.toNat speed1.toNat

/-- `rank_select_il_256_32_41::build_cache` -/
def buildCache41 (s : Il) (speed0 speed1 : Bool) : Option Cache :=
  buildCacheQ junk s (if speed0 then 4 else 0) speed1.toNat

/-! ## Rank and select -/

variable (mem : Image)

/-- `fast_rank1(lines, lines, bitpos)` -/
def fastRank1 (bitpos : Nat) : Option Nat :=
  (mem.body[bitpos / 256]?).map (fun line =>
    line.rlev1 + line.rlev2 ⟨bitpos % 256 / 64, by omega⟩ +
      fastPopcountTrail (line.bit64 ⟨bitpos % 256 / 64, by omega⟩) (bitpos % 64))

/-- `fast_rank0` -/
def fastRank0 (bitpos : Nat) : Option Nat :=
  (fastRank1 mem bitpos).map (wsub bitpos)

/-- `rank1` has the same body as `fast_rank1`. -/
def rank1 (c : Cache) (bitpos : Nat) : Option Nat := fastRank1 c.mem bitpos

/-- `rank0` -/
def rank0 (c : Cache) (bitpos : Nat) : Option Nat := (rank1 c bitpos).map (wsub bitpos)

/-- The binary search over the lines for a zero. -/
def upperBoundLine0 (R lo hi : Nat) : Option Nat :=
  upperBound (fun mid => (mem.rlev1 mid).map (fun r => decide (wsub (256 * mid) r ≤ R))) lo hi

/-- The binary search over the lines for a one. -/
def upperBoundLine1 (R lo hi : Nat) : Option Nat :=
  upperBound (fun mid => (mem.rlev1 mid).map (fun r => decide (r ≤ R))) lo hi

/-- The selection of a zero in the line before `lo`. -/
def selectAt0 (R lo : Nat) : Option Nat :=
  if lo = 0 then none
  else (mem.body[lo - 1]?).bind (fun xx =>
    (selectLine0 R (wsub (256 * (lo - 1)) xx.rlev1) xx.rlev2 xx.bit64).map
      ((lo - 1) * 256 + ·))

/-- The selection of a one in the line before `lo`. -/
def selectAt1 (R lo : Nat) : Option Nat :=
  if lo = 0 then none
  else (mem.body[lo - 1]?).bind (fun xx =>
    (selectLine1 R xx.rlev1 xx.rlev2 xx.bit64).map ((lo - 1) * 256 + ·))

/-- `fast_select0_q<Q>(lines, sel0, lines, Rank0)` -/
def fastSelect0Q (Q : Nat) (mem : Image) (sel0 R : Nat) : Option Nat :=
  (mem.u32 (sel0 + R / (256 / Q))).bind (fun lo =>
    (mem.u32 (sel0 + (R / (256 / Q) + 1))).bind (fun hi =>
      (upperBoundLine0 mem R lo hi).bind (selectAt0 mem R)))

/-- `fast_select1_q<Q>(lines, sel1, lines, Rank1)` -/
def fastSelect1Q (Q : Nat) (mem : Image) (sel1 R : Nat) : Option Nat :=
  (mem.u32 (sel1 + R / (256 / Q))).bind (fun lo =>
    (mem.u32 (sel1 + (R / (256 / Q) + 1))).bind (fun hi =>
      (upperBoundLine1 mem R lo hi).bind (selectAt1 mem R)))

/-- `select0_q<Q>`: through the select cache if there is one, over all lines
    otherwise. -/
def select0Q (Q : Nat) (c : Cache) (R : Nat) : Option Nat :=
  match c.fastSelect0 with
  | some p => fastSelect0Q Q c.mem p R
  | none => (upperBoundLine0 c.mem R 0 c.nlines).bind (selectAt0 c.mem R)

/-- `select1_q<Q>` -/
def select1Q (Q : Nat) (c : Cache) (R : Nat) : Option Nat :=
  match c.fastSelect1 with
  | some p => fastSelect1Q Q c.mem p R
  | none => (upperBoundLine1 c.mem R 0 c.nlines).bind (selectAt1 c.mem R)

/-- `rank_select_il::select0` -/
def select0 (c : Cache) (R : Nat) : Option Nat := select0Q 1 c R

/-- `rank_select_il::select1` -/
def select1 (c : Cache) (R : Nat) : Option Nat := select1Q 1 c R

/-- `rank_select_il_256_32_41::select0` -/
def select041 (c : Cache) (R : Nat) : Option Nat := select0Q 4 c R

/-! ## The counts that are written -/

/-- The ones of a line before word `j`. -/
theorem Line.inc_eq (l : Line) (j : Nat) : l.inc j = ones (wordBits l.word) (64 * j) := by
  induction j with
  | zero => rfl
  | succ j ih =>
    rw [ones_wordBits_succ, ← ih]
    rfl

variable {i k : Nat} {cl : List Line} {s : Il}

theorem bits_cons_low (l : Line) (ls : List Line) (hi : i < 256) :
    bits (l :: ls) i = wordBits l.word i := by
  have h := @bits_at l i (l :: ls) 0 rfl hi
  rw [mul_zero, zero_add] at h
  exact h

theorem bits_cons_high (l : Line) (ls : List Line) (i : Nat) :
    bits (l :: ls) (256 + i) = bits ls i := by
  show (lineWords _ _).getLsbD _ = _
  rw [show (256 + i) % 64 = i % 64 by omega, show (256 + i) / 64 = i / 64 + 4 by omega]
  show (match (l :: ls)[(i / 64 + 4) / 4]? with
    | some l => l.word ((i / 64 + 4) % 4) | none => 0).getLsbD (i % 64) = _
  rw [show (i / 64 + 4) / 4 = i / 64 / 4 + 1 by omega, show (i / 64 + 4) % 4 = i / 64 % 4 by omega]
  rfl

/-- The ones of the first line and of the others. -/
theorem ones_bits_cons (l : Line) (ls : List Line) (k : Nat) :
    ones (bits (l :: ls)) (256 * (k + 1)) = l.inc 4 + ones (bits ls) (256 * k) := by
  have hlow : ones (bits (l :: ls)) 256 = ones (wordBits l.word) 256 :=
    ones_congr (fun i hi => bits_cons_low l ls hi)
  have hhigh : ones (fun i => bits (l :: ls) (256 + i)) (256 * k) = ones (bits ls) (256 * k) :=
    ones_congr (fun i _ => bits_cons_high l ls i)
  rw [show 256 * (k + 1) = 256 + 256 * k by omega, ones_add, Line.inc_eq, hlow, hhigh]

theorem fillRlev_length (ls : List Line) (r : Nat) : (fillRlev ls r).1.length = ls.length := by
  induction ls generalizing r with
  | nil => rfl
  | cons l ls ih => exact congrArg (· + 1) (ih _)

/-- The total returned is the number of ones of all lines. -/
theorem fillRlev_total (ls : List Line) (r : Nat) :
    (fillRlev ls r).2 = r + ones (bits ls) (256 * ls.length) := by
  induction ls generalizing r with
  | nil => rfl
  | cons l ls ih =>
    show (fillRlev ls (r + l.inc 4)).2 = _
    rw [ih, length_cons, ones_bits_cons]
    omega

/-- The ranks that are filled in. -/
theorem fillRlev_get (ls : List Line) (r k : Nat) :
    (fillRlev ls r).1[k]? = (ls[k]?).map (fun l =>
      { l with rlev1 := (r + ones (bits ls) (256 * k)) % 2 ^ 32,
               rlev2 := fun j => l.inc j % 2 ^ 8 }) := by
  induction ls generalizing r k with
  | nil => rfl
  | cons l ls ih =>
    cases k with
    | zero => rfl
    | succ k =>
      show (fillRlev ls (r + l.inc 4)).1[k]? = (ls[k]?).map _
      rw [ih, ones_bits_cons, add_assoc]

/-- The counts of a line inside a longer vector. -/
theorem lineCounts_inc {ls : List Line} (hl : ls[k]? = some l) :
    LineCounts (lineWords ls) (4 * k) (fun j => l.inc j % 2 ^ 8) := by
  intro j
  have hle : l.inc j ≤ 64 * j := by
    rw [Line.inc_eq]
    exact ones_le _ _
  show _ + l.inc j % 2 ^ 8 = _
  rw [mod_eq_of_lt (by omega), Line.inc_eq, mul_add, ones_add]
  congr 1
  refine ones_congr (fun i hi => ?_)
  have h := bits_at hl (show i < 256 by omega)
  rw [show 64 * (4 * k) + i = 256 * k + i by omega]
  exact h.symm

/-- The lines carry the counts of the bits `W` holds, the sentinel the total. -/
structure Indexed (W : Nat → BitVec 64) (nl : Nat) (body : List Line) : Prop where
  length : body.length = nl + 1
  line : ∀ k, k < nl → ∃ l, body[k]? = some l ∧ l.rlev1 = lineCount (wordBits W) 256 k ∧
    LineCounts W (4 * k) l.rlev2 ∧ ∀ j : Fin 4, l.bit64 j = W (4 * k + j)
  last : ∃ l, body[nl]? = some l ∧ l.rlev1 = lineCount (wordBits W) 256 nl ∧ ∀ j, l.rlev2 j = 0

/-- The count that stands in a line or in the sentinel. -/
theorem Indexed.get (h : Indexed W nl body) (hk : k ≤ nl) :
    ∃ l, body[k]? = some l ∧ l.rlev1 = lineCount (wordBits W) 256 k := by
  rcases lt_or_eq_of_le hk with hlt | rfl
  · obtain ⟨l, hl, hr, _⟩ := h.line k hlt
    exact ⟨l, hl, hr⟩
  · obtain ⟨l, hl, hr, _⟩ := h.last
    exact ⟨l, hl, hr⟩

/-- The memory from word address `p` on is a hint table. -/
def HintsAt (p : Nat) (e : Nat → Nat) (slots last : Nat) : Prop :=
  ∀ i, i ≤ slots → mem.u32 (p + i) = some (if i < slots then e i else last)

/-- **THE INVARIANT OF A BUILT INDEX** over the first `n` bits that `W` holds (the
    bits behind are zero): counts in the lines, totals, and hint tables where the
    cache pointers point. -/
structure CacheOk (W : Nat → BitVec 64) (n Q0 : Nat) (c : Cache) : Prop where
  size : c.size = n
  fits : n ≤ 256 * c.nlines
  small : c.nlines ≤ 2 ^ 24
  indexed : Indexed W c.nlines c.mem.body
  max1 : c.maxRank1 = ones (wordBits W) n
  max0 : c.maxRank0 = ones (negBits (wordBits W)) n
  sel0 : ∀ p, c.fastSelect0 = some p → HintsAt c.mem p
    (slotLine (negBits (wordBits W)) 256 c.nlines (quantum Q0)) (slotCount Q0 c.maxRank0) c.nlines
  sel1 : ∀ p, c.fastSelect1 = some p → HintsAt c.mem p
    (slotLine (wordBits W) 256 c.nlines 256) (slotCount 1 c.maxRank1) c.nlines

/-- The first level is the rank at the begin of a line. -/
theorem Indexed.rlev1 {mem : Image} (h : Indexed W nl mem.body) :
    ∀ k, k ≤ nl → mem.rlev1 k = some (lineCount (wordBits W) 256 k) := by
  intro k hk
  obtain ⟨l, hl, hr⟩ := h.get hk
  show (match mem.body[k]? with | some l => some l.rlev1 | none => _) = _
  rw [hl, ← hr]

/-! ## Rank and select on a built index -/

section Ask

variable {W : Nat → BitVec 64} {nl R lo hi : Nat} {mem : Image}

variable (h : Indexed W nl mem.body)

include h

/-- `rank1` counts the ones before a position inside the lines or at their end. -/
theorem fastRank1_eq (hi : i ≤ 256 * nl) : fastRank1 mem i = some (ones (wordBits W) i) := by
  show (mem.body[i / 256]?).map _ = _
  by_cases hlt : i / 256 < nl
  · obtain ⟨l, hl, hr, hc, hb⟩ := h.line (i / 256) hlt
    rw [hl, map_some, hr, hb, fastPopcountTrail_eq _ (by omega)]
    have hword := hc ⟨i % 256 / 64, by omega⟩
    have hsplit : i = 64 * (4 * (i / 256) + i % 256 / 64) + i % 64 := by omega
    have hones := ones_wordBits_add (W := W) (j := 4 * (i / 256) + i % 256 / 64) (b := i % 64)
      (by omega)
    rw [← hsplit, ← hword, show 64 * (4 * (i / 256)) = 256 * (i / 256) by omega] at hones
    rw [hones]
    rfl
  · -- at the end of the last line only the sentinel's total counts
    obtain ⟨l, hl, hr, hz⟩ := h.last
    obtain rfl : i = 256 * nl := by omega
    have h64 : 256 * nl % 64 = 0 := by omega
    rw [Nat.mul_div_cancel_left nl (by decide), hl, map_some, hr, hz, h64,
      fastPopcountTrail_eq _ (by decide)]
    rfl

/-- A line with the ones and the zeros counted before it. -/
theorem Indexed.hits (hk : k < nl) : ∃ l, mem.body[k]? = some l ∧
    l.rlev1 = ones (wordBits W) (64 * (4 * k)) ∧
    wsub (256 * k) l.rlev1 = ones (negBits (wordBits W)) (64 * (4 * k)) ∧
    LineCounts W (4 * k) l.rlev2 ∧ ∀ j : Fin 4, l.bit64 j = W (4 * k + j) := by
  obtain ⟨l, hl, hr, hc, hb⟩ := h.line k hk
  rw [show 64 * (4 * k) = 256 * k by omega]
  exact ⟨l, hl, hr, by rw [hr, wsub_lineCount]; rfl, hc, hb⟩

/-- The line that `lineBound` names holds the one asked for. -/
theorem selectAt1_eq (hR : R < lineCount (wordBits W) 256 nl) :
    ∃ p, selectAt1 mem R (lineBound (wordBits W) 256 nl R) = some p ∧
      IsSelect (wordBits W) R p := by
  obtain ⟨k, ht, hk, hlo, hhi⟩ := lineBound_spec hR
  obtain ⟨l, hl, h1, _, hc, hb⟩ := h.hits hk
  rw [show 256 * k = 64 * (4 * k) by omega] at hlo
  rw [show 256 * (k + 1) = 64 * (4 * k + 4) by omega] at hhi
  obtain ⟨b, hsel, his⟩ := selectLine1_select h1 hc hb (h1 ▸ hlo) hhi
  refine ⟨k * 256 + b, ?_, ?_⟩
  · rw [ht, selectAt1, if_neg k.succ_ne_zero, Nat.add_sub_cancel, hl, bind_some, hsel, map_some]
  · rwa [show k * 256 + b = 64 * (4 * k) + b by omega]

/-- In the right line the zero is found. -/
theorem selectAt0_eq (hR : R < lineCount (negBits (wordBits W)) 256 nl) :
    ∃ p, selectAt0 mem R (lineBound (negBits (wordBits W)) 256 nl R) = some p ∧
      IsSelect (negBits (wordBits W)) R p := by
  obtain ⟨k, ht, hk, hlo, hhi⟩ := lineBound_spec hR
  obtain ⟨l, hl, _, h1, hc, hb⟩ := h.hits hk
  rw [show 256 * k = 64 * (4 * k) by omega] at hlo
  rw [show 256 * (k + 1) = 64 * (4 * k + 4) by omega] at hhi
  obtain ⟨b, hsel, his⟩ := selectLine0_select h1 hc hb (h1 ▸ hlo) hhi
  refine ⟨k * 256 + b, ?_, ?_⟩
  · rw [ht, selectAt0, if_neg k.succ_ne_zero, Nat.add_sub_cancel, hl, bind_some, hsel, map_some]
  · rwa [show k * 256 + b = 64 * (4 * k) + b by omega]

/-- Searching a range that encloses the line finds the one. -/
theorem search1_eq (hR : R < lineCount (wordBits W) 256 nl)
    (hlo : lo ≤ lineBound (wordBits W) 256 nl R) (hhi : lineBound (wordBits W) 256 nl R ≤ hi)
    (hend : hi ≤ nl + 1) :
    ∃ p, (upperBoundLine1 mem R lo hi).bind (selectAt1 mem R) = some p ∧
      IsSelect (wordBits W) R p := by
  obtain ⟨p, hp, hsel⟩ := selectAt1_eq h hR
  refine ⟨p, ?_, hsel⟩
  rw [upperBoundLine1, upperBound_ones h.rlev1 (hlo.trans hhi) hend,
    min_eq_left hhi, max_eq_right hlo]
  exact hp

/-- The search for the line of a zero. -/
theorem search0_eq (hR : R < lineCount (negBits (wordBits W)) 256 nl)
    (hlo : lo ≤ lineBound (negBits (wordBits W)) 256 nl R)
    (hhi : lineBound (negBits (wordBits W)) 256 nl R ≤ hi) (hend : hi ≤ nl + 1) :
    ∃ p, (upperBoundLine0 mem R lo hi).bind (selectAt0 mem R) = some p ∧
      IsSelect (negBits (wordBits W)) R p := by
  obtain ⟨p, hp, hsel⟩ := selectAt0_eq h hR
  refine ⟨p, ?_, hsel⟩
  rw [upperBoundLine0, upperBound_zeros h.rlev1 (hlo.trans hhi) hend,
    min_eq_left hhi, max_eq_right hlo]
  exact hp

end Ask

section Cached

variable {W : Nat → BitVec 64} {n Q0 R Q : Nat} {c : Cache}

theorem CacheOk.lt_lineCount1 (h : CacheOk W n Q0 c) (hR : R < c.maxRank1) :
    R < lineCount (wordBits W) 256 c.nlines := by
  rw [h.max1] at hR
  exact hR.trans_le (ones_mono _ h.fits)

theorem CacheOk.lt_lineCount0 (h : CacheOk W n Q0 c) (hR : R < c.maxRank0) :
    R < lineCount (negBits (wordBits W)) 256 c.nlines := by
  rw [h.max0] at hR
  exact hR.trans_le (ones_mono _ h.fits)

/-- A rank below the total falls into one of the slots. -/
theorem div_lt_slotCount {maxRank : Nat} (hQ : Q = 1 ∨ Q = 4) (hmax : maxRank ≤ 2 ^ 32)
    (hR : R < maxRank) : R / (256 / Q) < slotCount Q maxRank := by
  rcases hQ with rfl | rfl
  · show R / 256 < (maxRank + 255) % 2 ^ 64 / 256
    omega
  · show R / 64 < (maxRank + 255) % 2 ^ 64 / 64
    omega

/-- Ranks fit 32 bits. -/
theorem CacheOk.max_le (h : CacheOk W n Q0 c) :
    c.maxRank0 ≤ 2 ^ 32 ∧ c.maxRank1 ≤ 2 ^ 32 := by
  have h1 := h.fits
  have h2 := h.small
  have h3 := ones_le (wordBits W) n
  have h4 := ones_le (negBits (wordBits W)) n
  rw [h.max0, h.max1]
  omega

/-- The two slots read for `R` enclose its line and do not point behind the sentinel. -/
private theorem hints_enclose {mem : Image} {F : Nat → Bool} {nl q slots : Nat}
    (h : HintsAt mem p (slotLine F 256 nl q) slots nl) (hq : 0 < q) (hslot : R / q < slots)
    (hline : R < lineCount F 256 nl) :
    ∃ lo hi, mem.u32 (p + R / q) = some lo ∧ mem.u32 (p + (R / q + 1)) = some hi ∧
      lo ≤ lineBound F 256 nl R ∧ lineBound F 256 nl R ≤ hi ∧ hi ≤ nl + 1 := by
  obtain ⟨h1, h2⟩ := slots_enclose slots hq hline
  refine ⟨_, _, h _ hslot.le, h _ hslot, (if_pos hslot).trans_le h1, h2, ?_⟩
  split
  · exact slotLine_le _ _ _ _ _
  · exact le_succ nl

/-- **SELECT1 THROUGH THE CACHE** finds the one. -/
theorem CacheOk.fastSelect1_eq (h : CacheOk W n Q0 c) (hp : c.fastSelect1 = some p)
    (hR : R < c.maxRank1) :
    ∃ pos, fastSelect1Q 1 c.mem p R = some pos ∧ IsSelect (wordBits W) R pos := by
  have hline := h.lt_lineCount1 hR
  obtain ⟨lo, hi, e1, e2, h1, h2, h3⟩ := hints_enclose (h.sel1 p hp) (by decide)
    (div_lt_slotCount (.inl rfl) h.max_le.2 hR) hline
  rw [fastSelect1Q, e1, bind_some, e2, bind_some]
  exact search1_eq h.indexed hline h1 h2 h3

/-- **SELECT0 THROUGH THE CACHE** finds the zero, for either quantum. -/
theorem CacheOk.fastSelect0_eq (h : CacheOk W n Q0 c) (hQ : Q0 = 1 ∨ Q0 = 4)
    (hp : c.fastSelect0 = some p) (hR : R < c.maxRank0) :
    ∃ pos, fastSelect0Q Q0 c.mem p R = some pos ∧ IsSelect (negBits (wordBits W)) R pos := by
  have hq : quantum Q0 = 256 / Q0 ∧ 0 < 256 / Q0 := by
    rcases hQ with rfl | rfl
    · decide
    · decide
  have hline := h.lt_lineCount0 hR
  obtain ⟨lo, hi, e1, e2, h1, h2, h3⟩ := hints_enclose (hq.1 ▸ h.sel0 p hp) hq.2
    (div_lt_slotCount hQ h.max_le.1 hR) hline
  rw [fastSelect0Q, e1, bind_some, e2, bind_some]
  exact search0_eq h.indexed hline h1 h2 h3

/-- `select1` finds the one. -/
theorem CacheOk.select1_eq (h : CacheOk W n Q0 c) (hR : R < c.maxRank1) :
    ∃ pos, select1 c R = some pos ∧ IsSelect (wordBits W) R pos := by
  unfold select1 select1Q
  cases hp : c.fastSelect1 with
  | some p => exact h.fastSelect1_eq hp hR
  | none =>
    have hline := h.lt_lineCount1 hR
    exact search1_eq h.indexed hline (zero_le _) (lineBound_le hline) (le_succ _)

/-- `select0` finds the zero, with the cache or without. -/
theorem CacheOk.select0_eq (h : CacheOk W n Q0 c) (hQ : Q = 1 ∨ Q = 4)
    (hQ0 : Q0 = 0 ∧ c.fastSelect0 = none ∨ Q0 = Q) (hR : R < c.maxRank0) :
    ∃ pos, select0Q Q c R = some pos ∧ IsSelect (negBits (wordBits W)) R pos := by
  unfold select0Q
  cases hp : c.fastSelect0 with
  | some p =>
    obtain ⟨_, hnone⟩ | rfl := hQ0
    · rw [hp] at hnone
      exact nomatch hnone
    · exact h.fastSelect0_eq hQ hp hR
  | none =>
    have hline := h.lt_lineCount0 hR
    exact search0_eq h.indexed hline (zero_le _) (lineBound_le hline) (le_succ _)

end Cached

/-! ## `build_cache_q` establishes the invariant -/

section Build

variable {cl : List Line} {n : Nat}

/-- The total is the number of ones below the size, when nothing stands behind. -/
theorem ones_lines_eq (hfit : n ≤ 256 * cl.length)
    (hclean : ∀ p, n ≤ p → bits cl p = false) :
    ones (bits cl) (256 * cl.length) = ones (bits cl) n :=
  ones_eq_of_zeros hfit (fun p hp _ => hclean p hp)

/-- No line counts more bits than there are. -/
theorem lineCount_le_size (hclean : ∀ p, n ≤ p → bits cl p = false) (k : Nat) :
    lineCount (bits cl) 256 k ≤ n := by
  show ones (bits cl) (256 * k) ≤ n
  by_cases hk : n ≤ 256 * k
  · rw [ones_eq_of_zeros hk (fun p hp _ => hclean p hp)]
    exact ones_le _ _
  · have := ones_le (bits cl) (256 * k)
    omega

/-- The lines as written, with a sentinel behind them. -/
theorem indexed_fillRlev (hn : n ≤ maxSize) (hclean : ∀ p, n ≤ p → bits cl p = false)
    (hl : l.rlev1 = (fillRlev cl 0).2 % 2 ^ 32) (hz : ∀ j, l.rlev2 j = 0) :
    Indexed (lineWords cl) cl.length ((fillRlev cl 0).1 ++ [l]) := by
  have hmod : ∀ k, lineCount (bits cl) 256 k % 2 ^ 32 = lineCount (bits cl) 256 k := by
    intro k
    have := lineCount_le_size hclean k
    have : maxSize < 2 ^ 32 := by decide
    exact mod_eq_of_lt (by omega)
  have hlen := fillRlev_length cl 0
  refine ⟨by rw [length_append, hlen]; rfl, fun k hlt => ?_, ?_⟩
  · -- a line of the vector
    obtain ⟨l, hl⟩ : ∃ l, cl[k]? = some l := ⟨_, getElem?_eq_getElem hlt⟩
    refine ⟨_, by rw [getElem?_append_left (by omega), fillRlev_get, hl, map_some],
      ?_, lineCounts_inc hl, fun j => ?_⟩
    · rw [zero_add]
      exact hmod k
    · rw [lineWords_at hl j.isLt, Line.word, dif_pos j.isLt]
  · -- the sentinel
    refine ⟨l, by rw [getElem?_append_right (by omega), hlen, Nat.sub_self]; rfl, ?_, hz⟩
    rw [hl, fillRlev_total, zero_add]
    exact hmod cl.length

/-- A hint table inside the tail is found at its address. -/
theorem hintsAt_tail {junk : Nat → Nat} {a b : List Nat} {e : Nat → Nat} {slots last flags m : Nat}
    (hm : body.length = m) (hp : p = 10 * m + a.length) :
    HintsAt ⟨body, tailWords junk (a ++ ((range slots).map e ++ [last] ++ b)) flags⟩
      p e slots last := by
  intro i hi
  subst hm hp
  have hlen : ((range slots).map e ++ [last]).length = slots + 1 := by simp
  rw [Image.u32, if_neg (by show ¬ _ < 10 * body.length; omega)]
  rw [show 10 * body.length + a.length + i - 10 * body.length = a.length + i by omega,
    tailWords, append_assoc, getElem?_append_left (by simp; omega),
    getElem?_append_right (by omega), Nat.add_sub_cancel_left,
    getElem?_append_left (by omega)]
  exact hints_slot e slots last hi

variable {body : List Line} {nl : Nat} {W : Nat → BitVec 64}

/-- While the caches are written the lines already carry their counts. -/
theorem rlev1While_eq (h : Indexed W nl body) (junk : Nat → Nat) (written : List Nat)
    (hk : k ≤ nl) : rlev1While junk body written k = lineCount (wordBits W) 256 k := by
  obtain ⟨l, hl, hr⟩ := h.get hk
  rw [rlev1While, hl, ← hr]

/-- The line number behind the sentinel reads the first slot. -/
theorem rlev1While_behind (h : Indexed W nl body) (junk : Nat → Nat) (written : List Nat) :
    rlev1While junk body written (nl + 1) = (written[0]?).getD (junk 0) := by
  rw [rlev1While, getElem?_eq_none (by rw [h.length]), h.length, Nat.sub_self]

variable {Q0 : Nat}

/-- The select0 loop tabulates the levels of the zeros.  With four slots a line
    the last levels may lie behind the sentinel; there the loop reads slot `0`,
    which holds `0`, and stops. -/
theorem buildSel0_eq (h : Indexed W nl body) (junk : Nat → Nat) {max0 : Nat} (hQ : Q0 = 1 ∨ Q0 = 4)
    (hmax : max0 ≤ 256 * nl) (hnl : nl ≤ 2 ^ 24) :
    buildSel0 junk body nl Q0 max0 = some ((range (slotCount Q0 max0)).map
      (slotLine (negBits (wordBits W)) 256 nl (quantum Q0)) ++ [nl]) := by
  have hq : 256 / Q0 = quantum Q0 ∧ Q0 ≠ 0 ∧ quantum Q0 ≤ 256 := by
    rcases hQ with rfl | rfl
    · decide
    · decide
  rw [buildSel0, if_neg hq.2.1, hq.1]
  refine hints_eq (slotLine_zero _ _ _ _) (slotLine_mono _ _ _ _)
    (fun j _ => lt_succ_of_le (slotLine_le _ _ _ _ j)) (fun j hj hjs k _ hk => ?_)
  congr 1
  by_cases hkn : k ≤ nl
  · rw [rlev1While_eq h junk _ hkn, mul_comm k 256, wsub_lineCount]
    exact decide_eq_decide.mpr (lt_slotLine_iff hkn).symm
  -- behind the sentinel
  have hle := slotLine_le (negBits (wordBits W)) 256 nl (quantum Q0) j
  obtain rfl : k = nl + 1 := by omega
  have hlevel : quantum Q0 * j ≤ max0 + 255 := by
    have h1 : quantum Q0 * j ≤ quantum Q0 * slotCount Q0 max0 :=
      mul_le_mul_left _ hjs.le
    have h2 : quantum Q0 * slotCount Q0 max0 ≤ (max0 + 255) % 2 ^ 64 := mul_div_le _ _
    have h3 := mod_le (max0 + 255) (2 ^ 64)
    omega
  have hzero : (((range j).map
      (slotLine (negBits (wordBits W)) 256 nl (quantum Q0)))[0]?).getD (junk 0) = 0 := by
    obtain ⟨i, rfl⟩ : ∃ i, j = i + 1 := ⟨j - 1, by omega⟩
    rw [range_succ_eq_map, map_cons, slotLine_zero]
    rfl
  rw [rlev1While_behind h, hzero, wsub_eq (zero_le _),
    decide_eq_false (by omega), decide_eq_false (by omega)]

/-- The select1 loop tabulates the levels of the ones, all of them reached. -/
theorem buildSel1_eq (h : Indexed W nl body) (junk : Nat → Nat) (sel0 : List Nat) {max1 : Nat}
    (hmax : max1 ≤ lineCount (wordBits W) 256 nl) :
    buildSel1 junk body sel0 nl 1 max1 = some ((range (slotCount 1 max1)).map
      (slotLine (wordBits W) 256 nl 256) ++ [nl]) := by
  refine hints_eq (slotLine_zero _ _ _ _) (slotLine_mono _ _ _ _)
    (fun j _ => lt_succ_of_le (slotLine_le _ _ _ _ j)) (fun j hj hjs k _ hk => ?_)
  have hlevel : 256 * j ≤ max1 := by
    have h1 : j + 1 ≤ (max1 + 255) % 2 ^ 64 / 256 := hjs
    omega
  have hkn : k ≤ nl := by
    by_contra hnk
    have : lineCount (wordBits W) 256 nl < 256 * j :=
      (lt_slotLine_iff le_rfl).mp (by omega)
    omega
  rw [rlev1While_eq h junk _ hkn]
  exact congrArg some (decide_eq_decide.mpr (lt_slotLine_iff hkn).symm)

/-- The object written with its caches satisfies the invariant. -/
theorem cacheOk_finish (hQ0 : Q0 = 0 ∨ Q0 = 1 ∨ Q0 = 4) (hQ1 : Q1 = 0 ∨ Q1 = 1) (hn : n ≤ maxSize)
    (hfit : n ≤ 256 * cl.length) (hlen : cl.length ≤ 2 ^ 24)
    (hclean : ∀ p, n ≤ p → bits cl p = false) :
    ∃ sel0 sel1,
      buildSel0 junk ((fillRlev cl 0).1 ++ [sentinel (fillRlev cl 0).2]) cl.length Q0
        (wsub n (fillRlev cl 0).2) = some sel0 ∧
      buildSel1 junk ((fillRlev cl 0).1 ++ [sentinel (fillRlev cl 0).2]) sel0 cl.length Q1
        (fillRlev cl 0).2 = some sel1 ∧
      CacheOk (lineWords cl) n Q0 (finishCache junk n cl.length (fillRlev cl 0).2 Q0 Q1
        ((fillRlev cl 0).1 ++ [sentinel (fillRlev cl 0).2]) sel0 sel1) := by
  have hidx := indexed_fillRlev hn hclean (l := sentinel (fillRlev cl 0).2) rfl (fun _ => rfl)
  have hrank : (fillRlev cl 0).2 = ones (bits cl) n := by
    rw [fillRlev_total, zero_add, ones_lines_eq hfit hclean]
  have hrank' : (fillRlev cl 0).2 ≤ lineCount (wordBits (lineWords cl)) 256 cl.length := by
    rw [hrank]
    exact ones_mono _ hfit
  have hzero : wsub n (fillRlev cl 0).2 = ones (negBits (bits cl)) n := by rw [hrank, wsub_ones]
  have hmax0 : wsub n (fillRlev cl 0).2 ≤ 256 * cl.length := by
    have h := ones_le (negBits (bits cl)) n
    omega
  generalize hbody : (fillRlev cl 0).1 ++ [sentinel (fillRlev cl 0).2] = body at hidx ⊢
  generalize (fillRlev cl 0).2 = rank at hrank hrank' hzero hmax0 ⊢
  -- the two caches, each empty or a table of levels
  obtain ⟨sel0, h0, h0'⟩ : ∃ sel0, buildSel0 junk body cl.length Q0 (wsub n rank) = some sel0 ∧
      (Q0 ≠ 0 → sel0 = (range (slotCount Q0 (wsub n rank))).map
        (slotLine (negBits (wordBits (lineWords cl))) 256 cl.length (quantum Q0))
          ++ [cl.length]) := by
    rcases hQ0 with rfl | hQ
    · exact ⟨[], rfl, fun h => absurd rfl h⟩
    · exact ⟨_, buildSel0_eq hidx junk hQ hmax0 hlen, fun _ => rfl⟩
  obtain ⟨sel1, h1, h1'⟩ : ∃ sel1, buildSel1 junk body sel0 cl.length Q1 rank = some sel1 ∧
      (Q1 ≠ 0 → sel1 = (range (slotCount 1 rank)).map
        (slotLine (wordBits (lineWords cl)) 256 cl.length 256) ++ [cl.length]) := by
    rcases hQ1 with rfl | rfl
    · exact ⟨[], rfl, fun h => absurd rfl h⟩
    · exact ⟨_, buildSel1_eq hidx junk sel0 hrank', fun _ => rfl⟩
  refine ⟨sel0, sel1, h0, h1, rfl, hfit, hlen, hidx, hrank, hzero, fun p hp => ?_, fun p hp => ?_⟩
  · -- the select0 cache starts right behind the sentinel
    obtain ⟨hQ, hp⟩ := ite_none_left_eq_some.mp hp
    rw [h0' hQ]
    exact hintsAt_tail (a := []) hidx.length (some.inj hp).symm
  -- the select1 cache stands behind the select0 cache
  obtain ⟨hQ, hp⟩ := ite_none_left_eq_some.mp hp
  rw [← append_nil sel1, h1' hQ]
  exact hintsAt_tail hidx.length (some.inj hp).symm

theorem toNat_quantum (speed : Bool) : speed.toNat = 0 ∨ speed.toNat = 1 := by
  cases speed with
  | false => exact .inl rfl
  | true => exact .inr rfl

private theorem isSome_ite (Q x : Nat) :
    (if Q = 0 then none else some x : Option Nat).isSome = (Q != 0) := by
  by_cases h : Q = 0
  · rw [h]
    rfl
  · simp [h]

/-- **`build_cache_q` ESTABLISHES THE INVARIANT** whenever the size fits the lines
    and, after the last line is cleared, no ones stand behind the size. -/
theorem buildCacheQ_ok (hQ0 : Q0 = 0 ∨ Q0 = 1 ∨ Q0 = 4) (hQ1 : Q1 = 0 ∨ Q1 = 1)
    (hn : s.size ≤ maxSize) (hcl : clearBack s = some cl) (hfit : s.size ≤ 256 * cl.length)
    (hlen : cl.length ≤ 2 ^ 24) (hclean : ∀ p, s.size ≤ p → bits cl p = false) :
    ∃ c, buildCacheQ junk s Q0 Q1 = some c ∧ CacheOk (lineWords cl) s.size Q0 c ∧
      c.nlines = cl.length ∧ c.fastSelect0.isSome = (Q0 != 0) ∧
      c.fastSelect1.isSome = (Q1 != 0) := by
  obtain ⟨sel0, sel1, h0, h1, hok⟩ := cacheOk_finish junk hQ0 hQ1 hn hfit hlen hclean
  refine ⟨_, ?_, hok, rfl, isSome_ite Q0 _, isSome_ite Q1 _⟩
  rw [buildCacheQ, if_neg (by omega), hcl, bind_some]
  show (buildSel0 junk _ (fillRlev cl 0).1.length Q0 _).bind _ = _
  rw [fillRlev_length, h0, bind_some, h1]
  rfl

end Build

/-! ## Clearing the last line -/

/-- Clearing behind the last bit changes the last line at most. -/
theorem clearBack_cases (h : clearBack s = some cl) : (s.size % 256 = 0 ∧ cl = s.lines) ∨
    s.size % 256 ≠ 0 ∧ ∃ init l, s.lines = init ++ [l] ∧
      cl = init ++ [l.clearFrom (s.size % 256)] := by
  unfold clearBack at h
  by_cases h0 : s.size % 256 = 0
  · rw [if_pos h0] at h
    exact .inl ⟨h0, (some.inj h).symm⟩
  rw [if_neg h0] at h
  cases hl : s.lines.getLast? with
  | none => rw [hl] at h; exact nomatch h
  | some l =>
    rw [hl] at h
    exact .inr ⟨h0, _, l, (dropLast_append_getLast? l hl).symm, (some.inj h).symm⟩

theorem clearBack_length (h : clearBack s = some cl) : cl.length = s.lines.length := by
  rcases clearBack_cases h with ⟨-, rfl⟩ | ⟨-, init, l, hl, rfl⟩
  · rfl
  · rw [hl, length_append, length_append]
    rfl

/-- Clearing is possible when the size fits the lines. -/
theorem clearBack_isSome (hfit : s.size ≤ 256 * s.lines.length) : ∃ cl, clearBack s = some cl := by
  unfold clearBack
  by_cases h0 : s.size % 256 = 0
  · exact ⟨_, if_pos h0⟩
  · have hne : s.lines ≠ [] := by
      intro hnil
      rw [hnil, length_nil] at hfit
      omega
    rw [if_neg h0, getLast?_eq_some_getLast hne]
    exact ⟨_, rfl⟩

/-- The bits that clearing takes away: those of the last line from `m_size % 256`
    on. -/
theorem bits_clearBack (h : clearBack s = some cl) (p : Nat) :
    bits cl p = if s.size % 256 ≠ 0 ∧ 256 * (s.lines.length - 1) + s.size % 256 ≤ p then false
      else bits s.lines p := by
  by_cases hout : 256 * s.lines.length ≤ p
  · rw [bits_out (by rw [clearBack_length h]; exact hout), bits_out hout]
    simp
  rcases clearBack_cases h with ⟨h0, rfl⟩ | ⟨h0, init, l, hl, rfl⟩
  · rw [if_neg (fun hh => hh.1 h0)]
  have hlen : s.lines.length = init.length + 1 := by rw [hl, length_append]; rfl
  by_cases hp : p / 256 < init.length
  · -- a line before the last one
    rw [if_neg (by omega), hl]
    exact bits_congr (by rw [getElem?_append_left hp, getElem?_append_left hp])
  · -- the last line
    obtain hp' : p / 256 = init.length := by omega
    have hword : (l.clearFrom (s.size % 256)).test (p % 256)
        = wordBits (bitsRangeSet0 l.word (s.size % 256) 256) (p % 256) := by
      show (Line.word _ (p % 256 / 64)).getLsbD _ = _
      rw [Line.word, dif_pos (by omega)]
      rfl
    rw [hlen, hl, bits_of_line (by rw [hp', getElem?_concat_length]), hword,
      bits_of_line (by rw [hp', getElem?_concat_length]), wordBits_bitsRangeSet0 _ (by omega)]
    by_cases hc : s.size % 256 ≤ p % 256
    · rw [if_pos ⟨hc, mod_lt _ (by decide)⟩, if_pos ⟨h0, by omega⟩]
    · rw [if_neg (fun hh => hc hh.1), if_neg (by omega)]
      rfl

/-- Clearing touches no bit below the size. -/
theorem bits_clearBack_low (h : clearBack s = some cl) (hfit : s.size ≤ 256 * s.lines.length)
    (hi : i < s.size) : bits cl i = bits s.lines i := by
  rw [bits_clearBack h, if_neg (by omega)]

/-! ## Stored sequences -/

/-- The object stores the sequence, in as many lines as it needs; what its last
    line holds behind the size is left open. -/
structure Il.Stores (s : Il) (B : List Bool) : Prop where
  size : s.size = B.length
  lines : s.lines.length = bitsToLines s.size
  bits : ∀ i, i < B.length → bits s.lines i = ofList B i

/-- **THE INDEX OF A STORED SEQUENCE** is built, over bits that read like it. -/
theorem buildCacheQ_stored {B : List Bool} (hst : s.Stores B) (hn : B.length < 2 ^ 32) {Q0 : Nat}
    (hQ0 : Q0 = 0 ∨ Q0 = 1 ∨ Q0 = 4) (hQ1 : Q1 = 0 ∨ Q1 = 1) (junk : Nat → Nat) :
    ∃ c W, buildCacheQ junk s Q0 Q1 = some c ∧ CacheOk W B.length Q0 c ∧
      (∀ i, wordBits W i = ofList B i) ∧ c.nlines = bitsToLines B.length ∧
      c.fastSelect0.isSome = (Q0 != 0) ∧ c.fastSelect1.isSome = (Q1 != 0) := by
  obtain ⟨hsize, hlines, hbits⟩ := hst
  have hfit : s.size ≤ 256 * s.lines.length := by
    rw [hlines, bitsToLines]
    omega
  obtain ⟨cl, hcl⟩ := clearBack_isSome hfit
  have hlen := clearBack_length hcl
  have hclean : ∀ p, s.size ≤ p → bits cl p = false := by
    intro p hp
    rw [bits_clearBack hcl]
    split
    · rfl
    next h0 =>
      refine bits_out ?_
      rw [hlines, bitsToLines] at h0 ⊢
      omega
  have hsmall : cl.length ≤ 2 ^ 24 := by
    rw [hlen, hlines, bitsToLines]
    omega
  obtain ⟨c, hc, hok, hnl, hs0, hs1⟩ := buildCacheQ_ok junk hQ0 hQ1 (by unfold maxSize; omega) hcl
    (by rw [hlen]; exact hfit) hsmall hclean
  rw [hsize] at hok
  refine ⟨c, lineWords cl, hc, hok, fun i => ?_, ?_, hs0, hs1⟩
  · by_cases hi : i < B.length
    · rw [← hbits i hi]
      exact bits_clearBack_low hcl hfit (by omega)
    · rw [ofList_out (by omega)]
      exact hclean i (by omega)
  · rw [hnl, hlen, hlines, hsize]

end RankSelectIl
