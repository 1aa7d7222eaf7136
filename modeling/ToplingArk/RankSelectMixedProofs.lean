import ToplingArk.RankSelectIlImageProofs

/-! # `rank_select_mixed_il_256` — two sequences in one image

    Every line holds 256 bits of each of two sequences, the DIMENSIONS, each with
    its own counts.  `build_cache_dx<d>` indexes one dimension; the select caches of
    the dimension built first stand right behind the sentinel line, those of the
    other behind them, and the image ends with the two sizes and the flags.

    For each dimension two flag bits say which select caches there are.  The writer
    puts `speed_select1` into the lower bit and `speed_select0` into the upper one;
    the loader takes the lower bit for the select0 cache and the upper one for the
    select1 cache, and so does the writer itself when it computes how many slots
    the other dimension has used. -/

namespace RankSelectMixed

open BitCount Search RankSelectLine RankSelectIl List

/-! ## The object -/

/-- `m_lines[k].mixed[d]` is line `k` of `mixed d` (`NULL` is `none`); the words
    behind the sentinel are `tail`, and cache pointers are offsets into it. -/
structure Mixed where
  mixed : Option (Fin 2 → List Line)
  tail : List Nat
  size : Fin 2 → Nat
  flags : Nat
  sel0Cache : Fin 2 → Option Nat
  sel1Cache : Fin 2 → Option Nat
  maxRank0 : Fin 2 → Nat
  maxRank1 : Fin 2 → Nat

instance dimNeZero : NeZero 2 := ⟨two_ne_zero⟩

/-- The other dimension. -/
def other (d : Fin 2) : Fin 2 := 1 - d

/-- `flag_x_offset` -/
def flagOffset (d : Fin 2) : Nat := if d = 0 then 1 else 4

/-- The number of lines for the larger of the two sizes. -/
def linesFor (size : Fin 2 → Nat) : Nat := (max (size 0) (size 1) + 255) / 256

/-- `(max_rank + LineBits - 1) / LineBits` -/
def slotsFor (maxRank : Nat) : Nat := slotCount 1 maxRank

/-- Memory that `build_cache_dx` gets and does not write: the bits of the sentinel
    and words behind the old end. -/
structure Junk where
  line : Fin 2 → Line
  word : Nat → Nat

/-! ## `build_cache_dx` -/

/-- `bits_range_set0_dx(i, k)` on one dimension. -/
def clearRange (col : List Line) (i k : Nat) : List Line :=
  col.mapIdx (fun m l => { l with bit64 := fun j => bitsRangeSet0 (lineWords col) i k (4 * m + j) })

/-- Lines and flags and the slots in use, before a dimension is indexed: with the
    other dimension indexed the memory stays as it is; otherwise it is shrunk to
    the lines (`realloc` to no bytes at all gives `NULL`, which is verified against)
    and a sentinel is added. -/
def prepare (junk : Junk) (m : Mixed) (mixed : Fin 2 → List Line) (d : Fin 2) :
    Option ((Fin 2 → List Line) × Nat × Nat) :=
  let y := other d
  if m.flags.testBit (flagOffset y) then
    some (mixed, if d = 0 then m.flags ||| 1 else m.flags,
      (if m.flags.testBit (flagOffset y + 1) then slotsFor (m.maxRank0 y) + 1 else 0) +
        (if m.flags.testBit (flagOffset y + 2) then slotsFor (m.maxRank1 y) + 1 else 0))
  else if linesFor m.size = 0 then none
  else some (fun e => (mixed e).take (linesFor m.size) ++ [junk.line e], m.flags, 0)

/-- The lines of the dimension with their counts, and the total. -/
def indexColumn (col : List Line) (nl size : Nat) : List Line × Nat :=
  let filled := fillRlev (clearRange (col.take nl) size (256 * nl)) 0
  (filled.1 ++ (col.drop nl).map (fun l =>
    { l with rlev1 := filled.2 % 2 ^ 32, rlev2 := fun _ => 0 }), filled.2)

/-- The flags after a dimension is indexed. -/
def setFlags (flags : Nat) (d : Fin 2) (speed0 speed1 : Bool) : Nat :=
  flags ||| (1 <<< flagOffset d) ||| (speed1.toNat <<< (flagOffset d + 1)) |||
    (speed0.toNat <<< (flagOffset d + 2))

/-- The select0 cache of the dimension, if wanted.  (`sel0_cache[dimensions] = 0`
    clears slot `0` or `1` of memory that is zero already.) -/
def buildSel0 (speed0 : Bool) (col : List Line) (nl maxRank0 : Nat) : Option (List Nat) :=
  if speed0 then
    buildSel (fun k => (col[k]?).map (fun l => wsub (k * 256) l.rlev1)) 256 (slotsFor maxRank0) nl
  else some []

/-- The select1 cache of the dimension, if wanted. -/
def buildSel1 (speed1 : Bool) (col : List Line) (nl maxRank1 : Nat) : Option (List Nat) :=
  if speed1 then buildSel (fun k => (col[k]?).map Line.rlev1) 256 (slotsFor maxRank1) nl
  else some []

/-- The words behind the sentinel: what was there below `used`, the caches, zeros
    (`memset`) and, at the end of the capacity, the sizes and the flags. -/
def writeTail (junk : Nat → Nat) (old : List Nat) (used : Nat) (sel trailer : List Nat) :
    List Nat :=
  let cap := max old.length (2 * ((used + sel.length + 4 + 1) / 2))
  let grown := old ++ (range (cap - old.length)).map (fun i => junk (old.length + i))
  grown.take used ++ sel ++ replicate (cap - 4 - used - sel.length) 0 ++ trailer

/-- The object once the caches of dimension `d` are written. -/
def finish (junk : Junk) (m : Mixed) (mixed : Fin 2 → List Line) (flags used rank : Nat)
    (d : Fin 2) (speed0 speed1 : Bool) (sel0 sel1 : List Nat) : Mixed where
  mixed := some mixed
  tail := writeTail junk.word m.tail used (sel0 ++ sel1)
    [m.size 0 % 2 ^ 32, m.size 1 % 2 ^ 32, flags % 2 ^ 32, flags / 2 ^ 32]
  size := m.size
  flags := flags
  sel0Cache := Function.update m.sel0Cache d (if speed0 then some used else m.sel0Cache d)
  sel1Cache := Function.update m.sel1Cache d
    (if speed1 then some (used + sel0.length) else m.sel1Cache d)
  maxRank0 := Function.update m.maxRank0 d (wsub (m.size d) rank)
  maxRank1 := Function.update m.maxRank1 d rank

/-- `build_cache_dx<d>(speed_select0, speed_select1)` -/
def buildCacheDx (junk : Junk) (d : Fin 2) (speed0 speed1 : Bool) (m : Mixed) : Option Mixed :=
  if m.size d > maxSize then none
  else match m.mixed with
    | none => some m
    | some mixed =>
      (prepare junk m mixed d).bind (fun pre =>
        let nl := linesFor m.size
        let idx := indexColumn (pre.1 d) nl (m.size d)
        (buildSel0 speed0 idx.1 nl (wsub (m.size d) idx.2)).bind (fun sel0 =>
          (buildSel1 speed1 idx.1 nl idx.2).map (fun sel1 =>
            finish junk m (Function.update pre.1 d idx.1) (setFlags pre.2.1 d speed0 speed1)
              pre.2.2 idx.2 d speed0 speed1 sel0 sel1)))

/-! ## `risk_mmap_from` -/

/-- What one of the two load functions sets. -/
structure Loaded where
  maxRank0 : Nat
  maxRank1 : Nat
  sel0Cache : Option Nat
  sel1Cache : Option Nat
  selectIndex : Nat

/-- `load_d0` and `load_d1` -/
def load (mixed : Fin 2 → List Line) (size : Fin 2 → Nat) (flags : Nat) (d : Fin 2)
    (selectIndex : Nat) : Option Loaded :=
  if flags.testBit (flagOffset d) then
    ((mixed d)[linesFor size]?).map (fun l =>
      let maxRank1 := l.rlev1
      let maxRank0 := wsub (size d) maxRank1
      let next := if flags.testBit (flagOffset d + 1) then selectIndex + (slotsFor maxRank0 + 1)
        else selectIndex
      ⟨maxRank0, maxRank1,
        if flags.testBit (flagOffset d + 1) then some selectIndex else none,
        if flags.testBit (flagOffset d + 2) then some next else none,
        if flags.testBit (flagOffset d + 2) then next + (slotsFor maxRank1 + 1) else next⟩)
  else some ⟨0, 0, none, none, selectIndex⟩

/-- The object after both loads. -/
def attach (mixed : Fin 2 → List Line) (tail : List Nat) (size : Fin 2 → Nat) (flags : Nat)
    (ld : Fin 2 → Loaded) : Mixed where
  mixed := some mixed
  tail := tail
  size := size
  flags := flags
  sel0Cache := fun d => (ld d).sel0Cache
  sel1Cache := fun d => (ld d).sel1Cache
  maxRank0 := fun d => (ld d).maxRank0
  maxRank1 := fun d => (ld d).maxRank1

/-- `risk_mmap_from(base, length)` on the lines and the words behind them. -/
def riskMmapFrom (mixed : Fin 2 → List Line) (tail : List Nat) : Option Mixed :=
  match tail[tail.length - 4]?, tail[tail.length - 3]?, tail[tail.length - 2]?,
      tail[tail.length - 1]? with
  | some size0, some size1, some lo, some hi =>
    let size := ![size0, size1]
    let flags := lo + 2 ^ 32 * hi
    let first : Fin 2 := if flags.testBit 0 then 1 else 0
    (load mixed size flags first 0).bind (fun ldFirst =>
      (load mixed size flags (other first) ldFirst.selectIndex).map (fun ldSecond =>
        attach mixed tail size flags (fun d => if d = first then ldFirst else ldSecond)))
  | _, _, _, _ => none

/-! ## Rank and select -/

variable (m : Mixed) {i j : Nat} {B : List Bool}

/-- The lines of one dimension; a line number behind the sentinel is outside. -/
def view (d : Fin 2) : Option Image := m.mixed.map (fun mixed => ⟨mixed d, []⟩)

/-- `rank1_dx` -/
def rank1 (d : Fin 2) (bitpos : Nat) : Option Nat :=
  (view m d).bind (fun img => fastRank1 img bitpos)

/-- `rank0_dx` -/
def rank0 (d : Fin 2) (bitpos : Nat) : Option Nat := (rank1 m d bitpos).map (wsub bitpos)

/-- The range of lines to search: two slots of the cache, or all lines. -/
def range (sel : Option Nat) (d : Fin 2) (R : Nat) : Option (Nat × Nat) :=
  match sel with
  | some p => (m.tail[p + R / 256]?).bind (fun lo =>
    (m.tail[p + (R / 256 + 1)]?).map (fun hi => (lo, hi)))
  | none => some (0, (m.size d + 256 + 1) / 256)

/-- `select0_dx` -/
def select0 (d : Fin 2) (R : Nat) : Option Nat :=
  (view m d).bind (fun img => (range m (m.sel0Cache d) d R).bind (fun r =>
    (upperBoundLine0 img R r.1 r.2).bind (selectAt0 img R)))

/-- `select1_dx` -/
def select1 (d : Fin 2) (R : Nat) : Option Nat :=
  (view m d).bind (fun img => (range m (m.sel1Cache d) d R).bind (fun r =>
    (upperBoundLine1 img R r.1 r.2).bind (selectAt1 img R)))

/-! ## The lines of one dimension -/

theorem clearRange_length (col : List Line) (i k : Nat) :
    (clearRange col i k).length = col.length := by
  rw [clearRange, length_mapIdx]

/-- The cleared lines hold the cleared words. -/
theorem bits_clearRange (col : List Line) {k : Nat} (hik : i ≤ k) {p : Nat}
    (hp : p < 256 * col.length) :
    bits (clearRange col i k) p = if i ≤ p ∧ p < k then false else bits col p := by
  obtain ⟨l, hl⟩ : ∃ l, col[p / 256]? = some l :=
    ⟨_, getElem?_eq_getElem (by omega)⟩
  have hline : (clearRange col i k)[p / 256]? = some { l with
      bit64 := fun j => bitsRangeSet0 (lineWords col) i k (4 * (p / 256) + j) } := by
    rw [clearRange, getElem?_mapIdx, hl]
    rfl
  have hword : p / 64 = 4 * (p / 256) + p % 256 / 64 := by omega
  refine Eq.trans ?_ (wordBits_bitsRangeSet0 (lineWords col) hik p)
  show (lineWords _ _).getLsbD _ = (bitsRangeSet0 _ _ _ _).getLsbD _
  rw [hword, lineWords_at hline (by omega), Line.word, dif_pos (by omega)]

/-- The ones (or the zeros) of a sequence. -/
def kind (b : Bool) (F : Nat → Bool) : Nat → Bool := if b then F else negBits F

/-- The ones or zeros of a list. -/
theorem ones_kind (b : Bool) (B : List Bool) : ones (kind b (ofList B)) B.length = B.count b := by
  cases b with
  | false => exact ones_negBits_ofList B
  | true => exact ones_ofList B

/-- **ONE DIMENSION INDEXED**: the lines carry the counts of the sequence. -/
theorem indexColumn_ok {ls : List Line} (l : Line) (hlen : ls.length = bitsToLines B.length)
    (hn : B.length < 2 ^ 32) (hbits : ∀ i, i < B.length → bits ls i = ofList B i) :
    ∃ W, wordBits W = ofList B ∧
      Indexed W (bitsToLines B.length)
        (indexColumn (ls ++ [l]) (bitsToLines B.length) B.length).1 ∧
      (indexColumn (ls ++ [l]) (bitsToLines B.length) B.length).2 = B.count true := by
  have hfit : B.length ≤ 256 * bitsToLines B.length := by
    unfold bitsToLines
    omega
  have htake : (ls ++ [l]).take (bitsToLines B.length) = ls := by
    rw [← hlen, take_left]
  have hdrop : (ls ++ [l]).drop (bitsToLines B.length) = [l] := by
    rw [← hlen, drop_left]
  rw [indexColumn, htake, hdrop]
  generalize hcl : clearRange ls B.length (256 * bitsToLines B.length) = cl
  have hcl' : cl.length = bitsToLines B.length := by
    rw [← hcl, clearRange_length, hlen]
  have hread : ∀ i, bits cl i = ofList B i := by
    intro i
    by_cases hin : i < 256 * ls.length
    · rw [← hcl, bits_clearRange ls hfit hin]
      by_cases hi : i < B.length
      · rw [if_neg (by omega), hbits i hi]
      · rw [if_pos (by omega), ofList_out (by omega)]
    · rw [bits_out (by omega), ofList_out (by omega)]
  have hclean : ∀ p, B.length ≤ p → bits cl p = false := by
    intro p hp
    rw [hread p, ofList_out hp]
  refine ⟨lineWords cl, funext hread, ?_, ?_⟩
  · rw [← hcl']
    exact indexed_fillRlev (by unfold maxSize; omega) hclean rfl (fun _ => rfl)
  · rw [fillRlev_total, Nat.zero_add, ones_lines_eq (by omega) hclean, ← ones_ofList]
    exact ones_congr (fun i _ => hread i)

/-! ## The select caches of one dimension -/

/-- Slot `j` of the cache for the ones (or the zeros). -/
def entry (b : Bool) (B : List Bool) (j : Nat) : Nat :=
  if j < slotsFor (B.count b) then
    slotLine (kind b (ofList B)) 256 (bitsToLines B.length) 256 j
  else bitsToLines B.length

/-- The whole cache. -/
def table (b : Bool) (B : List Bool) : List Nat :=
  (List.range (slotsFor (B.count b))).map
    (slotLine (kind b (ofList B)) 256 (bitsToLines B.length) 256) ++ [bitsToLines B.length]

theorem table_length (b : Bool) (B : List Bool) :
    (table b B).length = slotsFor (B.count b) + 1 := by
  rw [table, length_append, length_map, length_range, length_singleton]

/-- The cache holds one entry for every 256 bits. -/
theorem table_get (b : Bool) (B : List Bool) (hj : j ≤ slotsFor (B.count b)) :
    (table b B)[j]? = some (entry b B j) :=
  hints_slot _ _ _ hj

/-- The words both caches take, as far as they are wanted. -/
def cacheWords (speed0 speed1 : Bool) (B : List Bool) : List Nat :=
  (if speed0 then table false B else []) ++ (if speed1 then table true B else [])

theorem slotsFor_level {maxRank : Nat} (hj : j < slotsFor maxRank) : 256 * j ≤ maxRank := by
  have h : j < (maxRank + 255) % 2 ^ 64 / 256 := hj
  omega

/-- The caches are built as the table says. -/
theorem buildSel_eq_table {W : Nat → BitVec 64} {col : List Line} (hW : wordBits W = ofList B)
    (h : Indexed W (bitsToLines B.length) col) (speed0 speed1 : Bool) :
    buildSel0 speed0 col (bitsToLines B.length) (B.count false)
      = some (if speed0 then table false B else []) ∧
    buildSel1 speed1 col (bitsToLines B.length) (B.count true)
      = some (if speed1 then table true B else []) := by
  have hfit : B.length ≤ 256 * bitsToLines B.length := by
    unfold bitsToLines
    omega
  have hmax : ∀ b, B.count b ≤ lineCount (kind b (ofList B)) 256 (bitsToLines B.length) := by
    intro b
    rw [← ones_kind]
    exact ones_mono _ hfit
  have hval : ∀ k, k ≤ bitsToLines B.length →
      (col[k]?).map Line.rlev1 = some (lineCount (kind true (ofList B)) 256 k) := by
    intro k hk
    obtain ⟨l, hl, hr⟩ := h.get hk
    rw [hl, Option.map_some, hr, hW]
    rfl
  constructor
  · cases speed0 with
    | false => rfl
    | true =>
      refine buildSel_eq (fun k hk => ?_) (hmax false) (fun j => slotsFor_level)
      obtain ⟨l, hl, hr⟩ := h.get hk
      rw [hl, Option.map_some, hr, hW, Nat.mul_comm, wsub_lineCount]
      rfl
  · cases speed1 with
    | false => rfl
    | true => exact buildSel_eq hval (hmax true) (fun j => slotsFor_level)

/-! ## The words behind the sentinel -/

section Tail

variable {junk : Nat → Nat} {old : List Nat} {used : Nat} {sel trailer : List Nat}

/-- The capacity behind the sentinel after a write, in words. -/
def capAfter (oldLen used selLen : Nat) : Nat := max oldLen (2 * ((used + selLen + 4 + 1) / 2))

/-- A word lies behind the caches and before the sizes and flags. -/
def padded (oldLen used selLen : Nat) : Prop := used + selLen + 4 < capAfter oldLen used selLen

instance (oldLen used selLen : Nat) : Decidable (padded oldLen used selLen) :=
  inferInstanceAs (Decidable (_ < _))

private theorem front_length (junk : Nat → Nat) (old : List Nat) (used selLen : Nat) :
    ((old ++ (List.range (capAfter old.length used selLen - old.length)).map
      (fun i => junk (old.length + i))).take used).length = used := by
  have hcap : used ≤ capAfter old.length used selLen := by
    unfold capAfter
    omega
  rw [length_take, length_append, length_map, length_range]
  omega

/-- What the tail holds: the old words, the cache and the trailer. -/
theorem writeTail_eq (junk : Nat → Nat) (old : List Nat) (used : Nat) (sel trailer : List Nat) :
    writeTail junk old used sel trailer =
      (old ++ (List.range (capAfter old.length used sel.length - old.length)).map
        (fun i => junk (old.length + i))).take used ++ (sel ++
      (replicate (capAfter old.length used sel.length - 4 - used - sel.length) 0 ++
        trailer)) := by
  rw [writeTail, List.append_assoc, List.append_assoc]
  rfl

theorem writeTail_length (htr : trailer.length = 4) :
    (writeTail junk old used sel trailer).length = capAfter old.length used sel.length := by
  have hcap : used + sel.length + 4 ≤ capAfter old.length used sel.length := by
    unfold capAfter
    omega
  rw [writeTail_eq, length_append, front_length, length_append, length_append,
    length_replicate, htr]
  omega

/-- Below the slots in use the old words stay. -/
theorem writeTail_low (hj : j < used) (hold : j < old.length) :
    (writeTail junk old used sel trailer)[j]? = old[j]? := by
  rw [writeTail_eq, getElem?_append_left (by rw [front_length]; exact hj),
    getElem?_take_of_lt hj, getElem?_append_left hold]

/-- The cache can be read back. -/
theorem writeTail_sel (hj : j < sel.length) :
    (writeTail junk old used sel trailer)[used + j]? = sel[j]? := by
  rw [writeTail_eq, getElem?_append_right (by rw [front_length]; omega), front_length,
    Nat.add_sub_cancel_left, getElem?_append_left hj]

/-- The word behind the caches: padding, or the first word of the trailer. -/
theorem writeTail_next :
    (writeTail junk old used sel trailer)[used + sel.length]?
      = if padded old.length used sel.length then some 0 else trailer[0]? := by
  rw [writeTail_eq, getElem?_append_right (by rw [front_length]; omega), front_length,
    Nat.add_sub_cancel_left, getElem?_append_right le_rfl, Nat.sub_self]
  have hcap : used + sel.length + 4 ≤ capAfter old.length used sel.length := by
    unfold capAfter
    omega
  by_cases hpad : padded old.length used sel.length
  · have hpos : 0 < capAfter old.length used sel.length - 4 - used - sel.length := by
      unfold padded at hpad
      omega
    rw [if_pos hpad, getElem?_append_left (by rw [length_replicate]; exact hpos),
      getElem?_replicate, if_pos hpos]
  · have hzero : capAfter old.length used sel.length - 4 - used - sel.length = 0 := by
      unfold padded at hpad
      omega
    rw [if_neg hpad, hzero]
    rfl

/-- The trailer stands at the end. -/
theorem writeTail_trailer (htr : trailer.length = 4) (hi : i < 4) :
    (writeTail junk old used sel trailer)[(writeTail junk old used sel trailer).length - 4 + i]?
      = trailer[i]? := by
  have hcap : used + sel.length + 4 ≤ capAfter old.length used sel.length := by
    unfold capAfter
    omega
  rw [writeTail_length htr, writeTail_eq,
    getElem?_append_right (by rw [front_length]; omega), front_length,
    getElem?_append_right (by omega),
    getElem?_append_right (by rw [length_replicate]; omega), length_replicate]
  congr 1
  omega

end Tail

end RankSelectMixed
