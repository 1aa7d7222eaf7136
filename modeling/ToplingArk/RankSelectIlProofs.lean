import ToplingArk.RankSelectLineProofs

/-! # `rank_select_il` — bits and index interleaved

    A `rank_select_il` is a vector of lines; a line holds 256 bits together with
    the number of ones before the line (`rlev1`) and, for each of its four words,
    the number of ones before that word inside the line (`rlev2`).  While it
    grows the object is the pair of the line vector and the logical size
    `m_size`; nothing ties the two together, and the bits at or beyond `m_size`
    keep whatever value they had.

    This file models the object, its growing operations and the bit accessors. -/

namespace RankSelectIl

open BitCount Search RankSelectLine List BitVec

/-- `struct Line` -/
structure Line where
  /-- ones before the line (`uint32_t`) -/
  rlev1 : Nat
  /-- ones before each word of the line (`unsigned char`) -/
  rlev2 : Fin 4 → Nat
  /-- the bits -/
  bit64 : Fin 4 → BitVec 64

/-- `Line::Line(bool val)` -/
def Line.make (val : Bool) : Line where
  rlev1 := 0
  rlev2 := fun _ => 0
  bit64 := fun _ => if val then BitVec.allOnes 64 else 0

/-- Word `j` of a line, by a `size_t` index. -/
def Line.word (l : Line) (j : Nat) : BitVec 64 :=
  if h : j < 4 then l.bit64 ⟨j, h⟩ else 0

/-- `terark_bit_test(words, i)` -/
def Line.test (l : Line) (i : Nat) : Bool := (l.word (i / 64)).getLsbD (i % 64)

/-- `terark_bit_set1(words, i)` -/
def Line.set1 (l : Line) (i : Nat) : Line :=
  { l with bit64 := fun j =>
      if (j : Nat) = i / 64 then l.bit64 j ||| (1#64 <<< (i % 64)) else l.bit64 j }

/-- `terark_bit_set0(words, i)` -/
def Line.set0 (l : Line) (i : Nat) : Line :=
  { l with bit64 := fun j =>
      if (j : Nat) = i / 64 then l.bit64 j &&& ~~~ (1#64 <<< (i % 64)) else l.bit64 j }

/-- The growing object: `m_lines` and `m_size`.  (The caches are `NULL` and the
    rank totals `0` as long as no cache is built.) -/
structure Il where
  lines : List Line
  size : Nat

/-- `rank_select_il()` -/
def Il.empty : Il := ⟨[], 0⟩

/-- The largest size `rank_select_check_overflow` lets pass. -/
def maxSize : Nat := 2 ^ 32 - 1

/-- How many lines `nbits` bits take. -/
def bitsToLines (nbits : Nat) : Nat := (nbits + 255) / 256

variable (lines : List Line) {l : Line} {i b : Nat}

/-- The words of all lines in a row. -/
def lineWords (i : Nat) : BitVec 64 :=
  match lines[i / 4]? with
  | some l => l.word (i % 4)
  | none => 0

/-- All bits the lines hold, those behind `m_size` included. -/
def bits : Nat → Bool := wordBits (lineWords lines)

/-! ## The operations -/

/-- `is1`: reading behind `m_size`, or a line that is not there, is undefined. -/
def is1 (s : Il) (i : Nat) : Option Bool :=
  if i < s.size then (s.lines[i / 256]?).map (fun l => l.test (i % 256)) else none

/-- `val ? set1(i) : set0(i)` on the lines -/
def setBit (i : Nat) (val : Bool) : Option (List Line) :=
  match lines[i / 256]? with
  | none => none
  | some l => some (lines.set (i / 256) (if val then l.set1 (i % 256) else l.set0 (i % 256)))

/-- `set(i, val)` -/
def set (s : Il) (i : Nat) (val : Bool) : Option Il :=
  if i < s.size then (setBit s.lines i val).map (fun ls => { s with lines := ls }) else none

/-- `push_back`, with its slow path: a vector that is full gets a new line. -/
def pushBack (s : Il) (val : Bool) : Option Il :=
  if s.size ≥ maxSize then none
  else if s.size < s.lines.length * 256 then
    set { s with size := s.size + 1 } s.size val
  else
    set { lines := s.lines ++ [Line.make false], size := s.size + 1 } s.size val

/-- `pop_back` -/
def popBack (s : Il) : Option Il :=
  if s.size = 0 then none else some { s with size := s.size - 1 }

/-- `valvec::resize(newsize, val)` -/
def resizeLines (newsize : Nat) (val : Line) : List Line :=
  if newsize ≤ lines.length then lines.take newsize
  else lines ++ replicate (newsize - lines.length) val

/-- `resize(newsize, val)` -/
def resize (s : Il) (newsize : Nat) (val : Bool) : Option Il :=
  if newsize > maxSize then none
  else some ⟨resizeLines s.lines (bitsToLines newsize) (Line.make val), newsize⟩

/-- `erase_all`: only the line vector is emptied. -/
def eraseAll (s : Il) : Il := { s with lines := [] }

/-- `clear` -/
def clear (_ : Il) : Il := Il.empty

/-! ## What the lines hold -/

/-- Word `j` of line `k`. -/
theorem lineWords_at {lines : List Line} {k j : Nat} (hl : lines[k]? = some l) (hj : j < 4) :
    lineWords lines (4 * k + j) = l.word j := by
  unfold lineWords
  rw [show (4 * k + j) / 4 = k by omega, show (4 * k + j) % 4 = j by omega, hl]

theorem lineWords_out {lines : List Line} (h : lines.length ≤ i / 4) : lineWords lines i = 0 := by
  unfold lineWords
  rw [List.getElem?_eq_none h]

/-- Bit `b` of line `k`. -/
theorem bits_at {lines : List Line} {k : Nat} (hl : lines[k]? = some l) (hb : b < 256) :
    bits lines (256 * k + b) = l.test b := by
  unfold bits wordBits Line.test
  rw [show (256 * k + b) / 64 = 4 * k + b / 64 by omega, lineWords_at hl (by omega),
    show (256 * k + b) % 64 = b % 64 by omega]

theorem bits_of_line {lines : List Line} (hl : lines[i / 256]? = some l) :
    bits lines i = l.test (i % 256) := by
  have h := bits_at hl (Nat.mod_lt i (by decide))
  rwa [Nat.div_add_mod] at h

/-- A bit is a matter of its line. -/
theorem bits_congr {lines lines' : List Line} (h : lines'[i / 256]? = lines[i / 256]?) :
    bits lines' i = bits lines i := by
  unfold bits wordBits lineWords
  rw [Nat.div_div_eq_div_mul, h]

theorem bits_take {lines : List Line} {m : Nat} (hi : i < 256 * m) :
    bits (lines.take m) i = bits lines i :=
  bits_congr (getElem?_take_of_lt (by omega))

theorem bits_out {lines : List Line} (h : 256 * lines.length ≤ i) : bits lines i = false := by
  unfold bits wordBits
  rw [lineWords_out (by omega)]
  simp

/-- Reading a bit: defined below `m_size` where a line stands. -/
theorem is1_eq (s : Il) (i : Nat) :
    is1 s i = if i < s.size ∧ i < 256 * s.lines.length then some (bits s.lines i) else none := by
  unfold is1
  split
  next hi =>
    by_cases hl : i < 256 * s.lines.length
    · rw [if_pos ⟨hi, hl⟩]
      obtain ⟨l, hsome⟩ : ∃ l, s.lines[i / 256]? = some l :=
        ⟨_, getElem?_eq_getElem (show i / 256 < s.lines.length by omega)⟩
      rw [hsome, bits_of_line hsome]
      rfl
    · rw [if_neg (fun h => hl h.2), List.getElem?_eq_none (by omega)]
      rfl
  next hi =>
    rw [if_neg (fun h => hi h.1)]

/-- When a bit can be read. -/
theorem is1_eq_some {s : Il} {b : Bool} :
    is1 s i = some b ↔ i < s.size ∧ i < 256 * s.lines.length ∧ bits s.lines i = b := by
  rw [is1_eq]
  split
  next h =>
    exact ⟨fun e => ⟨h.1, h.2, Option.some.inj e⟩, fun e => congrArg some e.2.2⟩
  next h =>
    exact ⟨fun e => (nomatch e), fun e => absurd ⟨e.1, e.2.1⟩ h⟩

/-- A fresh line reads as its fill value. -/
theorem Line.test_make (val : Bool) (hb : b < 256) : (Line.make val).test b = val := by
  have h4 : b / 64 < 4 := by omega
  have h64 : b % 64 < 64 := Nat.mod_lt _ (by decide)
  unfold Line.test Line.word Line.make
  rw [dif_pos h4]
  cases val with
  | false => simp
  | true =>
    show (allOnes 64).getLsbD (b % 64) = true
    rw [getLsbD_allOnes, decide_eq_true h64]

/-- Setting a bit of a line changes that bit only. -/
theorem Line.test_set (l : Line) (val : Bool) (hb : b < 256) :
    (if val then l.set1 i else l.set0 i).test b = if b = i then val else l.test b := by
  have h4 : b / 64 < 4 := by omega
  have hb64 : b % 64 < 64 := Nat.mod_lt _ (by decide)
  have hone : (1#64 <<< (i % 64)).getLsbD (b % 64) = decide (b % 64 = i % 64) := by
    show (twoPow 64 (i % 64)).getLsbD (b % 64) = _
    rw [getLsbD_twoPow, decide_eq_true (Nat.mod_lt _ (by decide)), Bool.true_and]
    exact decide_eq_decide.mpr eq_comm
  unfold Line.test Line.word
  rw [dif_pos h4, dif_pos h4]
  cases val with
  | true =>
    show ((if b / 64 = i / 64 then l.bit64 ⟨b / 64, h4⟩ ||| (1#64 <<< (i % 64))
      else l.bit64 ⟨b / 64, h4⟩)).getLsbD (b % 64) = _
    split
    · rw [getLsbD_or, hone]
      by_cases hbi : b = i
      · simp [hbi]
      · rw [decide_eq_false (by omega), if_neg hbi, Bool.or_false]
    next hw =>
      rw [if_neg (fun h => hw (by rw [h]))]
  | false =>
    show ((if b / 64 = i / 64 then l.bit64 ⟨b / 64, h4⟩ &&& ~~~ (1#64 <<< (i % 64))
      else l.bit64 ⟨b / 64, h4⟩)).getLsbD (b % 64) = _
    split
    · rw [getLsbD_and, getLsbD_not, hone, decide_eq_true hb64]
      by_cases hbi : b = i
      · simp [hbi]
      · rw [decide_eq_false (by omega), if_neg hbi]
        simp
    next hw =>
      rw [if_neg (fun h => hw (by rw [h]))]

end RankSelectIl
