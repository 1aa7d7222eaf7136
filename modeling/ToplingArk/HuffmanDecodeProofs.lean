import Mathlib.Algebra.Ring.Nat
import Mathlib.Data.List.Sort
import Mathlib.Logic.Function.Basic

/-! # `Huffman::decoder` — room for the decoded bytes

    The decoder holds up to 63 bits and takes 52 more when it has less than 12.  With each
    of these reads it asks for room for 52 more bytes, which are then pushed without a
    check.  Bits are listed in the order in which the reads deliver them. -/

namespace HuffmanDecode

open List

/-- `BLOCK_BITS` -/
abbrev blockBits : Nat := 12

/-- `HEADER_BLOCK_BITS` -/
abbrev headerBlockBits : Nat := 64 - blockBits

theorem headerBlockBits_eq : headerBlockBits = 52 := rfl

/-! ## Tables -/

/-- `HuffmanEncSymbol`: the code of a byte, of no bits if the byte does not occur. -/
structure EncSymbol where
  bits : Nat
  bitCount : Nat
  le : bitCount ≤ blockBits

/-- What `HuffmanBuildDTable` sorts. -/
structure Item where
  bits : Nat
  bitCount : Nat
  data : Nat
  good : 1 ≤ bitCount ∧ bitCount ≤ blockBits

/-- `ari_` and `cnt_`: the byte for 12 bits, and the length of its code. -/
structure Table where
  ari : Nat → Nat
  cnt : Nat → Nat
  good : ∀ c, (1 ≤ cnt c ∧ cnt c ≤ blockBits) ∨ cnt c = 255

/-- The table after the two `memset` of `init`. -/
def Table.empty : Table := ⟨fun _ => 0, fun _ => 255, fun _ => .inr rfl⟩

/-- The 12 bits from the code of an item on, up to `hi`. -/
def Table.put (t : Table) (x : Item) (hi : Nat) : Table where
  ari := fun i => if x.bits ≤ i ∧ i < hi then x.data else t.ari i
  cnt := fun c => if c = x.data then x.bitCount else t.cnt c
  good := fun c => by
    split
    · exact .inl x.good
    · exact t.good c

/-- Each code covers the table up to the next one. -/
def fillTable : Table → List Item → Table
  | t, [] => t
  | t, [x] => t.put x (2 ^ blockBits)
  | t, x :: y :: rest => fillTable (t.put x y.bits) (y :: rest)

/-- `HuffmanBuildDTable` from the codes of the bytes, on an empty table. -/
def buildDTable (csyms : Nat → EncSymbol) : Table :=
  fillTable Table.empty (((range 256).filterMap (fun j =>
    if h : (csyms j).bitCount = 0 then none
    else some ⟨(csyms j).bits * 2 ^ (blockBits - (csyms j).bitCount) % 2 ^ 16,
      (csyms j).bitCount, j, Nat.one_le_iff_ne_zero.mpr h, (csyms j).le⟩)).insertionSort
        (fun l r => l.bits ≤ r.bits))

/-! ## The decoder -/

/-- The first 12 bits; behind the last bit there are zeros. -/
def block (bits : List Bool) : Nat :=
  ((bits ++ replicate blockBits false).take blockBits).foldl (fun v b => 2 * v + b.toNat) 0

/-- The variables of the loop: the last byte, the bits in `huf`, those still in the reader, the
    record and the largest capacity asked for. -/
structure St where
  l : Nat
  huf : List Bool
  reader : List Bool
  record : List Nat
  cap : Nat

/-- Less than `BLOCK_BITS` bits: read `HEADER_BLOCK_BITS` more. -/
def refill (s : St) : St :=
  if s.huf.length < blockBits ∧ s.reader ≠ [] then
    { s with
      huf := s.huf ++ s.reader.take headerBlockBits
      reader := s.reader.drop headerBlockBits
      cap := max s.cap (s.record.length + headerBlockBits) }
  else s

/-- The loop, with the table for the last byte; `none` is a push without room. -/
def decodeLoop (tabs : Nat → Table) : Nat → St → Option (Bool × List Nat)
  | 0, _ => none
  | fuel + 1, s =>
    let s := refill s
    if s.huf = [] then some (true, s.record)
    else
      let c := (tabs s.l).ari (block s.huf)
      let b := (tabs s.l).cnt c
      if s.huf.length < b then some (false, s.record)
      else if s.record.length < s.cap then
        decodeLoop tabs fuel { s with l := c, huf := s.huf.drop b, record := s.record ++ [c] }
      else none

/-- Both decoders; every round takes at least one bit. -/
def decodeWith (tabs : Nat → Table) (bits : List Bool) : Option (Bool × List Nat) :=
  if bits = [] then some (true, [])
  else
    let first := (bits.length - 1) % headerBlockBits + 1
    decodeLoop tabs (bits.length + 1) ⟨256, bits.take first, bits.drop first, [], headerBlockBits⟩

/-- `decoder::bitwise_decode` -/
def bitwiseDecode (t : Table) : List Bool → Option (Bool × List Nat) := decodeWith (fun _ => t)

/-- `decoder_o1::bitwise_decode_x1` -/
def bitwiseDecodeX1 (tabs : Nat → Table) : List Bool → Option (Bool × List Nat) := decodeWith tabs

/-! ## Codes near the end -/

/-- How many codes begin in the last 63 bits. -/
def tailCodes (tabs : Nat → Table) : Nat → Nat → List Bool → Nat
  | 0, _, _ => 0
  | fuel + 1, l, bits =>
    let c := (tabs l).ari (block bits)
    let b := (tabs l).cnt c
    if bits = [] ∨ bits.length < b ∨ blockBits < b then 0
    else (if bits.length < 64 then 1 else 0) + tailCodes tabs fuel c (bits.drop b)

/-- Twelve bits decide on a code. -/
theorem block_append {huf : List Bool} (h : 12 ≤ huf.length) (rest : List Bool) :
    block (huf ++ rest) = block huf := by
  unfold block
  rw [append_assoc, take_append_of_le_length h, take_append_of_le_length h]

variable {tabs : Nat → Table}

/-- **WHEN THE READER IS EMPTY** every code that is left needs room. -/
theorem decodeLoop_last (fuel : Nat) (s : St) (hreader : s.reader = []) (hlen : s.huf.length < 64)
    (hfuel : s.huf.length < fuel) (hcap : s.record.length ≤ s.cap) :
    (decodeLoop tabs fuel s).isSome ↔
      s.record.length + tailCodes tabs fuel s.l s.huf ≤ s.cap := by
  induction fuel generalizing s with
  | zero => cases hfuel
  | succ fuel ih =>
    have hrefill : refill s = s := if_neg (fun h => h.2 hreader)
    rw [decodeLoop, hrefill, tailCodes]
    dsimp only
    generalize (tabs s.l).ari (block s.huf) = c
    have hgood : (1 ≤ _ ∧ _ ≤ 12) ∨ _ = 255 := (tabs s.l).good c
    generalize (tabs s.l).cnt c = b at hgood
    by_cases hnil : s.huf = []
    · rw [if_pos hnil, if_pos (.inl hnil)]
      exact iff_of_true rfl hcap
    by_cases hb : s.huf.length < b
    · rw [if_neg hnil, if_pos hb, if_pos (.inr (.inl hb))]
      exact iff_of_true rfl hcap
    have hcode : ¬ (s.huf = [] ∨ s.huf.length < b ∨ 12 < b) := by
      rintro (h | h | h)
      · exact hnil h
      · exact hb h
      · omega
    rw [if_neg hnil, if_neg hb, if_neg hcode, if_pos hlen]
    split
    · refine (ih { s with l := c, huf := s.huf.drop b, record := s.record ++ [c] } hreader
        (by simp; omega) (by simp; omega) (by simp; omega)).trans ?_
      simp
      omega
    · exact iff_of_false Bool.false_ne_true (by omega)

/-- Between two reads: there is room for as many codes as can begin before 12 bits are left. -/
structure Roomy (s : St) : Prop where
  reader : s.reader ≠ []
  blocks : s.reader.length % 52 = 0
  room : s.huf.length + s.record.length ≤ s.cap + 11
  cap : s.cap ≤ s.record.length + 52

/-- Refilling twice is refilling once. -/
theorem refill_refill (s : St) : refill (refill s) = refill s := by
  unfold refill
  by_cases h : s.huf.length < 12 ∧ s.reader ≠ []
  · rw [if_pos h, if_neg]
    rintro ⟨hlen, hne⟩
    simp [blockBits, headerBlockBits] at hlen hne
    omega
  · rw [if_neg h, if_neg h]

/-- **A ROUND WHILE THE READER HAS BITS** finds room. -/
theorem Roomy.round {fuel : Nat} {s : St} (hs : Roomy s) (hlen : 12 ≤ s.huf.length)
    (ih : ∀ s', Roomy s' → s'.huf.length + s'.reader.length < fuel →
      ((decodeLoop tabs fuel s').isSome ↔
        tailCodes tabs fuel s'.l (s'.huf ++ s'.reader) ≤ 52))
    (hfuel : s.huf.length + s.reader.length < fuel + 1) :
    (decodeLoop tabs (fuel + 1) s).isSome ↔
      tailCodes tabs (fuel + 1) s.l (s.huf ++ s.reader) ≤ 52 := by
  obtain ⟨hreader, hblocks, hroom, hcap⟩ := hs
  have hpos := length_pos_iff.mpr hreader
  have hrefill : refill s = s := if_neg (fun h => absurd h.1 hlen.not_gt)
  rw [decodeLoop, hrefill, tailCodes, block_append hlen]
  dsimp only
  generalize (tabs s.l).ari (block s.huf) = c
  have hgood : (1 ≤ _ ∧ _ ≤ 12) ∨ _ = 255 := (tabs s.l).good c
  generalize (tabs s.l).cnt c = b at hgood
  have hnil : s.huf ≠ [] := ne_nil_of_length_pos (by omega)
  by_cases hb : s.huf.length < b
  · rw [if_neg hnil, if_pos hb, if_pos (.inr (.inr (show 12 < b by omega)))]
    exact iff_of_true rfl (Nat.zero_le _)
  have hcode : ¬ (s.huf ++ s.reader = [] ∨ (s.huf ++ s.reader).length < b ∨ 12 < b) := by
    rintro (h | h | h)
    · exact hnil (append_eq_nil_iff.mp h).1
    · rw [length_append] at h
      omega
    · omega
  have hfar : ¬ (s.huf ++ s.reader).length < 64 := by
    rw [length_append]
    omega
  rw [if_neg hnil, if_neg hb, if_pos (by omega), if_neg hcode, if_neg hfar, Nat.zero_add,
    drop_append_of_le_length (by omega)]
  exact ih _ ⟨hreader, hblocks, by simp; omega, by simp; omega⟩ (by simp; omega)

/-- The loop ends well unless too many codes begin near the end. -/
theorem decodeLoop_iff (fuel : Nat) (s : St) (hs : Roomy s)
    (hfuel : s.huf.length + s.reader.length < fuel) :
    (decodeLoop tabs fuel s).isSome ↔ tailCodes tabs fuel s.l (s.huf ++ s.reader) ≤ 52 := by
  induction fuel generalizing s with
  | zero => cases hfuel
  | succ fuel ih =>
    by_cases hlen : 12 ≤ s.huf.length
    · exact hs.round hlen ih hfuel
    · obtain ⟨hreader, hblocks, hroom, hcap⟩ := hs
      have hpos := length_pos_iff.mpr hreader
      have hrefill := refill_refill s
      have hsame : decodeLoop tabs (fuel + 1) s = decodeLoop tabs (fuel + 1) (refill s) := by
        rw [decodeLoop, decodeLoop, hrefill]
      rw [hsame, refill, if_pos ⟨not_le.mp hlen, hreader⟩, headerBlockBits_eq,
        Nat.max_eq_right hcap]
      have hbits : s.huf ++ s.reader = s.huf ++ s.reader.take 52 ++ s.reader.drop 52 := by
        rw [append_assoc, take_append_drop]
      rw [hbits]
      by_cases hlast : s.reader.drop 52 = []
      · rw [decodeLoop_last _ _ hlast (by simp; omega) (by simp; omega) (by simp), hlast]
        simp
      · refine Roomy.round ⟨hlast, by simp; omega, by simp; omega, le_rfl⟩ (by simp; omega) ih
          (by simp; omega)

/-- So it is for the whole stream. -/
theorem decodeWith_iff (tabs : Nat → Table) (bits : List Bool) :
    (decodeWith tabs bits).isSome ↔ tailCodes tabs (bits.length + 1) 256 bits ≤ 52 := by
  unfold decodeWith
  rw [headerBlockBits_eq]
  dsimp only
  by_cases hnil : bits = []
  · rw [if_pos hnil, tailCodes, if_pos (.inl hnil)]
    exact iff_of_true rfl (Nat.zero_le _)
  have hbits := take_append_drop ((bits.length - 1) % 52 + 1) bits
  rw [if_neg hnil]
  by_cases hlast : bits.drop ((bits.length - 1) % 52 + 1) = []
  · rw [hlast, append_nil] at hbits
    rw [hlast, hbits]
    have hle := drop_eq_nil_iff.mp hlast
    have hshort : bits.length < 64 := by omega
    refine (decodeLoop_last _ ⟨256, bits, [], [], 52⟩ rfl hshort (Nat.lt_succ_self _)
      (Nat.zero_le _)).trans ?_
    simp
  · have hroomy : Roomy ⟨256, bits.take ((bits.length - 1) % 52 + 1),
        bits.drop ((bits.length - 1) % 52 + 1), [], 52⟩ :=
      ⟨hlast, by simp; omega, by simp; omega, by simp⟩
    have h := @decodeLoop_iff tabs (bits.length + 1) _ hroomy (by simp; omega)
    rwa [hbits] at h

/-- **NO PUSH IS WITHOUT ROOM** exactly if at most 52 codes begin in the last 63 bits. -/
theorem decode_room_iff (t : Table) (tabs : Nat → Table) (bits : List Bool) :
    ((bitwiseDecode t bits).isSome ↔
      tailCodes (fun _ => t) (bits.length + 1) 256 bits ≤ headerBlockBits) ∧
    ((bitwiseDecodeX1 tabs bits).isSome ↔
      tailCodes tabs (bits.length + 1) 256 bits ≤ headerBlockBits) :=
  ⟨decodeWith_iff _ bits, decodeWith_iff _ bits⟩

/-- A code of one bit for each of two bytes. -/
def twoCodes (j : Nat) : EncSymbol :=
  if j = 97 then ⟨0, 1, by decide⟩ else if j = 98 then ⟨1, 1, by decide⟩ else ⟨0, 0, by decide⟩

/-- 53 codes of one bit: the first read takes one bit, the second asks for room for 52. -/
theorem decode_53_no_room :
    bitwiseDecode (buildDTable twoCodes) (replicate 53 true) = none := by
  decide +kernel

end HuffmanDecode
