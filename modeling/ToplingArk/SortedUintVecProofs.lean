import Mathlib.Data.List.Chain
import Mathlib.Data.List.GetD
import Mathlib.Data.List.Sort
import Mathlib.Data.List.MinMax
import Mathlib.Data.List.ProdSigma
import ToplingArk.UintVecProofs

/-! # `SortedUintVec::Builder` — blocks of values with a header

    Values are collected to blocks of 64 or 128.  A block is written when the next value comes
    or at the end: its place and its first value go to the index, then a header follows with
    the LOW WATER of the differences in the block and the widths of its units, then the units
    themselves.  The header has 50 bits for the low water, and `push_back` accepts differences
    of 51 bits: a block whose low water has 51 bits runs into the `abort` of `WriteHeader`.

    The index is packed, and read in two ways: `get` takes a sample from one or two aligned
    words, `get_block_min_val` from one word at the byte where the sample begins.

    The builder keeps its block as `int64_t`: a block that begins below 2^63 and ends above it
    is not ascending for `append_block`, and is stored in the way of unordered values.

    The units behind the header are a parameter, `payload`. -/

namespace SortedUintVec

open ByteBits LittleEndian UintVec List Option BitVec Nat

/-- How a call ends when it does not return. -/
inductive Stop
  | invalidArgument
  | abort
  | fault
  deriving DecidableEq, Repr

/-! ## Headers -/

/-- `GetWidthType` -/
def getWidthType (smallWidth largeWidth : Nat) : Nat :=
  if smallWidth = 1 ∧ largeWidth = 1 then 11
  else if smallWidth = 2 ∧ largeWidth = 2 then 15
  else [0, 1, 2, 3, 4, 5, 6, 7, 8, 9, 10, 255, 12, 255, 255, 255, 13, 255, 255, 255, 14].getD
    smallWidth 255

/-- `WriteHeader`: aborts when the low water has more than 50 bits. -/
def writeHeader (loWater smallWidth largeWidth : Nat) : Except Stop (List Byte) :=
  let head := fun loWaterType =>
    byteOf ((loWater % 4) <<< 6 ||| loWaterType <<< 4 ||| getWidthType smallWidth largeWidth)
  let hi := loWater / 4
  if hi < 2 ^ 8 then .ok (head 0 :: bytes 1 hi)
  else if hi < 2 ^ 16 then .ok (head 1 :: bytes 2 hi)
  else if hi < 2 ^ 24 then .ok (head 2 :: bytes 3 hi)
  else if hi < 2 ^ 48 then .ok (head 3 :: bytes 6 hi)
  else .error .abort

/-- `g_used_small_width`; zeros follow up to a width of 64. -/
def gUsedSmallWidth : List Nat :=
  [0, 1, 2, 3, 4, 5, 6, 7, 8, 9, 10, 12, 12, 16, 16, 16, 16, 20, 20, 20, 20]

/-- A number as an `int64_t`. -/
def int64 (x : Int) : Int := x.bmod (2 ^ 64)

/-- An `int64_t` as a `uint64_t`. -/
def uint64 (x : Int) : Nat := (x % 2 ^ 64).toNat

variable (units : Nat) {α ε β : Type} {vals : List Nat} {n b : Nat} {isSorted : Bool}

/-- `bits`: what it costs to store the differences `[lo, hi)` as small units -/
def bits (ds : List Int) (lo hi : Nat) : Nat :=
  let largeWidth := 1 + log2 (uint64 (ds.getD (units - 2) 0))
  let smallWidth :=
    gUsedSmallWidth.getD (1 + log2 (uint64 (ds.getD (hi - 1) 0 - ds.getD lo 0 + 1))) 0
  if smallWidth = 0 then (largeWidth + 1) * (units - 1)
  else
    (if 64 % smallWidth = 0 then smallWidth * (units - 1) else smallWidth * 64 * (units / 64)) +
      largeWidth * (units - 1 - (hi - lo))

/-- `compute_lo_hi_index`: the first pair, by rows, with the least cost -/
def computeLoHiIndex (ds : List Int) : Nat × Nat :=
  let r := ((range (units / 2) ×ˢ range (units / 2)).argmin
    (fun w => bits units ds w.1 (units - 1 - w.2))).getD (0, 0)
  (r.1, units - 1 - r.2)

/-- The differences of a block, after `std::sort`. -/
def sortedDiffs (vals : List Nat) : List Int :=
  (zipWith (fun a b : Nat => int64 (b - a)) vals vals.tail).insertionSort (· ≤ ·)

/-- The header that `append_block_impl` writes. -/
def appendBlockImpl (vals : List Nat) : Except Stop (List Byte) :=
  let ds := sortedDiffs vals
  let first := ds.getD 0 0
  let last := ds.getD (units - 2) 0
  if first = last then writeHeader (uint64 first) 0 0
  else if int64 (first + 1) = last then writeHeader (uint64 first) 1 1
  else if last ≤ int64 (first + 3) then writeHeader (uint64 first) 2 2
  else
    let w := computeLoHiIndex units ds
    writeHeader (uint64 (ds.getD w.1 0))
      (gUsedSmallWidth.getD (1 + log2 (uint64 (ds.getD (w.2 - 1) 0 - ds.getD w.1 0 + 1))) 0)
      (1 + log2 (uint64 last))

/-- `encode_signed`, of an `int64_t` -/
def encodeSigned (x : Int) : Nat := uint64 (if x < 0 then (-x - 1) * 2 + 1 else x * 2)

/-- The header that `append_block_impl_lagrange` writes. -/
def appendBlockImplLagrange (vals : List Nat) (nextBlockFirstValue : Nat) :
    Except Stop (List Byte) :=
  let fB := int64 (nextBlockFirstValue - vals.getD 0 0)
  let fM := int64 (vals.getD (units / 2) 0 - vals.getD 0 0)
  writeHeader (encodeSigned (int64 (fM - fB.tdiv 2))) 2 2

/-! ## The builder -/

/-- `data` is what follows the object header; an entry of the index is an offset in it and the
    first value of the block. -/
structure Builder where
  isSorted : Bool
  block : List Nat
  index : List (Nat × Nat)
  data : List Byte
  lastValue : Nat
  maxValue : Nat
  size : Nat

/-- A new builder. -/
def create (isSorted : Bool) : Builder where
  isSorted := isSorted
  block := []
  index := []
  data := []
  lastValue := 0
  maxValue := 0
  size := 0

variable (payload : List Nat → Nat → List Byte)

/-- `append_block`: neighbours are compared as `int64_t`. -/
def appendBlock (B : Builder) (nextBlockFirstValue : Nat) : Except Stop Builder :=
  (if B.block.IsChain (fun a b : Nat => int64 a ≤ int64 b) then appendBlockImpl units B.block
    else appendBlockImplLagrange units B.block nextBlockFirstValue).map (fun header =>
      { B with index := B.index ++ [(B.data.length, B.block.getD 0 0)]
               data := B.data ++ header ++ payload B.block nextBlockFirstValue })

/-- The first part of `push_back`: a full block is written. -/
def flushBlock (B : Builder) (val : Nat) : Except Stop Builder :=
  if B.block.length ≥ units then
    if B.block.length > units then .error .invalidArgument
    else (appendBlock units payload B val).map (fun B => { B with block := [] })
  else .ok B

/-- The rest of `push_back`: the value is checked and taken. -/
def takeValue (B : Builder) (val : Nat) : Except Stop Builder :=
  let B' := { B with maxValue := max B.maxValue val, block := B.block ++ [val]
                     size := B.size + 1, lastValue := val }
  if val < B.lastValue then
    if B.isSorted then .error .invalidArgument else .ok B'
  else if 0 < B.size ∧ 2 ^ 51 ≤ val - B.lastValue then .error .invalidArgument
  else .ok B'

/-- `push_back` -/
def pushBack (B : Builder) (val : Nat) : Except Stop Builder :=
  (flushBlock units payload B val).bind (fun B => takeValue B val)

/-- The part of `finish` that writes the last block and the last entry of the index. -/
def finishBlock (B : Builder) : Except Stop Builder :=
  (if B.block.length ≠ 0 then
    appendBlock units payload
      { B with block := B.block ++ List.replicate (units - B.block.length) B.lastValue } B.lastValue
  else .ok B).map (fun B => { B with index := B.index ++ [(B.data.length, B.lastValue)] })

/-- `SortedUintVec`, as far as its index is read. -/
structure Vec where
  size : Nat
  offsetWidth : Nat
  sampleWidth : Nat
  index : List Byte
  deriving DecidableEq

/-- The loop of `finish` that packs the index. -/
def writeIndex (offsetWidth sampleWidth : Nat) :
    List (Nat × Nat) → Nat → List Byte → Option (List Byte)
  | [], _, zipIndex => some zipIndex
  | item :: rest, bitpos, zipIndex =>
    (sSetUint zipIndex bitpos offsetWidth (BitVec.ofNat 64 item.1)).bind (fun zipIndex =>
      (sSetUint zipIndex (bitpos + offsetWidth) sampleWidth (BitVec.ofNat 64 item.2)).bind
        (writeIndex offsetWidth sampleWidth rest (bitpos + offsetWidth + sampleWidth)))

/-- The rest of `finish`: zero bytes fill the data up to a whole word, at least 7 of them, and
    the index up to a multiple of 16 bytes for all.  There is no room for 2^64 bytes. -/
def finishIndex (B : Builder) : Except Stop Vec :=
  let dataBytes := (B.data.length + 14) / 8 * 8
  let offsetWidth := 1 + log2 dataBytes
  let sampleWidth := 1 + log2 B.maxValue
  let indexBytes := ((offsetWidth + sampleWidth) * B.index.length + 7) / 8
  if 2 ^ 64 ≤ dataBytes then .error .fault
  else match writeIndex offsetWidth sampleWidth B.index 0
      (replicate ((dataBytes + indexBytes + 15) / 16 * 16 - dataBytes) 0) with
  | some index => .ok ⟨B.size, offsetWidth, sampleWidth, index⟩
  | none => .error .fault

/-- All values pushed, and `finish`. -/
def build (isSorted : Bool) (vals : List Nat) : Except Stop Vec :=
  (vals.foldlM (pushBack units payload) (create isSorted)).bind (fun B =>
    (finishBlock units payload B).bind finishIndex)

/-! ## The low water -/

/-- The low water of the differences fits the header.  If they are close together, the smallest
    one does.  Otherwise the middle one decides, but for a band above 2^50: there a range of
    small units that begins below 2^50 has to cost no more than those that do not. -/
def LowWaterFits (ds : List Int) : Prop :=
  if ds.getD (units - 2) 0 ≤ ds.getD 0 0 + 3 then ds.getD 0 0 < 2 ^ 50
  else ds.getD (units / 2 - 1) 0 < 2 ^ 50 ∨ ds.getD (units / 2 - 1) 0 < 2 ^ 50 + 2 ^ 20 ∧
    ∃ i < units / 2, ∃ j < units / 2, ds.getD i 0 < 2 ^ 50 ∧
      ∀ i' < units / 2, ∀ j' < units / 2, 2 ^ 50 ≤ ds.getD i' 0 →
        bits units ds i (units - 1 - j) ≤ bits units ds i' (units - 1 - j')

/-- The middle value of a block is not far from half of the way to the next block. -/
def MiddleFits (vals : List Nat) (next : Nat) : Prop :=
  let first : Int := vals.getD 0 0
  let middle : Int := vals.getD (units / 2) 0
  middle - first - (next - first) / 2 < 2 ^ 49 ∧ -2 ^ 49 ≤ middle - first - (next - first) / 2

/-- What the header of a block has to hold: it depends on whether the block crosses 2^63. -/
def BlockFits (vals : List Nat) (next : Nat) : Prop :=
  if vals.getD 0 0 < 2 ^ 63 ∧ 2 ^ 63 ≤ vals.getD (units - 1) 0 then MiddleFits units vals next
  else LowWaterFits units (sortedDiffs vals)

variable {units} {payload} {vec : Vec}

/-- A header is written if it fits. -/
theorem writeHeader_eq {fits : Prop} {loWater : Nat} (hfits : fits ↔ loWater < 2 ^ 50)
    (smallWidth largeWidth : Nat) :
    (fits ∧ ∃ bs, writeHeader loWater smallWidth largeWidth = .ok bs) ∨
      ¬ fits ∧ writeHeader loWater smallWidth largeWidth = .error .abort := by
  unfold writeHeader
  dsimp only
  rw [hfits]
  by_cases h48 : loWater / 4 < 2 ^ 48
  · refine .inl ⟨by omega, ?_⟩
    split
    · exact ⟨_, rfl⟩
    · split
      · exact ⟨_, rfl⟩
      · split <;> exact ⟨_, rfl⟩
  · refine .inr ⟨by omega, ?_⟩
    rw [if_neg (by omega), if_neg (by omega), if_neg (by omega), if_neg h48]

/-- The first of the cheapest entries of an ordered list has the smallest place. -/
theorem argmin_first_le [DecidableEq α] {l : List α} {g cost : α → Nat} {w v : α}
    (hl : l.Pairwise (fun a b => g a ≤ g b)) (hw : w ∈ l.argmin cost) (hv : v ∈ l)
    (hcost : cost v ≤ cost w) : g w ≤ g v := by
  have hw' := argmin_mem hw
  rcases lt_or_eq_of_le (index_of_argmin hw hv hcost) with hlt | heq
  · have hle := pairwise_iff_getElem.mp hl _ _ (idxOf_lt_length_iff.mpr hw')
      (idxOf_lt_length_iff.mpr hv) hlt
    rwa [getElem_idxOf, getElem_idxOf] at hle
  · rw [(idxOf_inj hw').mp heq]

theorem rows_ordered (n : Nat) :
    (range n ×ˢ range n).Pairwise (fun a b => a.1 ≤ b.1) := by
  refine pairwise_flatMap.mpr ⟨fun i _ => ?_, ?_⟩
  · exact pairwise_map.mpr (pairwise_of_forall (fun _ _ => le_refl i))
  · refine pairwise_lt_range.imp (fun {i i'} hlt x hx y hy => ?_)
    obtain ⟨j, -, rfl⟩ := mem_map.mp hx
    obtain ⟨j', -, rfl⟩ := mem_map.mp hy
    exact hlt.le

/-- Small numbers are their own `int64_t`. -/
theorem int64_eq {x : Int} (h1 : -2 ^ 63 ≤ x) (h2 : x < 2 ^ 63) : int64 x = x := by
  unfold int64 Int.bmod
  dsimp only
  split <;> omega

theorem uint64_eq {x : Int} (h1 : 0 ≤ x) (h2 : x < 2 ^ 64) : (uint64 x : Int) = x := by
  unfold uint64
  omega

/-- Signed order is lost where 2^63 is crossed. -/
theorem int64_le_iff {a b : Nat} (hab : a ≤ b) (hb : b < 2 ^ 64) :
    int64 a ≤ int64 b ↔ ¬ (a < 2 ^ 63 ∧ 2 ^ 63 ≤ b) := by
  unfold int64 Int.bmod
  dsimp only
  split <;> split <;> omega

/-- A block of ascending values that does not cross 2^63. -/
structure Ascends (vals : List Nat) : Prop where
  chain : vals.IsChain (· ≤ ·)
  lt : ∀ x ∈ vals, x < 2 ^ 64
  signed : vals.IsChain (fun a b : Nat => int64 a ≤ int64 b)

/-- The sorted differences of such a block. -/
structure Diffs (units : Nat) (ds : List Int) : Prop where
  length : ds.length = units - 1
  mono : ∀ i j, i ≤ j → j + 1 < units → ds.getD i 0 ≤ ds.getD j 0
  nonneg : ∀ i, 0 ≤ ds.getD i 0
  lt : ∀ i, ds.getD i 0 < 2 ^ 63

theorem length_sortedDiffs (vals : List Nat) : (sortedDiffs vals).length = vals.length - 1 := by
  rw [sortedDiffs, length_insertionSort, length_zipWith, length_tail]
  omega

/-- A property of neighbours holds for the sorted differences. -/
theorem forall_sortedDiffs {p : Int → Prop}
    (h : vals.IsChain (fun a b : Nat => p (int64 (b - a)))) : ∀ d ∈ sortedDiffs vals, p d := by
  intro d hd
  obtain ⟨k, hk, rfl⟩ := mem_iff_getElem.mp ((mem_insertionSort _).mp hd)
  rw [length_zipWith, length_tail] at hk
  rw [getElem_zipWith, getElem_tail]
  exact isChain_iff_getElem.mp h k (by omega)

theorem getD_of_forall {ds : List Int} {p : Int → Prop} (h : ∀ d ∈ ds, p d) (h0 : p 0) (i : Nat) :
    p (ds.getD i 0) := by
  by_cases hi : i < ds.length
  · rw [getD_eq_getElem _ _ hi]
    exact h _ (getElem_mem hi)
  · rwa [getD_eq_default _ _ (not_lt.mp hi)]

/-- Ascending values have nonnegative differences. -/
theorem Ascends.diffs (h : Ascends vals) (hlen : vals.length = units) :
    Diffs units (sortedDiffs vals) := by
  have hlength : (sortedDiffs vals).length = units - 1 := hlen ▸ length_sortedDiffs vals
  have hrange : ∀ d ∈ sortedDiffs vals, 0 ≤ d ∧ d < 2 ^ 63 := by
    refine forall_sortedDiffs (isChain_iff_getElem.mpr (fun i hi => ?_))
    have hab := isChain_iff_getElem.mp h.chain i hi
    have hb := h.lt _ (getElem_mem hi)
    have hside := (int64_le_iff hab hb).mp (isChain_iff_getElem.mp h.signed i hi)
    rw [int64_eq (by omega) (by omega)]
    omega
  have hget := fun i => getD_of_forall hrange ⟨le_rfl, by decide⟩ i
  refine { length := hlength, nonneg := fun i => (hget i).1, lt := fun i => (hget i).2
           mono := fun i j hij hj => ?_ }
  rcases lt_or_eq_of_le hij with hlt | rfl
  · rw [getD_eq_getElem _ _ (by omega), getD_eq_getElem _ _ (by omega)]
    exact pairwise_iff_getElem.mp (pairwise_insertionSort _ _) i j _ _ hlt
  · exact le_rfl

/-- The chosen pair is a cheapest one. -/
theorem computeLoHiIndex_spec (hunits : 1 < units) (ds : List Int) : ∃ w : Nat × Nat,
    (range (units / 2) ×ˢ range (units / 2)).argmin (fun w => bits units ds w.1 (units - 1 - w.2)) =
      some w ∧ computeLoHiIndex units ds = (w.1, units - 1 - w.2) ∧ w.1 < units / 2 ∧
      w.2 < units / 2 ∧ ∀ i < units / 2, ∀ j < units / 2,
        bits units ds w.1 (units - 1 - w.2) ≤ bits units ds i (units - 1 - j) := by
  have hne : range (units / 2) ×ˢ range (units / 2) ≠ [] :=
    ne_nil_of_mem (mem_product.mpr ⟨mem_range.mpr (show 0 < units / 2 by omega),
      mem_range.mpr (show 0 < units / 2 by omega)⟩)
  obtain ⟨w, hw⟩ : ∃ w, (range (units / 2) ×ˢ range (units / 2)).argmin
      (fun w => bits units ds w.1 (units - 1 - w.2)) = some w :=
    ne_none_iff_exists'.mp (fun h => hne (argmin_eq_none.mp h))
  have hmem := mem_product.mp (argmin_mem hw)
  rw [mem_range, mem_range] at hmem
  refine ⟨w, hw, by rw [computeLoHiIndex, hw, getD_some], hmem.1, hmem.2, fun i hi j hj => ?_⟩
  exact le_of_mem_argmin (a := (i, j)) (mem_product.mpr ⟨mem_range.mpr hi, mem_range.mpr hj⟩) hw

/-! ## The widths of the units -/

section Widths

variable (units) (ds : List Int)

/-- The width of the small units that `append_block_impl` chooses. -/
def smallWidth : Nat :=
  gUsedSmallWidth.getD (1 + log2 (uint64 (ds.getD ((computeLoHiIndex units ds).2 - 1) 0 -
    ds.getD (computeLoHiIndex units ds).1 0 + 1))) 0

/-- The width of the large units. -/
def largeWidth : Nat := 1 + log2 (uint64 (ds.getD (units - 2) 0))

/-- A difference that is not between the waters is stored as a large unit. -/
def IsLarge (d : Int) : Prop :=
  d < ds.getD (computeLoHiIndex units ds).1 0 ∨ ds.getD ((computeLoHiIndex units ds).2 - 1) 0 < d

/-- The block is none of the special cases of `append_block_impl`. -/
def General : Prop :=
  let first := ds.getD 0 0
  let last := ds.getD (units - 2) 0
  first ≠ last ∧ int64 (first + 1) ≠ last ∧ int64 (first + 3) < last

end Widths

/-- The table has the supported widths only. -/
theorem gUsedSmallWidth_mem (k : Nat) : gUsedSmallWidth.getD k 0 = 0 ∨
    gUsedSmallWidth.getD k 0 ∈ [1, 2, 3, 4, 5, 6, 7, 8, 9, 10, 12, 16, 20] ∧ k < 21 := by
  rcases lt_or_ge k 21 with hk | hk
  · revert hk k
    decide
  · exact .inl (getD_eq_default _ _ hk)

/-- What one small unit of one bit costs, with all others large. -/
theorem bits_middle (hunits : units = 64 ∨ units = 128) (ds : List Int) :
    bits units ds (units / 2 - 1) (units - 1 - (units / 2 - 1)) =
      units - 1 + largeWidth units ds * (units - 2) := by
  have hlog : log2 1 = 0 := rfl
  have hone : uint64 1 = 1 := rfl
  rcases hunits with rfl | rfl <;> simp [bits, largeWidth, gUsedSmallWidth, hlog, hone]

/-- The cost of the chosen range, which is no more than that of a single small unit. -/
theorem chosen_cost (hunits : units = 64 ∨ units = 128) (ds : List Int) : ∃ w : Nat × Nat,
    computeLoHiIndex units ds = (w.1, units - 1 - w.2) ∧ w.1 < units / 2 ∧ w.2 < units / 2 ∧
      smallWidth units ds ≠ 0 ∧
      (if 64 % smallWidth units ds = 0 then smallWidth units ds * (units - 1)
          else smallWidth units ds * 64 * (units / 64)) +
        largeWidth units ds * (units - 1 - (units - 1 - w.2 - w.1)) <
          (largeWidth units ds + 1) * (units - 1) := by
  obtain ⟨w, -, hindex, hw1, hw2, hcheap⟩ := computeLoHiIndex_spec (show 1 < units by omega) ds
  have hcost := hcheap (units / 2 - 1) (by omega) (units / 2 - 1) (by omega)
  have hbits : bits units ds w.1 (units - 1 - w.2) =
      if smallWidth units ds = 0 then (largeWidth units ds + 1) * (units - 1) else
        (if 64 % smallWidth units ds = 0 then smallWidth units ds * (units - 1)
          else smallWidth units ds * 64 * (units / 64)) +
        largeWidth units ds * (units - 1 - (units - 1 - w.2 - w.1)) := by
    unfold smallWidth
    rw [hindex]
    rfl
  have hpos : 1 ≤ largeWidth units ds := le_add_right 1 _
  have hless : units - 1 + largeWidth units ds * (units - 2) <
      (largeWidth units ds + 1) * (units - 1) := by
    rcases hunits with rfl | rfl <;> omega
  rw [bits_middle hunits, hbits] at hcost
  have hne : smallWidth units ds ≠ 0 := by
    intro hzero
    rw [if_pos hzero] at hcost
    exact absurd hcost hless.not_ge
  rw [if_neg hne] at hcost
  exact ⟨w, hindex, hw1, hw2, hne, hcost.trans_lt hless⟩

/-- **THE CHOSEN WIDTHS** of the general case can be encoded: a choice that could not be would
    cost more than a single small unit of one bit. -/
theorem small_width_encodable (hunits : units = 64 ∨ units = 128) (hlen : vals.length = units)
    (hsorted : vals.IsChain (· ≤ ·)) (hvals : ∀ x ∈ vals, x < 2 ^ 64)
    (hsigned : vals.IsChain (fun a b : Nat => int64 a ≤ int64 b))
    (hgeneral : General units (sortedDiffs vals)) :
    let ds := sortedDiffs vals
    appendBlockImpl units vals = writeHeader (uint64 (ds.getD (computeLoHiIndex units ds).1 0))
      (smallWidth units ds) (largeWidth units ds) ∧
    smallWidth units ds ∈ [1, 2, 3, 4, 5, 6, 7, 8, 9, 10, 12, 16, 20] ∧
    ∀ d ∈ ds, IsLarge units ds d →
      smallWidth units ds ≤ largeWidth units ds ∧ d < 2 ^ largeWidth units ds := by
  intro ds
  have hds : Diffs units ds := Ascends.diffs ⟨hsorted, hvals, hsigned⟩ hlen
  refine ⟨?_, ?_⟩
  · obtain ⟨hne, hone, hthree⟩ := hgeneral
    unfold appendBlockImpl
    dsimp only
    rw [if_neg hne, if_neg hone, if_neg hthree.not_ge]
    rfl
  clear_value ds
  obtain ⟨w, hindex, hw1, hw2, hne, hcost⟩ := chosen_cost hunits ds
  refine ⟨((gUsedSmallWidth_mem _).resolve_left hne).1, fun d hd hlarge => ?_⟩
  obtain ⟨k, hk, rfl⟩ := mem_iff_getElem.mp hd
  rw [hds.length] at hk
  rw [← getD_eq_getElem _ 0 (by omega)] at hlarge ⊢
  constructor
  · -- some place is not in the range of the small units
    have hout : 1 ≤ units - 1 - (units - 1 - w.2 - w.1) := by
      rw [IsLarge, hindex] at hlarge
      rcases hlarge with hlt | hlt
      · have : ¬ w.1 ≤ k := fun h => absurd (hds.mono _ _ h (by omega)) hlt.not_ge
        omega
      · have : ¬ k ≤ units - 1 - w.2 - 1 := fun h => absurd (hds.mono _ _ h (by omega)) hlt.not_ge
        omega
    -- with wider small units every place would cost more than a large unit
    by_contra hgt
    have hmul := Nat.le_mul_of_pos_right (largeWidth units ds) hout
    have hsmall : (largeWidth units ds + 1) * (units - 1) ≤
        if 64 % smallWidth units ds = 0 then smallWidth units ds * (units - 1)
          else smallWidth units ds * 64 * (units / 64) := by
      split <;> rcases hunits with rfl | rfl <;> omega
    omega
  · have hlast : (uint64 (ds.getD (units - 2) 0) : Int) = ds.getD (units - 2) 0 :=
      uint64_eq (hds.nonneg _) ((hds.lt _).trans (by decide))
    have hlog : uint64 (ds.getD (units - 2) 0) < 2 ^ largeWidth units ds := by
      rw [largeWidth, add_comm]
      exact lt_log2_self
    calc ds.getD k 0 ≤ ds.getD (units - 2) 0 := hds.mono _ _ (by omega) (by omega)
      _ = uint64 (ds.getD (units - 2) 0) := hlast.symm
      _ < 2 ^ largeWidth units ds := by exact_mod_cast hlog

/-- 63 values 0 and the value 9: one difference is 9, a large unit, and the others are 0. -/
theorem small_width_encodable_nine :
    let ds := sortedDiffs (List.replicate 63 0 ++ [9])
    smallWidth 64 ds ∈ [1, 2, 3, 4, 5, 6, 7, 8, 9, 10, 12, 16, 20] ∧ 9 ∈ ds ∧ IsLarge 64 ds 9 ∧
      smallWidth 64 ds ≤ largeWidth 64 ds ∧ (9 : Int) < 2 ^ largeWidth 64 ds := by
  obtain ⟨-, hsmall, hlarge⟩ := @small_width_encodable 64 (List.replicate 63 0 ++ [9])
    (.inl rfl) rfl
    (by decide +kernel) (by decide) (by decide +kernel) (by unfold General; decide +kernel)
  have hmem : 9 ∈ sortedDiffs (List.replicate 63 0 ++ [9]) := by decide +kernel
  have hnine : IsLarge 64 (sortedDiffs (List.replicate 63 0 ++ [9])) 9 := by
    unfold IsLarge
    decide +kernel
  exact ⟨hsmall, hmem, hnine, hlarge 9 hmem hnine⟩

/-! ## Headers that can be written -/

/-- The middle difference is in the chosen range, whose ends are less than 2^20 apart. -/
theorem chosen_near (hunits : units = 64 ∨ units = 128) {ds : List Int} (hds : Diffs units ds) :
    ds.getD (units / 2 - 1) 0 < ds.getD (computeLoHiIndex units ds).1 0 + 2 ^ 20 := by
  obtain ⟨w, hindex, hw1, hw2, hne, -⟩ := chosen_cost hunits ds
  have hmem := ((gUsedSmallWidth_mem _).resolve_left hne).2
  have hhi := hds.mono (units / 2 - 1) (units - 1 - w.2 - 1) (by omega) (by omega)
  have hlo := hds.mono w.1 (units - 1 - w.2 - 1) (by omega) (by omega)
  have hpos := hds.nonneg w.1
  have htop := hds.lt (units - 1 - w.2 - 1)
  rw [hindex] at hmem ⊢
  dsimp only at hmem ⊢
  have hval := uint64_eq (x := ds.getD (units - 1 - w.2 - 1) 0 - ds.getD w.1 0 + 1) (by omega)
    (by omega)
  have hlt : uint64 (ds.getD (units - 1 - w.2 - 1) 0 - ds.getD w.1 0 + 1) < 2 ^ 20 :=
    (log2_lt (by omega)).mp (by omega)
  omega

/-- **THE HEADER OF AN ASCENDING BLOCK** is written exactly when the low water fits. -/
theorem appendBlockImpl_eq (hunits : units = 64 ∨ units = 128)
    (hds : Diffs units (sortedDiffs vals)) (hsmall : ∀ i, (sortedDiffs vals).getD i 0 < 2 ^ 51) :
    (LowWaterFits units (sortedDiffs vals) ∧ ∃ bs, appendBlockImpl units vals = .ok bs) ∨
      ¬ LowWaterFits units (sortedDiffs vals) ∧ appendBlockImpl units vals = .error .abort := by
  unfold appendBlockImpl
  dsimp only
  generalize sortedDiffs vals = ds at *
  have hwater : ∀ i, (ds.getD i 0 < 2 ^ 50 ↔ uint64 (ds.getD i 0) < 2 ^ 50) := by
    intro i
    have := uint64_eq (hds.nonneg i) ((hds.lt i).trans (by decide))
    omega
  have hfirst := hsmall 0
  have hzero := hds.nonneg 0
  rw [int64_eq (by omega) (by omega), int64_eq (by omega) (by omega)]
  unfold LowWaterFits
  -- differences this close need no search for the widths
  by_cases hnear : ds.getD (units - 2) 0 ≤ ds.getD 0 0 + 3
  · rw [if_pos hnear]
    split
    · exact writeHeader_eq (hwater 0) 0 0
    · split
      · exact writeHeader_eq (hwater 0) 1 1
      · exact writeHeader_eq (hwater 0) 2 2
  rw [if_neg hnear, if_neg (by omega), if_neg (by omega), if_neg hnear]
  refine writeHeader_eq (Iff.trans ?_ (hwater _)) _ _
  have hband := chosen_near hunits hds
  obtain ⟨w, hw, hindex, hw1, hw2, hleast⟩ :=
    computeLoHiIndex_spec (show 1 < units by omega) ds
  rw [hindex] at hband ⊢
  dsimp only at hband ⊢
  constructor
  -- a cheaper pair would have been the one chosen
  · rintro (hmiddle | ⟨-, i, hi, j, hj, hfit, hcheap⟩)
    · exact (hds.mono _ _ (by omega) (by omega)).trans_lt hmiddle
    · by_contra hge
      have hle := argmin_first_le (v := (i, j)) (rows_ordered _) hw
        (mem_product.mpr ⟨mem_range.mpr hi, mem_range.mpr hj⟩) (hcheap _ hw1 _ hw2 (not_lt.mp hge))
      exact hge (lt_of_le_of_lt (hds.mono _ _ hle (by omega)) hfit)
  · intro hfit
    exact .inr ⟨by omega, w.1, hw1, w.2, hw2, hfit, fun i hi j hj _ => hleast i hi j hj⟩

/-- When a signed number fits the header. -/
theorem encodeSigned_lt_iff {x : Int} (h1 : -2 ^ 62 ≤ x) (h2 : x < 2 ^ 62) :
    (x < 2 ^ 49 ∧ -2 ^ 49 ≤ x) ↔ encodeSigned x < 2 ^ 50 := by
  unfold encodeSigned uint64
  split <;> omega

/-- **THE HEADER OF A BLOCK THAT CROSSES 2^63**. -/
theorem appendBlockImplLagrange_eq {next : Nat} (hmiddle : vals.getD 0 0 ≤ vals.getD (units / 2) 0)
    (hnext : vals.getD (units / 2) 0 ≤ next) (hfar : next < vals.getD 0 0 + 2 ^ 62) :
    (MiddleFits units vals next ∧ ∃ bs, appendBlockImplLagrange units vals next = .ok bs) ∨
      ¬ MiddleFits units vals next ∧ appendBlockImplLagrange units vals next = .error .abort := by
  unfold appendBlockImplLagrange MiddleFits
  dsimp only
  have hB : int64 (next - vals.getD 0 0) = next - vals.getD 0 0 := int64_eq (by omega) (by omega)
  have hM : int64 (vals.getD (units / 2) 0 - vals.getD 0 0) =
    vals.getD (units / 2) 0 - vals.getD 0 0 := int64_eq (by omega) (by omega)
  rw [hB, hM, Int.tdiv_eq_ediv_of_nonneg (by omega), int64_eq (by omega) (by omega)]
  exact writeHeader_eq (encodeSigned_lt_iff (by omega) (by omega)) 2 2

/-! ## What has been pushed -/

/-- The entries of the index: a place in the data and the first value of the block. -/
def Entries (units : Nat) (vals : List Nat) (dataLen : Nat) (index : List (Nat × Nat)) : Prop :=
  ∀ b < index.length, ∃ offset ≤ dataLen, index[b]? = some (offset, vals.getD (units * b) 0)

theorem Entries.snoc {index : List (Nat × Nat)} (h : Entries units vals n index) (k : Nat) :
    Entries units vals (n + k) (index ++ [(n, vals.getD (units * index.length) 0)]) := by
  intro b hb
  rw [length_append] at hb
  rcases Nat.lt_succ_iff_lt_or_eq.mp hb with hb | rfl
  · obtain ⟨offset, hle, hget⟩ := h b hb
    exact ⟨offset, by omega, by rw [getElem?_append_left hb, hget]⟩
  · exact ⟨n, by omega, getElem?_concat_length⟩

/-- The builder after the values `vals`: blocks in the index, the rest in `block`. -/
structure Stored (units : Nat) (B : Builder) (vals : List Nat) : Prop where
  full : units * B.index.length ≤ vals.length
  block : B.block = vals.drop (units * B.index.length)
  size : B.size = vals.length
  last : B.lastValue = vals.getLastD 0
  le_max : ∀ v ∈ vals, v ≤ B.maxValue
  top : B.maxValue = 0 ∨ B.maxValue ∈ vals
  index : Entries units vals B.data.length B.index

theorem ok_of_bind {x : Except ε α} {f : α → Except ε β} {y : β} (h : x.bind f = .ok y) :
    ∃ a, x = .ok a ∧ f a = .ok y := by
  cases x with
  | error e => cases h
  | ok a => exact ⟨a, rfl, h⟩

theorem ok_of_map {x : Except ε α} {f : α → β} {y : β} (h : x.map f = .ok y) :
    ∃ a, x = .ok a ∧ f a = y := by
  cases x with
  | error e => cases h
  | ok a => exact ⟨a, rfl, Except.ok.inj h⟩

variable {B B' : Builder} {vals : List Nat} {v : Nat}

theorem appendBlock_ok (h : appendBlock units payload B v = .ok B') : ∃ bs, B' =
    { B with index := B.index ++ [(B.data.length, B.block.getD 0 0)], data := B.data ++ bs } := by
  obtain ⟨header, -, rfl⟩ := ok_of_map h
  exact ⟨header ++ payload B.block v, by rw [← List.append_assoc]⟩

theorem takeValue_ok (h : takeValue B v = .ok B') : B' =
    { B with maxValue := max B.maxValue v, block := B.block ++ [v], size := B.size + 1
             lastValue := v } := by
  unfold takeValue at h
  dsimp only at h
  split at h
  · split at h
    · cases h
    · exact (Except.ok.inj h).symm
  · split at h
    · cases h
    · exact (Except.ok.inj h).symm

theorem Stored.length_block (h : Stored units B vals) :
    B.block.length = vals.length - units * B.index.length := by
  rw [h.block, length_drop]

theorem Stored.first (h : Stored units B vals) :
    B.block.getD 0 0 = vals.getD (units * B.index.length) 0 := by
  rw [h.block, getD_eq_getElem?_getD, getElem?_drop, add_zero, ← getD_eq_getElem?_getD]

/-- A full block is written. -/
theorem Stored.flush (h : Stored units B vals) (hlen : vals.length = units * B.index.length + units)
    (bs : List Byte) : Stored units
      { B with index := B.index ++ [(B.data.length, B.block.getD 0 0)], data := B.data ++ bs
               block := [] } vals := by
  have hsucc : units * (B.index ++ [(B.data.length, B.block.getD 0 0)]).length = vals.length := by
    rw [length_append, length_singleton, Nat.mul_succ, hlen]
  refine { h with full := hsucc.le, block := ?_, index := ?_ }
  · exact (drop_eq_nil_of_le hsucc.ge).symm
  · rw [length_append, h.first]
    exact h.index.snoc bs.length

/-- A value joins the block. -/
theorem Stored.take (h : Stored units B vals) (hunits : 0 < units) (v : Nat) : Stored units
    { B with maxValue := max B.maxValue v, block := B.block ++ [v], size := B.size + 1
             lastValue := v } (vals ++ [v]) := by
  have hfull := h.full
  refine { full := ?_, block := ?_, size := ?_, last := ?_, le_max := fun x hx => ?_, top := ?_,
           index := fun b hb => ?_ }
  · rw [length_append]
    exact le_add_right_of_le hfull
  · show B.block ++ [v] = _
    rw [drop_append_of_le_length hfull, h.block]
  · rw [length_append, h.size]
    rfl
  · exact getLastD_concat.symm
  · rcases mem_append.mp hx with hx | hx
    · exact le_trans (h.le_max x hx) (le_max_left _ _)
    · rw [mem_singleton.mp hx]
      exact le_max_right _ _
  · show max B.maxValue v = 0 ∨ max B.maxValue v ∈ _
    have := h.top
    rcases le_total B.maxValue v with hle | hle
    · rw [max_eq_right hle]
      exact .inr (mem_append_right _ (mem_singleton_self v))
    · rw [max_eq_left hle]
      exact this.imp_right (mem_append_left _)
  · obtain ⟨offset, hle, hget⟩ := h.index b hb
    have hblock : units * b + units ≤ units * B.index.length := mul_le_mul_left units hb
    refine ⟨offset, hle, hget.trans ?_⟩
    rw [getD_eq_getElem?_getD, getD_eq_getElem?_getD,
      getElem?_append_left (by omega)]

/-- **PUSH_BACK** of a value that it accepts. -/
theorem Stored.push (h : Stored units B vals) (hunits : 0 < units)
    (hle : vals.length ≤ units * B.index.length + units)
    (hpush : pushBack units payload B v = .ok B') :
    Stored units B' (vals ++ [v]) ∧ units * B'.index.length < (vals ++ [v]).length ∧
      (vals ++ [v]).length ≤ units * B'.index.length + units := by
  have hfull := h.full
  have hlen := h.length_block
  rw [length_append, length_singleton]
  unfold pushBack flushBlock at hpush
  by_cases hge : B.block.length ≥ units
  · rw [if_pos hge, if_neg (by omega)] at hpush
    obtain ⟨B1, hflush, htake⟩ := ok_of_bind hpush
    obtain ⟨B2, happend, rfl⟩ := ok_of_map hflush
    obtain ⟨bs, rfl⟩ := appendBlock_ok happend
    obtain rfl := takeValue_ok htake
    refine ⟨(h.flush (by omega) bs).take hunits v, ?_⟩
    rw [length_append, length_singleton, Nat.mul_succ]
    omega
  · rw [if_neg hge] at hpush
    obtain rfl := takeValue_ok hpush
    refine ⟨h.take hunits v, ?_⟩
    show units * B.index.length < _ ∧ _ ≤ units * B.index.length + units
    omega

theorem create_stored (isSorted : Bool) : Stored units (create isSorted) [] where
  full := le_refl 0
  block := rfl
  size := rfl
  last := rfl
  le_max := forall_mem_nil _
  top := .inl rfl
  index := fun _ hb => absurd hb (not_lt_zero _)

/-- After all pushes the builder stores the values. -/
theorem pushAll_stored (hunits : 0 < units)
    (hrun : vals.foldlM (pushBack units payload) (create isSorted) = .ok B) :
    Stored units B vals ∧ vals.length ≤ units * B.index.length + units ∧
      (vals ≠ [] → units * B.index.length < vals.length) := by
  induction vals using reverseRecOn generalizing B with
  | nil =>
    obtain rfl := Except.ok.inj hrun
    exact ⟨create_stored isSorted, zero_le _, fun h => absurd rfl h⟩
  | append_singleton vals v ih =>
    rw [foldlM_append] at hrun
    obtain ⟨B0, hold, hpush⟩ := ok_of_bind hrun
    obtain ⟨hB0, hle, -⟩ := ih hold
    obtain ⟨hB, hlt', hle'⟩ :=
      hB0.push hunits hle ((bind_pure (pushBack units payload B0 v)).symm.trans hpush)
    exact ⟨hB, hle', fun _ => hlt'⟩

/-! ## Sorted input -/

/-- What `push_back` of a sorted builder accepts. -/
def Accepted (vals : List Nat) : Prop := vals.IsChain (fun a b => a ≤ b ∧ b < a + 2 ^ 51)

/-- The values of block `b`, the last one filled up with the last value. -/
def blockAt (units : Nat) (vals : List Nat) (b : Nat) : List Nat :=
  (vals.drop (units * b)).take units ++
    List.replicate (units - (vals.length - units * b)) (vals.getLastD 0)

/-- The first value of the block behind block `b`, or the last value. -/
def nextValue (units : Nat) (vals : List Nat) (b : Nat) : Nat :=
  vals.getD (units * b + units) (vals.getLastD 0)

theorem blockAt_full (h : units * b + units ≤ vals.length) :
    blockAt units vals b = (vals.drop (units * b)).take units := by
  rw [blockAt, Nat.sub_eq_zero_of_le (by omega), List.replicate_zero, append_nil]

theorem blockAt_append (h : units * b + units ≤ vals.length) (rest : List Nat) :
    blockAt units (vals ++ rest) b = blockAt units vals b := by
  rw [blockAt_full h, blockAt_full (by rw [length_append]; omega),
    drop_append_of_le_length (by omega), take_append_of_le_length]
  rw [length_drop]
  omega

/-- Accepted values ascend, by less than 2^51 at each step. -/
theorem Accepted.getD_le {l : List Nat} (hacc : Accepted l) (i : Nat) {k : Nat}
    (hk : i + k < l.length) :
    l.getD i 0 ≤ l.getD (i + k) 0 ∧ l.getD (i + k) 0 ≤ l.getD i 0 + k * 2 ^ 51 := by
  induction k with
  | zero =>
    rw [Nat.add_zero]
    omega
  | succ k ih =>
    have hstep := isChain_iff_getElem.mp hacc (i + k) (by omega)
    rw [← getD_eq_getElem _ 0, ← getD_eq_getElem _ 0] at hstep
    have hprev := ih (by omega)
    rw [← Nat.add_assoc]
    omega

/-- An accepted value is taken. -/
theorem takeValue_sorted (h : Stored units B vals) (hacc : Accepted (vals ++ [v])) :
    ∃ B', takeValue B v = .ok B' := by
  unfold takeValue
  have hlast : B.lastValue ≤ v ∧ ¬ (0 < B.size ∧ 2 ^ 51 ≤ v - B.lastValue) := by
    rw [h.last, h.size]
    rcases eq_nil_or_concat vals with rfl | ⟨l, a, rfl⟩
    · exact ⟨zero_le v, fun hpos => absurd hpos.1 (lt_irrefl 0)⟩
    · rw [concat_eq_append] at *
      have hrel := (isChain_append.mp hacc).2.2 a (by simp) v (by simp)
      rw [getLastD_concat]
      omega
  rw [if_neg hlast.1.not_gt, if_neg hlast.2]
  exact ⟨_, rfl⟩

variable (payload)

/-- Neighbours of a block that does not cross 2^63 compare as `int64_t` too. -/
theorem signed_iff {l : List Nat} (hacc : Accepted l) (hvals : ∀ x ∈ l, x < 2 ^ 64)
    (hpos : 0 < l.length) : l.IsChain (fun a b : Nat => int64 a ≤ int64 b) ↔
      ¬ (l.getD 0 0 < 2 ^ 63 ∧ 2 ^ 63 ≤ l.getD (l.length - 1) 0) := by
  have hends := hacc.getD_le 0 (k := l.length - 1) (by omega)
  rw [Nat.zero_add] at hends
  have hlast : l.getD (l.length - 1) 0 < 2 ^ 64 := by
    rw [getD_eq_getElem _ _ (by omega)]
    exact hvals _ (getElem_mem _)
  constructor
  · intro hchain
    rw [← int64_le_iff hends.1 hlast]
    have hmap : (l.map (fun a : Nat => int64 a)).IsChain (· ≤ ·) := (isChain_map _).mpr hchain
    rw [getD_eq_getElem _ _ hpos, getD_eq_getElem _ _ (by omega)]
    rcases Nat.eq_zero_or_pos (l.length - 1) with hone | hmore
    · simp only [hone, le_refl]
    · have hle := pairwise_iff_getElem.mp (isChain_iff_pairwise.mp hmap) 0 (l.length - 1)
        (by rw [length_map]; omega) (by rw [length_map]; omega) hmore
      rwa [getElem_map, getElem_map] at hle
  · intro hsame
    refine isChain_iff_getElem.mpr (fun i hi => ?_)
    have hab := (isChain_iff_getElem.mp hacc i hi).1
    have h1 := hacc.getD_le 0 (k := i) (by omega)
    have h2 := hacc.getD_le (i + 1) (k := l.length - 1 - (i + 1)) (by omega)
    rw [Nat.zero_add] at h1
    rw [Nat.add_sub_cancel' (by omega)] at h2
    rw [getD_eq_getElem _ _ (show i < l.length by omega)] at h1
    rw [getD_eq_getElem l 0 hi] at h2
    exact (int64_le_iff hab (hvals _ (getElem_mem hi))).mpr (fun hcross => hsame (by omega))

/-- A full block of ascending values is written if its header can hold it. -/
theorem appendBlock_sorted (hunits : units = 64 ∨ units = 128) (hlen : B.block.length = units)
    (hacc : Accepted (B.block ++ [v])) (hvals : ∀ x ∈ B.block, x < 2 ^ 64) :
    (BlockFits units B.block v ∧ ∃ B', appendBlock units payload B v = .ok B') ∨
      ¬ BlockFits units B.block v ∧ appendBlock units payload B v = .error .abort := by
  have hold : Accepted B.block := hacc.left_of_append
  have hsigned := signed_iff hold hvals (by omega)
  rw [hlen] at hsigned
  have himpl : (BlockFits units B.block v ∧ ∃ bs,
      (if B.block.IsChain (fun a b : Nat => int64 a ≤ int64 b) then appendBlockImpl units B.block
        else appendBlockImplLagrange units B.block v) = .ok bs) ∨
      ¬ BlockFits units B.block v ∧
      (if B.block.IsChain (fun a b : Nat => int64 a ≤ int64 b) then appendBlockImpl units B.block
        else appendBlockImplLagrange units B.block v) = .error .abort := by
    unfold BlockFits
    by_cases hcross : B.block.getD 0 0 < 2 ^ 63 ∧ 2 ^ 63 ≤ B.block.getD (units - 1) 0
    · rw [if_pos hcross, if_neg (fun h => hsigned.mp h hcross)]
      -- the next value is less than 2^62 ahead
      have hmiddle := hacc.getD_le 0 (k := units / 2) (by simp; omega)
      have hnext := hacc.getD_le (units / 2) (k := units - units / 2) (by simp; omega)
      rw [Nat.zero_add, getD_append _ _ _ _ (by omega), getD_append _ _ _ _ (by omega)] at hmiddle
      rw [Nat.add_sub_cancel' (by omega), getD_append _ _ _ _ (by omega),
        getD_append_right _ _ _ _ (by omega), hlen, Nat.sub_self] at hnext
      have hv : [v].getD 0 0 = v := rfl
      rcases hunits with rfl | rfl <;>
        exact appendBlockImplLagrange_eq hmiddle.1 (by omega) (by omega)
    · rw [if_neg hcross, if_pos (hsigned.mpr hcross)]
      have hasc : Ascends B.block := ⟨hold.imp (fun _ _ h => h.1), hvals, hsigned.mpr hcross⟩
      refine appendBlockImpl_eq hunits (hasc.diffs hlen) (getD_of_forall (forall_sortedDiffs
        (p := (· < 2 ^ 51)) (hold.imp (fun a b hab => ?_))) (by decide))
      rw [int64_eq (by omega) (by omega)]
      omega
  unfold appendBlock
  refine himpl.imp (And.imp_right ?_) (And.imp_right ?_)
  · rintro ⟨bs, hbs⟩
    rw [hbs]
    exact ⟨_, rfl⟩
  · intro herr
    rw [herr]
    rfl

/-- An accepted value is taken unless the block before it does not fit. -/
theorem pushBack_sorted (h : Stored units B vals) (hunits : units = 64 ∨ units = 128)
    (hle : vals.length ≤ units * B.index.length + units) (hacc : Accepted (vals ++ [v]))
    (hvals : ∀ x ∈ vals, x < 2 ^ 64) :
    (∃ B', pushBack units payload B v = .ok B' ∧
        (vals.length = units * B.index.length + units → BlockFits units B.block v)) ∨
      pushBack units payload B v = .error .abort ∧
        vals.length = units * B.index.length + units ∧ ¬ BlockFits units B.block v := by
  have hfull := h.full
  have hlen := h.length_block
  unfold pushBack flushBlock
  by_cases hge : B.block.length ≥ units
  · have hacc' : Accepted (B.block ++ [v]) := by
      rw [h.block, ← drop_append_of_le_length hfull]
      exact hacc.drop _
    rw [if_pos hge, if_neg (by omega)]
    rcases appendBlock_sorted payload hunits (by omega) hacc' (fun x hx =>
        hvals x (mem_of_mem_drop (h.block ▸ hx))) with ⟨hfit, B1, happend⟩ | ⟨hno, happend⟩
    · rw [happend]
      obtain ⟨bs, rfl⟩ := appendBlock_ok happend
      obtain ⟨B', hB'⟩ := takeValue_sorted (h.flush (by omega) bs) hacc
      exact .inl ⟨B', hB', fun _ => hfit⟩
    · rw [happend]
      exact .inr ⟨rfl, by omega, hno⟩
  · rw [if_neg hge]
    obtain ⟨B', hB'⟩ := takeValue_sorted h hacc
    exact .inl ⟨B', hB', fun heq => absurd heq (by omega)⟩

theorem block_le {q : Nat} (hb : units * b < n) (hle : n ≤ units * q + units) : b ≤ q :=
  le_of_lt_succ (Nat.lt_of_mul_lt_mul_left (hb.trans_le hle : _ < units * (q + 1)))

theorem nextValue_append (h : units * b + units < vals.length) (rest : List Nat) :
    nextValue units (vals ++ rest) b = nextValue units vals b := by
  unfold nextValue
  rw [getD_append _ _ _ _ h, getD_eq_getElem _ _ h, getD_eq_getElem _ _ h]

/-- **EVERY VALUE IS TAKEN**, unless a full block before it does not fit. -/
theorem pushAll_sorted (hunits : units = 64 ∨ units = 128) (hacc : Accepted vals)
    (hvals : ∀ x ∈ vals, x < 2 ^ 64) :
    (∃ B, vals.foldlM (pushBack units payload) (create true) = .ok B ∧
        ∀ b, units * b + units < vals.length →
          BlockFits units (blockAt units vals b) (nextValue units vals b)) ∨
      vals.foldlM (pushBack units payload) (create true) = .error .abort ∧
        ∃ b, units * b + units < vals.length ∧
          ¬ BlockFits units (blockAt units vals b) (nextValue units vals b) := by
  induction vals using reverseRecOn with
  | nil =>
    exact .inl ⟨create true, rfl, fun b hb => absurd hb (not_lt_zero _)⟩
  | append_singleton vals v ih =>
    have hlen : (vals ++ [v]).length = vals.length + 1 := length_append
    have hvals' : ∀ x ∈ vals, x < 2 ^ 64 := fun x hx => hvals x (mem_append_left _ hx)
    rcases ih hacc.left_of_append hvals' with ⟨B, hrun, hfits⟩ | ⟨hrun, b, hb, hno⟩
    · obtain ⟨hB, hle, hlt⟩ := pushAll_stored (by omega) hrun
      have hstep : (vals ++ [v]).foldlM (pushBack units payload) (create true) =
          pushBack units payload B v := by
        rw [foldlM_append, hrun]
        exact bind_pure (pushBack units payload B v)
      rw [hstep]
      -- a full block is written by the push behind it, whose value is the next block's first
      have hat : vals.length = units * B.index.length + units →
          blockAt units (vals ++ [v]) B.index.length = B.block ∧
            nextValue units (vals ++ [v]) B.index.length = v := by
        intro heq
        constructor
        · rw [blockAt_append heq.ge, blockAt_full heq.ge, hB.block, take_of_length_le]
          rw [length_drop]
          omega
        · rw [nextValue, ← heq, getD_append_right _ _ _ _ le_rfl, Nat.sub_self]
          rfl
      rcases pushBack_sorted payload hB hunits hle hacc hvals' with
        ⟨B', hpush, hfit⟩ | ⟨hpush, heq, hno⟩
      · refine .inl ⟨B', hpush, fun b hb => ?_⟩
        by_cases hold : units * b + units < vals.length
        · rw [blockAt_append hold.le, nextValue_append hold]
          exact hfits b hold
        have hne : vals ≠ [] := by
          rintro rfl
          simp at hb hold
          omega
        obtain rfl : b = B.index.length :=
          le_antisymm (block_le (by omega) hle) (block_le (hlt hne) (by omega))
        have heq : vals.length = units * B.index.length + units := by omega
        rw [(hat heq).1, (hat heq).2]
        exact hfit heq
      -- the block that does not fit aborts here
      · refine .inr ⟨hpush, B.index.length, by omega, ?_⟩
        rwa [(hat heq).1, (hat heq).2]
    · refine .inr ⟨?_, b, by omega, ?_⟩
      · rw [foldlM_append, hrun]
        rfl
      · rwa [blockAt_append (by omega), nextValue_append hb]

/-- Packing the index never aborts. -/
theorem finishIndex_ne_abort (B : Builder) : finishIndex B ≠ .error .abort := by
  unfold finishIndex
  dsimp only
  split
  · simp
  · split <;> simp

/-- `finish` fills the last block up. -/
theorem Stored.lastBlock (h : Stored units B vals)
    (hle : vals.length ≤ units * B.index.length + units) :
    B.block ++ List.replicate (units - B.block.length) B.lastValue =
      blockAt units vals B.index.length := by
  rw [h.block, h.last, blockAt, take_of_length_le, length_drop]
  rw [length_drop]
  omega

theorem mem_of_getLastD {l : List Nat} (hne : l ≠ []) : l.getLastD 0 ∈ l := by
  rw [getLastD_eq_getLast?, getLast?_eq_some_getLast hne]
  exact getLast_mem hne

/-- The last block ascends in the same way, also with the last value behind it. -/
theorem blockAt_accepted (hacc : Accepted vals) (hb : units * b < vals.length)
    (hend : vals.length ≤ units * b + units) :
    Accepted (blockAt units vals b ++ [vals.getLastD 0]) := by
  have hrest : (vals.drop (units * b)).take units = vals.drop (units * b) := by
    refine take_of_length_le ?_
    rw [length_drop]
    omega
  have hlast : (vals.drop (units * b)).getLastD 0 = vals.getLastD 0 := by
    rw [getLastD_eq_getLast?, getLastD_eq_getLast?, getLast?_drop, if_neg (by omega)]
  rw [blockAt, hrest, List.append_assoc, ← List.replicate_succ']
  refine (hacc.drop _).append (isChain_replicate_of_rel _ ⟨le_rfl, by omega⟩) (fun x hx y hy => ?_)
  rw [eq_of_mem_replicate (mem_of_head? hy), ← hlast, getLastD_eq_getLast?, hx]
  exact ⟨le_rfl, by simp⟩

theorem blockAt_lt (hvals : ∀ x ∈ vals, x < 2 ^ 64) (hne : vals ≠ []) :
    ∀ x ∈ blockAt units vals b, x < 2 ^ 64 := by
  intro x hx
  rcases mem_append.mp hx with hx | hx
  · exact hvals x (mem_of_mem_drop (mem_of_mem_take hx))
  · rw [eq_of_mem_replicate hx]
    exact hvals _ (mem_of_getLastD hne)

/-- **NO ACCEPTED INPUT ABORTS** exactly when the header of every block can hold what it has to:
    the low water of the differences or, for a block that crosses 2^63, the middle value. -/
theorem sorted_input_aborts_iff (hunits : units = 64 ∨ units = 128) (hacc : Accepted vals)
    (hvals : ∀ x ∈ vals, x < 2 ^ 64) :
    build units payload true vals ≠ .error .abort ↔ ∀ b, units * b < vals.length →
      BlockFits units (blockAt units vals b) (nextValue units vals b) := by
  unfold build
  rcases pushAll_sorted payload hunits hacc hvals with
    ⟨B, hrun, hfits⟩ | ⟨hrun, b, hb, hno⟩
  · obtain ⟨hB, hle, hlt⟩ := pushAll_stored (by omega) hrun
    rw [hrun]
    show (finishBlock units payload B).bind finishIndex ≠ _ ↔ _
    unfold finishBlock
    by_cases hnil : vals = []
    · subst hnil
      rw [if_neg (by rw [hB.block]; simp)]
      exact iff_of_true (finishIndex_ne_abort _) (fun b hb => absurd hb (not_lt_zero _))
    have hlt := hlt hnil
    have hlen := hB.length_block
    have hlast := hB.lastBlock hle
    have hfull : (blockAt units vals B.index.length).length = units := by
      rw [← hlast, length_append, length_replicate]
      omega
    have hnext : nextValue units vals B.index.length = B.lastValue := by
      rw [nextValue, getD_eq_default _ _ hle, hB.last]
    rw [if_pos (by omega), hlast]
    rcases appendBlock_sorted payload (v := B.lastValue) (B := { B with
        block := blockAt units vals B.index.length }) hunits hfull
        (hB.last ▸ blockAt_accepted hacc hlt hle) (blockAt_lt hvals hnil) with
      ⟨hfit, B1, happend⟩ | ⟨hno, happend⟩
    · rw [happend]
      refine iff_of_true (finishIndex_ne_abort _) (fun b hb => ?_)
      by_cases hold : units * b + units < vals.length
      · exact hfits b hold
      · obtain rfl : b = B.index.length :=
          le_antisymm (block_le hb hle) (block_le hlt (by omega))
        rw [hnext]
        exact hfit
    · rw [happend]
      exact iff_of_false (fun h => h rfl) (fun h => hno (hnext ▸ h _ hlt))
  · rw [hrun]
    exact iff_of_false (fun h => h rfl) (fun h => hno (h b (by omega)))

/-- Two blocks, the first of which crosses 2^63. -/
theorem sorted_input_squares :
    build 64 (fun _ _ => []) true ((List.range 100).map (fun i => 2 ^ 63 - 30 + i * i)) ≠
      .error .abort := by
  refine (sorted_input_aborts_iff _ (.inl rfl) (by unfold Accepted; decide +kernel)
    (by decide +kernel)).mpr (fun b hb => ?_)
  rw [length_map, List.length_range] at hb
  obtain rfl | rfl : b = 0 ∨ b = 1 := by omega
  all_goals unfold BlockFits
  · rw [if_pos (by decide +kernel)]
    unfold MiddleFits
    decide +kernel
  · rw [if_neg (by decide +kernel)]
    unfold LowWaterFits
    rw [if_neg (by decide +kernel)]
    exact .inl (by decide +kernel)

/-- 64 values at distances of 2^50 are accepted one by one, and `finish` aborts; so it does for
    64 values around 2^63, one half 2^50 above the other. -/
theorem sorted_input_wide_aborts :
    (Accepted ((List.range 64).map (fun i => i * 2 ^ 50)) ∧
      build 64 (fun _ _ => []) true ((List.range 64).map (fun i => i * 2 ^ 50)) = .error .abort) ∧
    Accepted (List.replicate 32 (2 ^ 63 - 1) ++ List.replicate 32 (2 ^ 63 - 1 + 2 ^ 50)) ∧
      build 64 (fun _ _ => []) true
        (List.replicate 32 (2 ^ 63 - 1) ++ List.replicate 32 (2 ^ 63 - 1 + 2 ^ 50)) =
          .error .abort :=
  ⟨⟨by unfold Accepted; decide +kernel, by decide +kernel⟩, by unfold Accepted; decide +kernel,
    by decide +kernel⟩

/-! ## The samples -/

/-- `bitpos` of `s_get_block_min_val` -/
def samplePos (vec : Vec) (blockIdx : Nat) : Nat :=
  (vec.offsetWidth + vec.sampleWidth) * (blockIdx + 1) - vec.sampleWidth

/-- `_bextr_u64` -/
def bextrU64 (val : BitVec 64) (start len : Nat) : BitVec 64 :=
  val >>> start &&& (if len < 64 then ~~~(allOnes 64 <<< len) else allOnes 64)

/-- `get_block_min_val` on x86-64, with or without the BMI instructions: a shift by 64 is
    undefined. -/
def getBlockMinVal (bmi : Bool) (vec : Vec) (blockIdx : Nat) : Option (BitVec 64) :=
  let bitpos := samplePos vec blockIdx
  (loadWord vec.index (bitpos / 8)).bind (fun val =>
    if bmi then some (bextrU64 val (bitpos % 8) vec.sampleWidth)
    else if vec.sampleWidth < 64 then
      some (val >>> (bitpos % 8) &&& ~~~(allOnes 64 <<< vec.sampleWidth))
    else none)

/-- `get`: the sample and, behind the first value of a block, what the units before `subIdx`
    add. -/
def get (units : Nat) (unitsBefore : Nat → Nat → BitVec 64) (vec : Vec) (idx : Nat) :
    Option (BitVec 64) :=
  let blockIdx := idx / units
  let subIdx := idx % units
  let indexBitPos := (vec.offsetWidth + vec.sampleWidth) * blockIdx + vec.offsetWidth
  (sGetUint vec.index indexBitPos vec.sampleWidth).map (fun sample0 =>
    if subIdx = 0 then sample0 else sample0 + unitsBefore blockIdx subIdx)

/-- One load from the byte where the sample begins stays in the index and holds the sample. -/
def SampleInWord (bmi : Bool) (vec : Vec) (blockIdx sample : Nat) : Prop :=
  samplePos vec blockIdx / 8 + 8 ≤ vec.index.length ∧ (bmi = true ∨ vec.sampleWidth < 64) ∧
    sample < 2 ^ (64 - samplePos vec blockIdx % 8)

variable {payload}

/-- **THE INDEX** holds the entries one after the other. -/
theorem writeIndex_eq {offsetWidth sampleWidth : Nat} (ho : 0 < offsetWidth ∧ offsetWidth ≤ 64)
    (hs : 0 < sampleWidth ∧ sampleWidth ≤ 64) (items : List (Nat × Nat)) :
    ∀ (bitpos : Nat) {base : List Byte}, 8 ∣ base.length →
      bitpos + (offsetWidth + sampleWidth) * items.length ≤ 8 * base.length →
      (∀ item ∈ items, item.1 < 2 ^ offsetWidth ∧ item.2 < 2 ^ sampleWidth) →
      ∃ base', writeIndex offsetWidth sampleWidth items bitpos base = some base' ∧
        base'.length = base.length ∧ (∀ i < bitpos, bit base' i = bit base i) ∧
        ∀ b item, items[b]? = some item → ∀ j < sampleWidth,
          bit base' (bitpos + (offsetWidth + sampleWidth) * b + offsetWidth + j) =
            (BitVec.ofNat 64 item.2).getLsbD j := by
  induction items with
  | nil =>
    intro bitpos base _ _ _
    exact ⟨base, rfl, rfl, fun _ _ => rfl, fun b item h => by cases h⟩
  | cons item rest ih =>
    intro bitpos base halign hroom hfit
    have hfits : ∀ {x w : Nat}, x < 2 ^ w → Fits w (BitVec.ofNat 64 x) := by
      intro x w hx
      refine fits_of_lt (lt_of_le_of_lt ?_ hx)
      exact mod_le _ _
    obtain ⟨hitem, hrest⟩ := forall_mem_cons.mp hfit
    rw [length_cons, Nat.mul_succ] at hroom
    -- the offset of the block, then its sample
    obtain ⟨base1, hset1, hlen1, -, hkeep1⟩ := sSetUint_eq halign
      (show bitpos < 8 * base.length by omega) (by omega) ho.2 (hfits hitem.1)
    obtain ⟨base2, hset2, hlen2, hbits2, hkeep2⟩ := sSetUint_eq (hlen1 ▸ halign)
      (show bitpos + offsetWidth < 8 * base1.length by omega) (by omega) hs.2 (hfits hitem.2)
    obtain ⟨base', hwrite, hlen, hkeep, hbits⟩ := ih (bitpos + offsetWidth + sampleWidth)
      (hlen2 ▸ hlen1 ▸ halign) (by omega) hrest
    refine ⟨base', ?_, by omega, fun i hi => ?_, fun b it hb j hj => ?_⟩
    · rw [writeIndex, hset1, bind_some, hset2, bind_some, hwrite]
    · rw [hkeep i (by omega), hkeep2 i (by omega), hkeep1 i (by omega)]
    cases b with
    | zero =>
      obtain rfl := some.inj hb
      rw [Nat.mul_zero, add_zero, hkeep _ (by omega), hbits2 j hj]
    | succ b =>
      rw [← hbits b it hb j hj, Nat.mul_succ]
      congr 1
      omega

/-- The index that `finish` packs: one entry for each block and one more. -/
theorem finishBlock_ok (hunits : 0 < units) (h : Stored units B vals)
    (hle : vals.length ≤ units * B.index.length + units)
    (hlt : vals ≠ [] → units * B.index.length < vals.length)
    (hfinish : finishBlock units payload B = .ok B') :
    B'.maxValue = B.maxValue ∧ B'.size = B.size ∧ ∃ index,
      B'.index = index ++ [(B'.data.length, B.lastValue)] ∧
      Entries units vals B'.data.length index ∧
        ∀ b, b < index.length ↔ units * b < vals.length := by
  have hlen := h.length_block
  have hfull := h.full
  unfold finishBlock at hfinish
  by_cases hnil : vals = []
  · subst hnil
    rw [if_neg (by rw [h.block]; simp)] at hfinish
    obtain rfl := Except.ok.inj hfinish
    refine ⟨rfl, rfl, B.index, rfl, h.index, fun b => iff_of_false ?_ (not_lt_zero _)⟩
    intro hb
    have hone : units * (b + 1) ≤ 0 := le_trans (mul_le_mul_left units hb) hfull
    rw [Nat.mul_succ] at hone
    omega
  have hlt := hlt hnil
  rw [if_pos (by omega)] at hfinish
  obtain ⟨B1, happend, rfl⟩ := ok_of_map hfinish
  obtain ⟨bs, rfl⟩ := appendBlock_ok happend
  refine ⟨rfl, rfl, _, rfl, ?_, fun b => ?_⟩
  · show Entries units vals (B.data ++ bs).length
      (B.index ++ [(_, (B.block ++ List.replicate _ _).getD 0 0)])
    rw [getD_append _ _ _ _ (by omega), h.first, length_append]
    exact h.index.snoc bs.length
  · rw [length_append, length_singleton]
    refine ⟨fun hb => lt_of_le_of_lt ?_ hlt, fun hb => ?_⟩
    · exact mul_le_mul_left units (le_of_lt_succ hb)
    · exact lt_succ_of_le (block_le hb hle)

/-- A number fits the width that is made from it. -/
theorem lt_width {x y : Nat} (hy : y ≤ x) : y < 2 ^ (1 + log2 x) := by
  rw [add_comm]
  exact hy.trans_lt lt_log2_self

theorem width_le {x k : Nat} (hk : 0 < k) (hx : x < 2 ^ k) : 0 < 1 + log2 x ∧ 1 + log2 x ≤ k := by
  refine ⟨by omega, ?_⟩
  rcases Nat.eq_zero_or_pos x with rfl | hpos
  · exact hk
  · have := (log2_lt (by omega)).mpr hx
    omega

/-- The fields of the vector, and the samples in its index. -/
theorem finishIndex_ok (hitems : ∀ item ∈ B.index,
      item.1 ≤ B.data.length ∧ item.2 ≤ B.maxValue) (hmax : B.maxValue < 2 ^ 64)
    (hfinish : finishIndex B = .ok vec) :
    vec.size = B.size ∧ 8 ∣ vec.index.length ∧
      (vec.offsetWidth + vec.sampleWidth) * B.index.length ≤ 8 * vec.index.length ∧
      vec.sampleWidth = 1 + log2 B.maxValue ∧
      ∀ b item, B.index[b]? = some item → ∀ j < vec.sampleWidth,
        bit vec.index ((vec.offsetWidth + vec.sampleWidth) * b + vec.offsetWidth + j) =
          (BitVec.ofNat 64 item.2).getLsbD j := by
  unfold finishIndex at hfinish
  dsimp only at hfinish
  generalize hdata : (B.data.length + 14) / 8 * 8 = dataBytes at hfinish
  by_cases hroom : 2 ^ 64 ≤ dataBytes
  · rw [if_pos hroom] at hfinish
    cases hfinish
  rw [if_neg hroom] at hfinish
  have ho := width_le (x := dataBytes) (show 0 < 64 by decide) (by omega)
  have hs := width_le (show 0 < 64 by decide) hmax
  generalize hW : (1 + log2 dataBytes + (1 + log2 B.maxValue)) * B.index.length = n at *
  generalize hbase : List.replicate _ _ = base at hfinish
  have hbytes := congrArg length hbase
  rw [length_replicate] at hbytes
  obtain ⟨index, hwrite, hlen, -, hbits⟩ := writeIndex_eq ho hs B.index 0
    (show 8 ∣ base.length by omega) (by omega) (fun item hitem => by
      obtain ⟨h1, h2⟩ := hitems item hitem
      exact ⟨lt_width (by omega), lt_width h2⟩)
  rw [hwrite] at hfinish
  obtain rfl := Except.ok.inj hfinish
  refine ⟨rfl, ?_, ?_, rfl, fun b item hb j hj => ?_⟩
  · show 8 ∣ index.length
    omega
  · show _ * _ ≤ 8 * index.length
    rw [hW]
    omega
  · have := hbits b item hb j hj
    rwa [zero_add] at this

/-- **WHAT FINISH LEAVES**: the first value of every block is in the index. -/
theorem build_index (hunits : 0 < units) (hbuild : build units payload isSorted vals = .ok vec)
    (hvals : ∀ x ∈ vals, x < 2 ^ 64) :
    vec.size = vals.length ∧ 8 ∣ vec.index.length ∧
      (∀ k, 0 < k → (∀ x ∈ vals, x < 2 ^ k) → 0 < vec.sampleWidth ∧ vec.sampleWidth ≤ k) ∧
      ∀ b, units * b < vals.length →
        vals.getD (units * b) 0 < 2 ^ vec.sampleWidth ∧
        (vec.offsetWidth + vec.sampleWidth) * (b + 1) ≤ 8 * vec.index.length ∧
        ∀ j < vec.sampleWidth,
          bit vec.index ((vec.offsetWidth + vec.sampleWidth) * b + vec.offsetWidth + j) =
            (BitVec.ofNat 64 (vals.getD (units * b) 0)).getLsbD j := by
  unfold build at hbuild
  obtain ⟨B, hrun, hbuild⟩ := ok_of_bind hbuild
  obtain ⟨B', hfinish, hbuild⟩ := ok_of_bind hbuild
  obtain ⟨hB, hle, hlt⟩ := pushAll_stored hunits hrun
  obtain ⟨hmax, hsize, index, hindex, hentries, hblocks⟩ := finishBlock_ok hunits hB hle hlt hfinish
  have hmem : ∀ b, units * b < vals.length → vals.getD (units * b) 0 ≤ B'.maxValue := by
    intro b hb
    rw [getD_eq_getElem _ _ hb, hmax]
    exact hB.le_max _ (getElem_mem hb)
  have hlast : B.lastValue ≤ B'.maxValue := by
    rw [hB.last, hmax]
    rcases eq_nil_or_concat vals with rfl | ⟨l, a, rfl⟩
    · exact zero_le _
    · exact hB.le_max _ (by simp)
  -- every entry fits the widths that `finish` computes
  have hitems : ∀ item ∈ B'.index, item.1 ≤ B'.data.length ∧ item.2 ≤ B'.maxValue := by
    intro item hitem
    rw [hindex] at hitem
    rcases mem_append.mp hitem with hold | hnew
    · obtain ⟨b, hb, hget⟩ := getElem_of_mem hold
      obtain ⟨offset, hoffset, hentry⟩ := hentries b hb
      rw [List.getElem?_eq_getElem hb, hget] at hentry
      obtain rfl := some.inj hentry
      exact ⟨hoffset, hmem b ((hblocks b).mp hb)⟩
    · obtain rfl := mem_singleton.mp hnew
      exact ⟨le_rfl, hlast⟩
  have hbound : ∀ k, (∀ x ∈ vals, x < 2 ^ k) → B'.maxValue < 2 ^ k := by
    intro k hk
    rw [hmax]
    rcases hB.top with h0 | hin
    · exact h0 ▸ Nat.two_pow_pos k
    · exact hk _ hin
  obtain ⟨hvec, halign, hroom, hs, hbits⟩ := finishIndex_ok hitems (hbound 64 hvals) hbuild
  refine ⟨by rw [hvec, hsize, hB.size], halign, fun k hk hlt => hs ▸ width_le hk (hbound k hlt),
    fun b hb => ⟨?_, ?_, ?_⟩⟩
  · rw [hs]
    exact lt_width (hmem b hb)
  · refine le_trans (mul_le_mul_left _ ?_) hroom
    rw [hindex, length_append]
    exact succ_le_succ (le_of_lt ((hblocks b).mpr hb))
  · obtain ⟨offset, -, hentry⟩ := hentries b ((hblocks b).mpr hb)
    refine hbits b (offset, vals.getD (units * b) 0) ?_
    rw [hindex, getElem?_append_left ((hblocks b).mpr hb), hentry]

/-- A field cut from one word is the sample if the sample has no bits behind the word. -/
theorem bextrU64_eq_iff {val : BitVec 64} {start len sample : Nat} (hstart : start ≤ 64)
    (h64 : sample < 2 ^ 64) (hfits : Fits len (BitVec.ofNat 64 sample))
    (hval : ∀ j < len, start + j < 64 →
      val.getLsbD (start + j) = (BitVec.ofNat 64 sample).getLsbD j) :
    bextrU64 val start len = BitVec.ofNat 64 sample ↔ sample < 2 ^ (64 - start) := by
  have hnat : (BitVec.ofNat 64 sample).toNat = sample := by
    rw [toNat_ofNat, mod_eq_of_lt h64]
  constructor
  · intro heq
    rw [← hnat, ← heq, bextrU64, toNat_and, toNat_ushiftRight, shiftRight_eq_div_pow]
    refine and_le_left.trans_lt (Nat.div_lt_of_lt_mul ?_)
    rw [← pow_add, Nat.add_sub_cancel' hstart]
    exact val.isLt
  intro hlt
  refine hfits.and_mask (widthMask_getLsbD len) (fun j hj => ?_)
  rw [getLsbD_ushiftRight]
  by_cases hword : start + j < 64
  · exact hval j hj hword
  · rw [getLsbD_of_ge _ _ (by omega), fits_of_lt (hnat.symm ▸ hlt) j (by omega)]

/-- Where the sample of a block begins. -/
theorem samplePos_eq (vec : Vec) (b : Nat) :
    samplePos vec b = (vec.offsetWidth + vec.sampleWidth) * b + vec.offsetWidth := by
  rw [samplePos, Nat.mul_succ]
  omega

section Samples

variable (hunits : 0 < units) {isSorted : Bool} {vec : Vec}
  (hbuild : build units payload isSorted vals = .ok vec) (hvals : ∀ x ∈ vals, x < 2 ^ 64)

include hunits hbuild hvals

/-- `get` at the first place of a block finds the first value. -/
theorem get_first (unitsBefore : Nat → Nat → BitVec 64) (hb : units * b < vals.length) :
    get units unitsBefore vec (units * b) = some (BitVec.ofNat 64 (vals.getD (units * b) 0)) := by
  obtain ⟨-, halign, hwidth, hblocks⟩ := build_index hunits hbuild hvals
  obtain ⟨hfit, hroom, hbits⟩ := hblocks b hb
  have hs := hwidth 64 (by decide) hvals
  rw [Nat.mul_succ] at hroom
  have h64 := hfit.trans_le (Nat.pow_le_pow_right (by decide) hs.2)
  have hfits : Fits vec.sampleWidth (BitVec.ofNat 64 (vals.getD (units * b) 0)) := by
    refine fits_of_lt ?_
    rwa [toNat_ofNat, mod_eq_of_lt h64]
  unfold get
  dsimp only
  rw [Nat.mul_div_cancel_left b hunits, mul_mod_right,
    sGetUint_eq halign (by omega) (by omega) hs.2 hfits hbits]
  rfl

/-- `get_block_min_val` finds it exactly when one load holds the sample. -/
theorem getBlockMinVal_eq_iff (bmi : Bool) (hb : units * b < vals.length) :
    getBlockMinVal bmi vec b = some (BitVec.ofNat 64 (vals.getD (units * b) 0)) ↔
      SampleInWord bmi vec b (vals.getD (units * b) 0) := by
  obtain ⟨-, -, hwidth, hblocks⟩ := build_index hunits hbuild hvals
  obtain ⟨hfit, -, hbits⟩ := hblocks b hb
  rw [← samplePos_eq] at hbits
  generalize vals.getD (units * b) 0 = sample at *
  have hs := hwidth 64 (by decide) hvals
  have h64 : sample < 2 ^ 64 := hfit.trans_le (Nat.pow_le_pow_right (by decide) hs.2)
  have hfits : Fits vec.sampleWidth (BitVec.ofNat 64 sample) := by
    refine fits_of_lt ?_
    rwa [toNat_ofNat, mod_eq_of_lt h64]
  unfold getBlockMinVal SampleInWord
  dsimp only
  generalize samplePos vec b = bitpos at *
  by_cases hin : bitpos / 8 + 8 ≤ vec.index.length
  · obtain ⟨val, hload, hval⟩ := loadWord_eq hin
    rw [hload, bind_some, and_iff_right hin]
    -- without BMI the mask of 64 bits is a shift by 64, which is undefined
    by_cases hdef : bmi = true ∨ vec.sampleWidth < 64
    · have hread : (if bmi then some (bextrU64 val (bitpos % 8) vec.sampleWidth)
          else if vec.sampleWidth < 64 then
            some (val >>> (bitpos % 8) &&& ~~~(allOnes 64 <<< vec.sampleWidth))
          else none) = some (bextrU64 val (bitpos % 8) vec.sampleWidth) := by
        cases bmi with
        | true => rfl
        | false =>
          have hlt : vec.sampleWidth < 64 := hdef.resolve_left Bool.false_ne_true
          rw [if_neg Bool.false_ne_true, if_pos hlt, bextrU64, if_pos hlt]
      rw [hread, some_inj, and_iff_right hdef]
      refine bextrU64_eq_iff (by omega) h64 hfits (fun j hj hword => ?_)
      rw [hval _ hword, ← hbits j hj]
      congr 1
      omega
    · have hno : bmi = false := by simpa using fun h => hdef (.inl h)
      rw [hno, if_neg (fun h => hdef (.inr h))]
      exact iff_of_false (some_ne_none _).symm (fun h => hdef (hno ▸ h.1))
  · rw [loadWord, Memory.read, if_neg hin]
    exact iff_of_false (some_ne_none _).symm (fun h => hin h.1)

end Samples

/-- **THE SAMPLE IS THE FIRST VALUE OF THE BLOCK** exactly when one load holds it. -/
theorem block_min_val_iff (hunits : units = 64 ∨ units = 128) {isSorted : Bool} {vec : Vec}
    (hbuild : build units payload isSorted vals = .ok vec) (hvals : ∀ x ∈ vals, x < 2 ^ 64)
    (unitsBefore : Nat → Nat → BitVec 64) (bmi : Bool) {b : Nat} (hb : units * b < vec.size) :
    getBlockMinVal bmi vec b = get units unitsBefore vec (units * b) ↔
      SampleInWord bmi vec b (vals.getD (units * b) 0) := by
  have hpos : 0 < units := by omega
  have hsize := (build_index hpos hbuild hvals).1
  rw [get_first hpos hbuild hvals unitsBefore (by omega)]
  exact getBlockMinVal_eq_iff hpos hbuild hvals bmi (by omega)

/-- The samples of 130 values in three blocks: the second begins with the value at 64. -/
theorem block_min_val_three_blocks :
    getBlockMinVal false ⟨130, 5, 9, [160, 128, 40, 70, 10, 27, 196, 0, 0, 0, 0, 0, 0, 0, 0, 0]⟩ 1 =
      get 64 (fun _ _ => 0)
        ⟨130, 5, 9, [160, 128, 40, 70, 10, 27, 196, 0, 0, 0, 0, 0, 0, 0, 0, 0]⟩ (64 * 1) :=
  (block_min_val_iff (.inl rfl) (by decide +kernel :
    build 64 (fun _ _ => []) true ((List.range 130).map (fun i => 5 + 3 * i)) = .ok ⟨130, 5, 9, _⟩)
    (by decide +kernel) (fun _ _ => 0) false (b := 1) (by decide)).mpr
    (by unfold SampleInWord; decide +kernel)

/-- One value of 64 bits: the entry of its block has the sample at bit 5, and the top bits of the
    sample are not in the first word. -/
theorem block_min_val_wide_differs :
    (build 64 (fun _ _ => []) true [2 ^ 63]).toOption.bind (fun vec => getBlockMinVal true vec 0) =
        some 0#64 ∧
      (build 64 (fun _ _ => []) true [2 ^ 63]).toOption.bind
        (fun vec => get 64 (fun _ _ => 0) vec 0) = some 9223372036854775808#64 := by
  decide +kernel

end SortedUintVec
