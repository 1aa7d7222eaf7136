import Mathlib.Data.Fin.VecNotation
import ToplingArk.BitCountProofs
import ToplingArk.SearchProofs

/-! # The word tools of the rank/select classes

    The parts of `bitmanip.hpp` and `rank_select_basic.hpp` that every
    rank/select class shares: population counts of a word and of its low bits,
    `UintSelect1`, clearing a range of bits, and the selection inside one
    256-bit line once the line is known.  Machine words are `BitVec 64`;
    `size_t` values are naturals, with `wsub` for the one operation that can
    wrap. -/

namespace RankSelectLine

open BitCount Search Function BitVec Nat

/-- `size_t` subtraction (of two `size_t` values). -/
def wsub (a b : Nat) : Nat := if b ≤ a then a - b else a + 2 ^ 64 - b

variable {b i k a j : Nat}

theorem wsub_eq (hba : b ≤ a) : wsub a b = a - b := if_pos hba

theorem wsub_wrap (hab : a < b) : wsub a b = a + 2 ^ 64 - b :=
  if_neg (Nat.not_le_of_lt hab)

/-- The zeros by subtraction. -/
theorem wsub_ones (F : Nat → Bool) (n : Nat) : wsub n (ones F n) = ones (negBits F) n := by
  have h := ones_add_negBits F n
  rw [wsub_eq (by omega)]
  omega

variable (x : BitVec 64)

theorem wsub_count (B : List Bool) : wsub B.length (B.count true) = B.count false := by
  rw [← ones_ofList, wsub_ones, ones_negBits_ofList]

/-- `fast_popcount` -/
def fastPopcount : Nat := popcount x

/-- `fast_popcount_trail`: the ones among the low `n` bits -/
def fastPopcountTrail (n : Nat) : Nat :=
  fastPopcount (x &&& ~~~ (allOnes 64 <<< n))

/-- `UintSelect1`; asking for a one the word does not have is undefined. -/
def uintSelect1 (r : Nat) : Option Nat := selectBit x r

/-- The mask `-1 << i` has the bits from `i` on. -/
private theorem getLsbD_onesFrom (hb : b < 64) :
    (allOnes 64 <<< i).getLsbD b = decide (i ≤ b) := by
  rw [getLsbD_shiftLeft, getLsbD_allOnes, decide_eq_true hb,
    decide_eq_true (show b - i < 64 by omega)]
  by_cases h : i ≤ b
  · simp [h]
  · simp [not_le.mp h]

/-- The mask `-2 << k` has the bits after `k`. -/
private theorem getLsbD_onesAfter (hb : b < 64) :
    ((allOnes 64 <<< 1) <<< k).getLsbD b = decide (k < b) := by
  rw [getLsbD_shiftLeft, getLsbD_onesFrom (by omega), decide_eq_true hb]
  by_cases h : k < b
  · have h1 : ¬ b < k := by omega
    have h2 : 1 ≤ b - k := by omega
    simp [h, h1, h2]
  · have h2 : ¬ 1 ≤ b - k := by omega
    simp [h, h2]

/-- The mask below `-1 << i` has the bits before `i`. -/
private theorem getLsbD_onesBelow (hb : b < 64) :
    (~~~ (allOnes 64 <<< i)).getLsbD b = decide (b < i) := by
  rw [getLsbD_not, getLsbD_onesFrom hb, decide_eq_true hb, Bool.true_and, ← decide_not]
  simp only [not_le]

/-- The ones among the lowest `n` bits. -/
theorem fastPopcountTrail_eq {n : Nat} (hn : n ≤ 64) :
    fastPopcountTrail x n = ones x.getLsbD n := by
  unfold fastPopcountTrail fastPopcount popcount
  rw [ones_eq_of_zeros hn]
  · refine ones_congr (fun i hi => ?_)
    rw [getLsbD_and, getLsbD_onesBelow (by omega), decide_eq_true hi, Bool.and_true]
  · intro i h1 h2
    rw [getLsbD_and, getLsbD_onesBelow h2, decide_eq_false (by omega), Bool.and_false]

/-! ## Clearing a range of bits -/

/-- `while (j < k / UintBits) data[j++] = 0;` over `cnt` words -/
def zeroWords (data : Nat → BitVec 64) (j : Nat) : Nat → (Nat → BitVec 64)
  | 0 => data
  | cnt + 1 => zeroWords (update data j 0) (j + 1) cnt

/-- `bits_range_set0`: clear the bits `[i, k)` of the words at `data`. -/
def bitsRangeSet0 (data : Nat → BitVec 64) (i k : Nat) : Nat → BitVec 64 :=
  if i = k then data
  else
    let j := i / 64
    if j = (k - 1) / 64 then
      update data j
        (data j &&& (~~~ (allOnes 64 <<< (i % 64)) |||
          ((allOnes 64 <<< 1) <<< ((k - 1) % 64))))
    else
      let data' := if i % 64 ≠ 0 then
        update data j (data j &&& ~~~ (allOnes 64 <<< (i % 64))) else data
      let j' := if i % 64 ≠ 0 then j + 1 else j
      let data'' := zeroWords data' j' (k / 64 - j')
      if k % 64 ≠ 0 then
        update data'' (k / 64) (data'' (k / 64) &&& (allOnes 64 <<< (k % 64)))
      else data''

/-- A range of words is cleared. -/
theorem zeroWords_apply (data : Nat → BitVec 64) (j cnt m : Nat) :
    zeroWords data j cnt m = if j ≤ m ∧ m < j + cnt then 0 else data m := by
  induction cnt generalizing data j with
  | zero =>
    rw [if_neg (by omega)]
    rfl
  | succ cnt ih =>
    show zeroWords (update data j 0) (j + 1) cnt m = _
    rw [ih]
    split
    · rw [if_pos (by omega)]
    · by_cases h2 : m = j
      · rw [h2, update_self, if_pos (by omega)]
      · rw [update_of_ne h2, if_neg (by omega)]

/-- A word that is masked loses the bits outside the mask. -/
theorem wordBits_mask (data : Nat → BitVec 64) (j : Nat) (mask : BitVec 64) (p : Nat) :
    wordBits (update data j (data j &&& mask)) p =
      if p / 64 = j ∧ mask.getLsbD (p % 64) = false then false else wordBits data p := by
  unfold wordBits
  by_cases hp : p / 64 = j
  · rw [hp, update_self, getLsbD_and]
    cases mask.getLsbD (p % 64) <;> simp
  · rw [update_of_ne hp, if_neg (fun h => hp h.1)]

/-- **`bits_range_set0` CLEARS EXACTLY ITS RANGE.** -/
theorem wordBits_bitsRangeSet0 (data : Nat → BitVec 64) (hik : i ≤ k) (p : Nat) :
    wordBits (bitsRangeSet0 data i k) p
      = if i ≤ p ∧ p < k then false else wordBits data p := by
  unfold bitsRangeSet0
  split
  · rw [if_neg (by omega)]
  have hb : p % 64 < 64 := mod_lt _ (by decide)
  dsimp only
  by_cases hone : i / 64 = (k - 1) / 64
  · -- the range lies inside one word
    rw [if_pos hone, wordBits_mask, getLsbD_or, getLsbD_onesBelow hb, getLsbD_onesAfter hb]
    refine if_congr ?_ rfl rfl
    simp only [Bool.or_eq_false_iff, decide_eq_false_iff_not]
    omega
  rw [if_neg hone]
  have hj : (if i % 64 ≠ 0 then i / 64 + 1 else i / 64) = (i + 63) / 64 := by
    split <;> omega
  have hfirst : wordBits (if i % 64 ≠ 0 then update data (i / 64)
      (data (i / 64) &&& ~~~ (allOnes 64 <<< (i % 64))) else data) p =
      if p / 64 = i / 64 ∧ i % 64 ≠ 0 ∧ i % 64 ≤ p % 64 then false else wordBits data p := by
    split
    · rw [wordBits_mask, getLsbD_onesBelow hb]
      refine if_congr ?_ rfl rfl
      rw [decide_eq_false_iff_not]
      omega
    · rw [if_neg (by omega)]
  -- the words in between
  have hzero : ∀ data j cnt, wordBits (zeroWords data j cnt) p =
      if j ≤ p / 64 ∧ p / 64 < j + cnt then false else wordBits data p := by
    intro data j cnt
    unfold wordBits
    rw [zeroWords_apply]
    split <;> simp
  rw [hj]
  -- the last word, when the range ends inside it
  split
  · rw [wordBits_mask, getLsbD_onesFrom hb, hzero, hfirst]
    simp only [decide_eq_false_iff_not]
    split_ifs <;> first | rfl | omega
  · rw [hzero, hfirst]
    split_ifs <;> first | rfl | omega

/-! ## Selecting inside a line of four words -/

/-- The four-way choice of a word by the counts at the word boundaries, followed
    by `UintSelect1` in that word.  `hit j` is the count before word `j`. -/
def pick4 (R : Nat) (hit : Fin 4 → Nat) (bit64 : Fin 4 → BitVec 64) : Option Nat :=
  if R < hit 2 then
    if R < hit 1 then uintSelect1 (bit64 0) (wsub R (hit 0))
    else (uintSelect1 (bit64 1) (wsub R (hit 1))).map (64 * 1 + ·)
  else if R < hit 3 then (uintSelect1 (bit64 2) (wsub R (hit 2))).map (64 * 2 + ·)
  else (uintSelect1 (bit64 3) (wsub R (hit 3))).map (64 * 3 + ·)

/-- Select a one: the count before word `j` is the line's count plus the relative
    count `lev2[j]` (`lev2[0]` is always 0). -/
def selectLine1 (R hit : Nat) (lev2 : Fin 4 → Nat) (bit64 : Fin 4 → BitVec 64) : Option Nat :=
  pick4 R ![hit, hit + lev2 1, hit + lev2 2, hit + lev2 3] bit64

/-- Select a zero: the same on the complemented words, with the zeros before
    word `j` counted as `64 * j` minus the ones. -/
def selectLine0 (R hit : Nat) (lev2 : Fin 4 → Nat) (bit64 : Fin 4 → BitVec 64) : Option Nat :=
  pick4 R ![hit, wsub (hit + 64 * 1) (lev2 1), wsub (hit + 64 * 2) (lev2 2),
    wsub (hit + 64 * 3) (lev2 3)] (fun j => ~~~ bit64 j)

section Pick

variable {W : Nat → BitVec 64} {m R : Nat} {hit : Fin 4 → Nat} {bit64 : Fin 4 → BitVec 64}

/-- One leaf of the choice: the counts around word `j` enclose `R`. -/
theorem pick_leaf {h : Nat} (hh : h = ones (wordBits W) (64 * (m + j))) (hlo : h ≤ R)
    (hhi : R < ones (wordBits W) (64 * (m + j + 1))) :
    ∃ b, (uintSelect1 (W (m + j)) (wsub R h)).map (64 * j + ·) = some b ∧
      IsSelect (wordBits W) R (64 * m + b) := by
  obtain ⟨b, hb, hsel⟩ := selectBit_wordBits (hh ▸ hlo) hhi
  refine ⟨64 * j + b, ?_, ?_⟩
  · rw [wsub_eq hlo, hh, uintSelect1, hb]
    rfl
  · rw [show 64 * m + (64 * j + b) = 64 * (m + j) + b by omega]
    exact hsel

/-- **THE FOUR-WAY CHOICE SELECTS**: if the counts at the two ends of the line
    enclose `R`, the position found is the select of `R`. -/
theorem pick4_select (hh : ∀ j : Fin 4, hit j = ones (wordBits W) (64 * (m + j)))
    (hbit : ∀ j : Fin 4, bit64 j = W (m + j)) (hlo : ones (wordBits W) (64 * m) ≤ R)
    (hhi : R < ones (wordBits W) (64 * (m + 4))) :
    ∃ b, pick4 R hit bit64 = some b ∧ IsSelect (wordBits W) R (64 * m + b) := by
  unfold pick4
  rw [hbit 0, hbit 1, hbit 2, hbit 3]
  split_ifs with c2 c1 c3
  · obtain ⟨b, hb, hsel⟩ := pick_leaf (hh 0) (hh 0 ▸ hlo) (hh 1 ▸ c1)
    refine ⟨b, ?_, hsel⟩
    rw [← hb]
    simp
  · exact pick_leaf (hh 1) (not_lt.mp c1) (hh 2 ▸ c2)
  · exact pick_leaf (hh 2) (not_lt.mp c2) (hh 3 ▸ c3)
  · exact pick_leaf (hh 3) (not_lt.mp c3) hhi

/-- Before the line the choice takes the first word, with a difference that
    wraps. -/
theorem pick4_none_low (h0 : R < hit 0) (h1 : R < hit 1) (h2 : R < hit 2)
    (hsmall : hit 0 < 2 ^ 63) : pick4 R hit bit64 = none := by
  unfold pick4
  rw [if_pos h2, if_pos h1]
  refine selectBit_eq_none ?_
  have := popcount_le (bit64 0)
  rw [wsub_wrap (by omega)]
  omega

/-- Outside the line's counts the choice asks a word for a one it does not
    have. -/
theorem pick4_none (hh : ∀ j : Fin 4, hit j = ones (wordBits W) (64 * (m + j)))
    (hbit : ∀ j : Fin 4, bit64 j = W (m + j)) (hsmall : hit 0 < 2 ^ 63)
    (hout : R < ones (wordBits W) (64 * m) ∨ ones (wordBits W) (64 * (m + 4)) ≤ R) :
    pick4 R hit bit64 = none := by
  have hmono : ∀ i j : Nat, i ≤ j →
      ones (wordBits W) (64 * (m + i)) ≤ ones (wordBits W) (64 * (m + j)) :=
    fun i j hij => ones_mono _ (by omega)
  rcases hout with hout | hout
  · exact pick4_none_low (hh 0 ▸ hout) (hh 1 ▸ hout.trans_le (hmono 0 1 zero_le_one))
      (hh 2 ▸ hout.trans_le (hmono 0 2 zero_le_two)) hsmall
  -- behind the line: the last word has too few ones
  have h2 : hit 2 ≤ R := hh 2 ▸ (hmono 2 4 (by decide)).trans hout
  have h3 : hit 3 ≤ R := hh 3 ▸ (hmono 3 4 (by decide)).trans hout
  unfold pick4
  rw [if_neg h2.not_gt, if_neg h3.not_gt, uintSelect1, selectBit_eq_none, Option.map_none]
  have hs : ones (wordBits W) (64 * (m + 4)) = _ := ones_wordBits_succ W (m + 3)
  rw [hbit, wsub_eq h3, hh]
  exact Nat.le_sub_of_add_le' (hs ▸ hout)

end Pick

/-! ## The line of a packed sequence -/

section Line

variable {W : Nat → BitVec 64} {m R hit : Nat} {lev2 : Fin 4 → Nat}
  {bit64 : Fin 4 → BitVec 64}

/-- The relative counts of the line that starts at word `m`. -/
def LineCounts (W : Nat → BitVec 64) (m : Nat) (lev2 : Fin 4 → Nat) : Prop :=
  ∀ j : Fin 4, ones (wordBits W) (64 * m) + lev2 j = ones (wordBits W) (64 * (m + j))

section

variable (hhit : hit = ones (wordBits W) (64 * m)) (hlev : LineCounts W m lev2)

include hhit hlev

private theorem counts_ones (j : Fin 4) :
    (![hit, hit + lev2 1, hit + lev2 2, hit + lev2 3] : Fin 4 → Nat) j =
      ones (wordBits W) (64 * (m + j)) := by
  subst hhit
  match j with
  | 0 => rfl
  | 1 => exact hlev 1
  | 2 => exact hlev 2
  | 3 => exact hlev 3

variable (hbit : ∀ j : Fin 4, bit64 j = W (m + j))

include hbit

/-- Selecting a one in the right line. -/
theorem selectLine1_select (hlo : hit ≤ R) (hhi : R < ones (wordBits W) (64 * (m + 4))) :
    ∃ b, selectLine1 R hit lev2 bit64 = some b ∧ IsSelect (wordBits W) R (64 * m + b) :=
  pick4_select (counts_ones hhit hlev) hbit (hhit ▸ hlo) hhi

/-- Selecting a one in a wrong line is undefined. -/
theorem selectLine1_none (hm : m < 2 ^ 56) (hout : R < hit ∨ ones (wordBits W) (64 * (m + 4)) ≤ R) :
    selectLine1 R hit lev2 bit64 = none := by
  have hle := ones_le (wordBits W) (64 * m)
  refine pick4_none (counts_ones hhit hlev) hbit ?_ (by omega)
  show hit < 2 ^ 63
  omega

end

section

variable (hhit : hit = ones (negBits (wordBits W)) (64 * m)) (hlev : LineCounts W m lev2)

include hhit hlev

/-- The zeros before word `j` of the line. -/
private theorem counts_zeros (j : Fin 4) :
    (![hit, wsub (hit + 64 * 1) (lev2 1), wsub (hit + 64 * 2) (lev2 2),
      wsub (hit + 64 * 3) (lev2 3)] : Fin 4 → Nat) j =
        ones (wordBits (fun i => ~~~ W i)) (64 * (m + j)) := by
  have hword : wsub (hit + 64 * j) (lev2 j) = ones (negBits (wordBits W)) (64 * (m + j)) := by
    have h := hlev j
    have h1 := ones_add_negBits (wordBits W) (64 * m)
    have h2 := ones_add_negBits (wordBits W) (64 * (m + j))
    rw [wsub_eq (by omega)]
    omega
  rw [wordBits_not (by decide)]
  match j with
  | 0 => exact hhit
  | 1 => exact hword
  | 2 => exact hword
  | 3 => exact hword

variable (hbit : ∀ j : Fin 4, bit64 j = W (m + j))

include hbit

/-- Selecting a zero in the right line. -/
theorem selectLine0_select (hlo : hit ≤ R) (hhi : R < ones (negBits (wordBits W)) (64 * (m + 4))) :
    ∃ b, selectLine0 R hit lev2 bit64 = some b ∧
      IsSelect (negBits (wordBits W)) R (64 * m + b) := by
  have hw := wordBits_not (W := W) (by decide)
  have hcounts := counts_zeros hhit hlev
  rw [← hw] at hhit hhi ⊢
  exact pick4_select hcounts (fun j => by rw [hbit j]) (hhit ▸ hlo) hhi

/-- Selecting a zero in a wrong line is undefined. -/
theorem selectLine0_none (hm : m < 2 ^ 56)
    (hout : R < hit ∨ ones (negBits (wordBits W)) (64 * (m + 4)) ≤ R) :
    selectLine0 R hit lev2 bit64 = none := by
  have hw := wordBits_not (W := W) (by decide)
  have hle := ones_le (negBits (wordBits W)) (64 * m)
  have hcounts := counts_zeros hhit hlev
  have hsmall : hit < 2 ^ 63 := by omega
  rw [← hw] at hhit hout
  exact pick4_none hcounts (fun j => by rw [hbit j]) hsmall (hhit ▸ hout)

end

/-- Behind the last line there is nothing to select. -/
theorem selectLine1_last (hlev : ∀ j, lev2 j = 0) (hR : R < hit) (hsmall : hit < 2 ^ 63) :
    selectLine1 R hit lev2 bit64 = none := by
  have hadd : ∀ j, R < hit + lev2 j := by
    intro j
    rw [hlev j]
    exact hR
  exact pick4_none_low hR (hadd 1) (hadd 2) hsmall

end Line

/-! ## Finding the line -/

section FindLine

variable {F : Nat → Bool} {L nl R lo hi q : Nat} {read : Nat → Option Nat}

/-- The count before line `k`, for lines of `L` bits. -/
def lineCount (F : Nat → Bool) (L k : Nat) : Nat := ones F (L * k)

/-- The counts of the lines ascend. -/
theorem lineCount_mono (F : Nat → Bool) (L : Nat) :
    ∀ i j, i ≤ j → j ≤ nl → lineCount F L i ≤ lineCount F L j := by
  intro i j hij _
  exact ones_mono F (mul_le_mul_left L hij)

theorem lineCount_zero (F : Nat → Bool) (L : Nat) : lineCount F L 0 = 0 := rfl

/-- The line boundary a search for `R` has to find: the first one with more than
    `R` ones before it. -/
def lineBound (F : Nat → Bool) (L nl R : Nat) : Nat := firstGe (lineCount F L) nl (R + 1)

/-- Comparing a line's count with `R` tells on which side of the bound it lies. -/
theorem lineCount_le_iff (hk : k ≤ nl) : lineCount F L k ≤ R ↔ k < lineBound F L nl R := by
  have h := lt_firstGe_iff (v := R + 1) (lineCount_mono F L) hk
  exact ⟨fun hle => h.mpr (by omega), fun hlt => by have := h.mp hlt; omega⟩

/-- The binary search for a one ends at the bound, clamped to its range. -/
theorem upperBound_ones (hread : ∀ k, k ≤ nl → read k = some (lineCount F L k))
    (hle : lo ≤ hi) (hhi : hi ≤ nl + 1) :
    upperBound (fun mid => (read mid).map (fun r => decide (r ≤ R))) lo hi
      = some (max lo (min (lineBound F L nl R) hi)) := by
  refine upperBound_clamp hle (fun k _ hk => ?_)
  rw [hread k (by omega)]
  exact congrArg some (decide_eq_decide.mpr (lineCount_le_iff (by omega)))

/-- The zeros before a line, as the code computes them from the ones. -/
theorem wsub_lineCount : wsub (L * k) (lineCount F L k) = lineCount (negBits F) L k :=
  wsub_ones F (L * k)

/-- The search by zeros, computed from the ones. -/
theorem upperBound_zeros (hread : ∀ k, k ≤ nl → read k = some (lineCount F L k))
    (hle : lo ≤ hi) (hhi : hi ≤ nl + 1) :
    upperBound (fun mid => (read mid).map (fun r => decide (wsub (L * mid) r ≤ R))) lo hi
      = some (max lo (min (lineBound (negBits F) L nl R) hi)) := by
  refine upperBound_clamp hle (fun k _ hk => ?_)
  rw [hread k (by omega), Option.map_some, wsub_lineCount]
  exact congrArg some (decide_eq_decide.mpr (lineCount_le_iff (by omega)))

/-- A one that exists is in some line. -/
theorem lineBound_le (hR : R < lineCount F L nl) : lineBound F L nl R ≤ nl :=
  (firstGe_bracket (lineCount_mono F L) 0 zero_lt_one hR).2.2

/-- **THE RIGHT LINE**: for a rank that occurs, the bound is a line boundary of
    the vector and the line before it holds the answer. -/
theorem lineBound_spec (hR : R < lineCount F L nl) :
    ∃ k, lineBound F L nl R = k + 1 ∧ k < nl ∧ ones F (L * k) ≤ R ∧ R < ones F (L * (k + 1)) := by
  have hle := lineBound_le hR
  obtain ⟨hpos, hlo, hhi⟩ := firstGe_step (lineCount_mono F L) (lineCount_zero F L) hle
  obtain ⟨k, hk⟩ : ∃ k, lineBound F L nl R = k + 1 := ⟨_, (Nat.sub_add_cancel hpos).symm⟩
  unfold lineBound at hk hle
  rw [hk] at hlo hhi hle
  exact ⟨k, hk, hle, hlo, hhi⟩

/-- The slot of level `q * j`. -/
def slotLine (F : Nat → Bool) (L nl q j : Nat) : Nat := firstGe (lineCount F L) nl (q * j)

theorem slotLine_zero (F : Nat → Bool) (L nl q : Nat) : slotLine F L nl q 0 = 0 := by
  by_contra h
  have := (lt_firstGe_iff (v := q * 0) (lineCount_mono F L) (zero_le nl)).mp
    (pos_of_ne_zero h)
  omega

/-- The cached lines ascend. -/
theorem slotLine_mono (F : Nat → Bool) (L nl q j : Nat) :
    slotLine F L nl q j ≤ slotLine F L nl q (j + 1) :=
  firstGe_mono (mul_le_mul_left q (le_succ j))

theorem slotLine_le (F : Nat → Bool) (L nl q j : Nat) : slotLine F L nl q j ≤ nl + 1 :=
  firstGe_le _ _ _

/-- What a cached line says. -/
theorem lt_slotLine_iff (hk : k ≤ nl) : k < slotLine F L nl q j ↔ lineCount F L k < q * j :=
  lt_firstGe_iff (lineCount_mono F L) hk

/-- The loop that fills a select cache; `val k` is the count before line `k`. -/
def buildSel (val : Nat → Option Nat) (lineBits slots nl : Nat) : Option (List Nat) :=
  hints (fun _ j k => (val k).map (fun v => decide (v < lineBits * j))) (nl + 2) slots nl

/-- The loop tabulates the levels of `F`, all of them reached inside the lines. -/
theorem buildSel_eq {val : Nat → Option Nat} {slots maxRank : Nat}
    (hval : ∀ k, k ≤ nl → val k = some (lineCount F L k)) (hmax : maxRank ≤ lineCount F L nl)
    (hlevel : ∀ j, j < slots → L * j ≤ maxRank) :
    buildSel val L slots nl = some ((List.range slots).map (slotLine F L nl L) ++ [nl]) := by
  refine hints_eq (slotLine_zero _ _ _ _) (slotLine_mono _ _ _ _)
    (fun j _ => lt_succ_of_le (slotLine_le _ _ _ _ j)) (fun j hj hjs k _ hk => ?_)
  have hkn : k ≤ nl := by
    by_contra hnk
    have : lineCount F L nl < L * j := (lt_slotLine_iff le_rfl).mp (by omega)
    have := hlevel j hjs
    omega
  rw [hval k hkn]
  exact congrArg some (decide_eq_decide.mpr (lt_slotLine_iff hkn).symm)

/-- The two slots read for `R` enclose the bound. -/
theorem slots_enclose (slots : Nat) (hq : 0 < q) (hR : R < lineCount F L nl) :
    slotLine F L nl q (R / q) ≤ lineBound F L nl R ∧
    lineBound F L nl R ≤
      (if R / q + 1 < slots then slotLine F L nl q (R / q + 1) else nl) := by
  obtain ⟨h1, h2, _⟩ := firstGe_bracket (lineCount_mono F L) slots hq hR
  exact ⟨h1, h2⟩

end FindLine

end RankSelectLine
