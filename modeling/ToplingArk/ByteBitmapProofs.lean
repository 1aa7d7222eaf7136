import ToplingArk.BitCountProofs

/-! # Bitmaps of 256 bits

    A set of bytes as four words of 64 bits, with the numbers of ones before each word.  The
    first and the last one, the next and the previous one of a position and the one with a
    given rank are found word by word.  What is found is a SELECT: a position, with so many
    ones before it. -/

namespace ByteBitmap

open BitCount Option BitVec Nat

/-- `fast_ctz64` -/
def fastCtz64 (w : BitVec 64) : Nat := w.ctz.toNat

/-- `fast_clz64` -/
def fastClz64 (w : BitVec 64) : Nat := w.clz.toNat

/-- `terark_bsr_u64` -/
def bsrU64 (w : BitVec 64) : Nat := 63 - w.clz.toNat

variable (load : Nat → Option (BitVec 64)) {i : Nat}

/-- The first one in the words from the `i`-th on, so many of them at most. -/
def firstFrom : Nat → Nat → Option Nat
  | 0, _ => none
  | fuel + 1, i => do
    let w ← load i
    if w ≠ 0#64 then some (i * 64 + fastCtz64 w) else firstFrom fuel (i + 1)

/-- The last one in the words before the `i`-th. -/
def lastBefore : Nat → Option Nat
  | 0 => none
  | i + 1 => do
    let w ← load i
    if w ≠ 0#64 then some (i * 64 + bsrU64 w) else lastBefore i

/-- `rs_next_one_pos`: the rest of the word of `ch`, then the words behind it. -/
def rsNextOnePos (ch : Nat) : Option Nat := do
  let word ← load (ch / 64)
  let w := word >>> (ch % 64) >>> 1
  if w ≠ 0#64 then some (ch + 1 + fastCtz64 w) else firstFrom load 4 (ch / 64 + 1)

/-- `rs_prev_one_pos`: the words before that of `ch` come last. -/
def rsPrevOnePos (ch : Nat) : Option Nat := do
  let word ← load (ch / 64)
  let w := word <<< (63 - ch % 64) <<< 1
  if w ≠ 0#64 then some (ch - 1 - fastClz64 w) else lastBefore load (ch / 64)

/-- The one with a rank, in the `i`-th word, before which there are `before` ones. -/
def selectIn (i before rank : Nat) : Option Nat := do
  let w ← load i
  let p ← selectBit w (rank - before)
  some (i * 64 + p)

/-- `rs_select1`; `base` gives the ones before each word. -/
def rsSelect1 (base : Nat → Option Nat) (rank : Nat) : Option Nat := do
  let r2 ← base 2
  if rank < r2 then do
    let r1 ← base 1
    if rank < r1 then selectIn load 0 0 rank else selectIn load 1 r1 rank
  else do
    let r3 ← base 3
    if rank < r3 then selectIn load 2 r2 rank else selectIn load 3 r3 rank

variable {load} {W : Nat → BitVec 64}

theorem fastCtz64_lt {w : BitVec 64} (h : w ≠ 0#64) : fastCtz64 w < 64 :=
  ctz_lt_iff_ne_zero.mpr h

/-- The lowest one of a word. -/
theorem wordBits_ctz (h : W i ≠ 0#64) :
    wordBits W (64 * i + fastCtz64 (W i)) = true ∧
      ∀ r, 64 * i ≤ r → r < 64 * i + fastCtz64 (W i) → wordBits W r = false := by
  have hlt := fastCtz64_lt h
  constructor
  · rw [wordBits_at hlt]
    exact getLsbD_true_ctz_of_ne_zero h
  · intro r h1 h2
    obtain ⟨b, rfl⟩ := exists_add_of_le h1
    rw [wordBits_at (by omega)]
    exact getLsbD_false_of_lt_ctz (by unfold fastCtz64 at h2; omega)

/-- The highest one of a word. -/
theorem wordBits_bsr (h : W i ≠ 0#64) :
    wordBits W (64 * i + bsrU64 (W i)) = true ∧
      ∀ r, 64 * i + bsrU64 (W i) < r → r < 64 * (i + 1) → wordBits W r = false := by
  constructor
  · rw [wordBits_at (by unfold bsrU64; omega)]
    exact getLsbD_true_clz_of_ne_zero (by decide) h
  · intro r h1 h2
    obtain ⟨b, rfl⟩ := exists_add_of_le (show 64 * i ≤ r by omega)
    rw [wordBits_at (by omega), ← testBit_toNat]
    have hsmall := toNat_lt_two_pow_sub_clz (x := W i)
    refine testBit_lt_two_pow (hsmall.trans_le (Nat.pow_le_pow_right (by decide) ?_))
    unfold bsrU64 at h1
    omega

/-- No bit is set in a zero word. -/
theorem wordBits_zero {r : Nat} (h : W i = 0#64) (h1 : 64 * i ≤ r) (h2 : r < 64 * (i + 1)) :
    wordBits W r = false := by
  obtain ⟨b, rfl⟩ := exists_add_of_le h1
  rw [wordBits_at (by omega), h, getLsbD_zero]

section

variable (hload : ∀ i, i < 4 → load i = some (W i)) {q ch rank : Nat}

include hload

/-- The first one from word `i` on is found. -/
theorem firstFrom_spec {fuel : Nat} (hfuel : 4 - i ≤ fuel) (h1 : 64 * i ≤ q) (h2 : q < 256)
    (hq : wordBits W q = true) :
    ∃ p, firstFrom load fuel i = some p ∧ 64 * i ≤ p ∧ wordBits W p = true ∧
      ∀ r, 64 * i ≤ r → r < p → wordBits W r = false := by
  induction fuel generalizing i with
  | zero => omega
  | succ fuel ih =>
    rw [firstFrom, hload i (by omega)]
    simp only [bind_eq_bind, bind_some]
    by_cases hw : W i = 0#64
    · -- the word is empty
      have hnext : 64 * (i + 1) ≤ q := by
        by_contra hlt
        rw [wordBits_zero hw h1 (by omega)] at hq
        cases hq
      obtain ⟨p, hp, hge, hbit, hzero⟩ := ih (by omega) hnext
      rw [if_neg (not_not_intro hw)]
      refine ⟨p, hp, by omega, hbit, fun r hr1 hr2 => ?_⟩
      by_cases hr : r < 64 * (i + 1)
      · exact wordBits_zero hw hr1 hr
      · exact hzero r (by omega) hr2
    · obtain ⟨hbit, hzero⟩ := wordBits_ctz hw
      rw [if_pos hw, mul_comm i 64]
      exact ⟨_, rfl, le_add_right _ _, hbit, hzero⟩

/-- The last one before word `i` is found. -/
theorem lastBefore_spec (hi : i ≤ 4) (h2 : q < 64 * i) (hq : wordBits W q = true) :
    ∃ p, lastBefore load i = some p ∧ p < 64 * i ∧ wordBits W p = true ∧
      ∀ r, p < r → r < 64 * i → wordBits W r = false := by
  induction i with
  | zero => omega
  | succ i ih =>
    rw [lastBefore, hload i (by omega)]
    simp only [bind_eq_bind, bind_some]
    by_cases hw : W i = 0#64
    · have hnext : q < 64 * i := by
        by_contra hge
        rw [wordBits_zero hw (by omega) h2] at hq
        cases hq
      obtain ⟨p, hp, hlt, hbit, hzero⟩ := ih (by omega) hnext
      rw [if_neg (not_not_intro hw)]
      refine ⟨p, hp, by omega, hbit, fun r hr1 hr2 => ?_⟩
      by_cases hr : r < 64 * i
      · exact hzero r hr1 hr
      · exact wordBits_zero hw (by omega) hr2
    obtain ⟨hbit, hzero⟩ := wordBits_bsr hw
    have hlt : bsrU64 (W i) < 64 := by
      unfold bsrU64
      omega
    rw [if_pos hw, mul_comm i 64]
    exact ⟨_, rfl, by omega, hbit, hzero⟩

/-- **THE FIRST ONE.** -/
theorem firstFrom_select (hone : 0 < ones (wordBits W) 256) :
    ∃ p, firstFrom load 4 0 = some p ∧ IsSelect (wordBits W) 0 p := by
  obtain ⟨q, -, hq, hsel⟩ := exists_isSelect (f := wordBits W) (a := 0) (zero_le 0) hone
  obtain ⟨p, hp, -, hbit, hzero⟩ := firstFrom_spec hload (show 4 - 0 ≤ 4 by decide)
    (zero_le q) hq hsel.bit
  refine ⟨p, hp, hbit, ?_⟩
  rw [ones_eq_of_zeros (zero_le p) (fun r h1 h2 => hzero r h1 h2), ones_zero]

/-- **THE NEXT ONE** after a position, which may hold a one itself. -/
theorem rsNextOnePos_select (hch : ch < 256)
    (hone : ones (wordBits W) (ch + 1) < ones (wordBits W) 256) :
    ∃ p, rsNextOnePos load ch = some p ∧ IsSelect (wordBits W) (ones (wordBits W) (ch + 1)) p := by
  obtain ⟨q, hq1, hq2, hsel⟩ := exists_isSelect (f := wordBits W) (a := ch + 1) le_rfl hone
  -- what is left of the word
  have hbit : ∀ k, ch % 64 + 1 + k < 64 →
      (W (ch / 64) >>> (ch % 64) >>> 1).getLsbD k = wordBits W (ch + 1 + k) := by
    intro k hk
    rw [getLsbD_ushiftRight, getLsbD_ushiftRight,
      show ch + 1 + k = 64 * (ch / 64) + (ch % 64 + 1 + k) by omega, wordBits_at hk, add_assoc]
  have hout : ∀ k, 64 ≤ ch % 64 + 1 + k →
      (W (ch / 64) >>> (ch % 64) >>> 1).getLsbD k = false := by
    intro k hk
    rw [getLsbD_ushiftRight, getLsbD_ushiftRight]
    exact getLsbD_of_ge _ _ (by omega)
  unfold rsNextOnePos
  rw [hload _ (by omega)]
  simp only [bind_eq_bind, bind_some]
  generalize W (ch / 64) >>> (ch % 64) >>> 1 = w at hbit hout ⊢
  by_cases hw : w = 0#64
  · -- nothing is left, and the next words are looked at
    have hnone : ∀ r, ch + 1 ≤ r → r < 64 * (ch / 64 + 1) → wordBits W r = false := by
      intro r h1 h2
      obtain ⟨k, rfl⟩ := exists_add_of_le h1
      rw [← hbit k (by omega), hw, getLsbD_zero]
    have hge : 64 * (ch / 64 + 1) ≤ q := by
      by_contra hlt
      have hfalse := hnone q hq1 (by omega)
      rw [hsel.bit] at hfalse
      cases hfalse
    obtain ⟨p, hp, hp1, hbit, hzero⟩ := firstFrom_spec hload
      (show 4 - (ch / 64 + 1) ≤ 4 by omega) hge hq2 hsel.bit
    rw [if_neg (not_not_intro hw)]
    refine ⟨p, hp, hbit, ones_eq_of_zeros (by omega) (fun r h1 h2 => ?_)⟩
    by_cases hr : r < 64 * (ch / 64 + 1)
    · exact hnone r h1 hr
    · exact hzero r (by omega) h2
  have htrue : w.getLsbD (fastCtz64 w) = true := getLsbD_true_ctz_of_ne_zero hw
  have hin : ch % 64 + 1 + fastCtz64 w < 64 := by
    by_contra hge
    rw [hout _ (not_lt.mp hge)] at htrue
    cases htrue
  rw [if_pos hw]
  refine ⟨_, rfl, (hbit _ hin).symm.trans htrue, ones_eq_of_zeros (le_add_right _ _) ?_⟩
  intro r h1 h2
  obtain ⟨k, rfl⟩ := exists_add_of_le h1
  rw [← hbit k (by omega)]
  exact getLsbD_false_of_lt_ctz (lt_of_add_lt_add_left h2)

/-- **THE PREVIOUS ONE.** -/
theorem rsPrevOnePos_select (hch : ch < 256) (hone : 0 < ones (wordBits W) ch) :
    ∃ p, rsPrevOnePos load ch = some p ∧
      IsSelect (wordBits W) (ones (wordBits W) ch - 1) p := by
  obtain ⟨q, -, hq2, hsel⟩ := exists_isSelect (f := wordBits W) (a := 0)
    (k := ones (wordBits W) ch - 1) (b := ch) (zero_le _) (by omega)
  -- a one with no ones up to the position
  have hselect : ∀ p, p < ch → wordBits W p = true → (∀ r, p < r → r < ch → wordBits W r = false) →
      IsSelect (wordBits W) (ones (wordBits W) ch - 1) p := by
    intro p hp hbit hzero
    refine ⟨hbit, ?_⟩
    have hend := ones_eq_of_zeros (f := wordBits W) (show p + 1 ≤ ch from hp)
      (fun r h1 h2 => hzero r h1 h2)
    rw [ones_succ, hbit, if_pos rfl] at hend
    omega
  -- what is left of the word, at its upper end
  have hbit : ∀ k, 64 * (ch / 64) + k < ch →
      (W (ch / 64) <<< (63 - ch % 64) <<< 1).getLsbD (64 - ch % 64 + k) =
        wordBits W (64 * (ch / 64) + k) := by
    intro k hk
    rw [← BitVec.shiftLeft_add, getLsbD_shiftLeft, wordBits_at (by omega),
      decide_eq_true (by omega),
      decide_eq_false (by omega), show 64 - ch % 64 + k - (63 - ch % 64 + 1) = k by omega]
    rfl
  have hout : ∀ k, k < 64 - ch % 64 →
      (W (ch / 64) <<< (63 - ch % 64) <<< 1).getLsbD k = false := by
    intro k hk
    rw [← BitVec.shiftLeft_add, getLsbD_shiftLeft,
      decide_eq_true (show k < 63 - ch % 64 + 1 by omega)]
    simp
  unfold rsPrevOnePos
  rw [hload _ (by omega)]
  simp only [bind_eq_bind, bind_some]
  generalize W (ch / 64) <<< (63 - ch % 64) <<< 1 = w at hbit hout ⊢
  by_cases hw : w = 0#64
  · have hnone : ∀ r, 64 * (ch / 64) ≤ r → r < ch → wordBits W r = false := by
      intro r h1 h2
      obtain ⟨k, rfl⟩ := exists_add_of_le h1
      rw [← hbit k h2, hw, getLsbD_zero]
    have hlt : q < 64 * (ch / 64) := by
      by_contra hge
      have hfalse := hnone q (by omega) hq2
      rw [hsel.bit] at hfalse
      cases hfalse
    obtain ⟨p, hp, hp2, hbit, hzero⟩ := lastBefore_spec hload (by omega) hlt hsel.bit
    rw [if_neg (not_not_intro hw)]
    refine ⟨p, hp, hselect p (by omega) hbit (fun r h1 h2 => ?_)⟩
    by_cases hr : r < 64 * (ch / 64)
    · exact hzero r h1 hr
    · exact hnone r (by omega) h2
  have htrue := getLsbD_true_clz_of_ne_zero (by decide) hw
  have hsmall := toNat_lt_two_pow_sub_clz (x := w)
  have hin : 64 - ch % 64 ≤ 64 - 1 - w.clz.toNat := by
    by_contra hlt
    rw [hout _ (not_le.mp hlt)] at htrue
    cases htrue
  obtain ⟨k, hk⟩ := exists_add_of_le hin
  have hpos : ch - 1 - fastClz64 w = 64 * (ch / 64) + k := by
    unfold fastClz64
    omega
  rw [hk, hbit k (by omega)] at htrue
  rw [if_pos hw, hpos]
  refine ⟨_, rfl, hselect _ (by omega) htrue (fun r h1 h2 => ?_)⟩
  obtain ⟨j, rfl⟩ := exists_add_of_le (show 64 * (ch / 64) ≤ r by omega)
  rw [← hbit j h2, ← testBit_toNat]
  exact testBit_lt_two_pow (hsmall.trans_le (Nat.pow_le_pow_right (by decide) (by omega)))

/-- A word that holds the one with this rank finds it. -/
theorem selectIn_select (hi : i < 4) (h1 : ones (wordBits W) (64 * i) ≤ rank)
    (h2 : rank < ones (wordBits W) (64 * (i + 1))) :
    ∃ p, selectIn load i (ones (wordBits W) (64 * i)) rank = some p ∧
      IsSelect (wordBits W) rank p := by
  obtain ⟨b, hb, hsel⟩ := selectBit_wordBits h1 h2
  refine ⟨64 * i + b, ?_, hsel⟩
  unfold selectIn
  rw [hload i hi]
  simp only [bind_eq_bind, bind_some]
  rw [hb, mul_comm]
  rfl

/-- **THE ONE WITH A RANK.** -/
theorem rsSelect1_select {base : Nat → Option Nat}
    (hbase : ∀ i, i < 4 → base i = some (ones (wordBits W) (64 * i)))
    (hrank : rank < ones (wordBits W) 256) :
    ∃ p, rsSelect1 load base rank = some p ∧ IsSelect (wordBits W) rank p := by
  unfold rsSelect1
  rw [hbase 2 (by decide)]
  simp only [bind_eq_bind, bind_some]
  split
  next h2 =>
    rw [hbase 1 (by decide)]
    simp only [bind_some]
    split
    next h1 =>
      exact selectIn_select hload (by decide) (zero_le rank) h1
    next h1 =>
      exact selectIn_select hload (by decide) (not_lt.mp h1) h2
  next h2 =>
    rw [hbase 3 (by decide)]
    simp only [bind_some]
    split
    next h3 =>
      exact selectIn_select hload (by decide) (not_lt.mp h2) h3
    next h3 =>
      exact selectIn_select hload (by decide) (not_lt.mp h3) hrank

end

end ByteBitmap
