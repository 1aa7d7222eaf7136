import Mathlib.Data.Bool.Count
import Mathlib.Data.Nat.Count
import Mathlib.Tactic.Ring

/-! # Counting ones in a bit sequence — rank and select, word by word

    A bit sequence is a function `Nat → Bool`.  `ones f n` is the number of
    ones among the first `n` bits (the RANK of position `n`), and `IsSelect f k
    p` says that `p` is the position of the one with `k` ones before it (the
    SELECT of `k`).  The second half packs such a sequence into machine words:
    `wordBits W` reads bit `i` from bit `i % w` of word `i / w`, and counting
    advances by one word, or by the low bits of one word, at a time. -/

namespace BitCount

open List Nat

variable (f : Nat → Bool) {g : Nat → Bool} {n i : Nat} {L : List Bool}

/-- The number of ones among the first `n` bits. -/
def ones (n : Nat) : Nat :=
  count (fun i => f i = true) n

/-- The complement sequence: its ones are the zeros of `f`. -/
def negBits : Nat → Bool := fun i => !f i

theorem ones_zero : ones f 0 = 0 := rfl

theorem ones_succ (n : Nat) : ones f (n + 1) = ones f n + (if f n = true then 1 else 0) :=
  count_succ _ _

/-- The ones of two parts add up. -/
theorem ones_add (a b : Nat) : ones f (a + b) = ones f a + ones (fun i => f (a + i)) b :=
  count_add _ _ _

variable {a b k p : Nat} {f}

theorem ones_mono (f : Nat → Bool) (h : a ≤ b) : ones f a ≤ ones f b :=
  count_monotone _ h

theorem ones_le (f : Nat → Bool) (n : Nat) : ones f n ≤ n := count_le _

/-- Counting only reads the bits below the bound. -/
theorem ones_congr (h : ∀ i, i < n → f i = g i) : ones f n = ones g n := by
  induction n with
  | zero => rfl
  | succ n ih =>
    rw [ones_succ, ones_succ, ih (fun i hi => h i (by omega)), h n (by omega)]

/-- Every position holds a one or a zero. -/
theorem ones_add_negBits (f : Nat → Bool) (n : Nat) :
    ones f n + ones (negBits f) n = n := by
  induction n with
  | zero => rfl
  | succ n ih =>
    rw [ones_succ, ones_succ]
    cases h : f n <;> simp [negBits, h] <;> omega

/-- The zeros are what the ones leave. -/
theorem ones_negBits (f : Nat → Bool) (n : Nat) :
    ones (negBits f) n = n - ones f n := by
  have := ones_add_negBits f n
  omega

/-- A stretch without ones adds nothing to the count. -/
theorem ones_eq_of_zeros (hab : a ≤ b) (h : ∀ i, a ≤ i → i < b → f i = false) :
    ones f b = ones f a := by
  induction b with
  | zero =>
    have : a = 0 := by omega
    rw [this]
  | succ b ih =>
    by_cases hb : a = b + 1
    · rw [hb]
    · have hz := h b (by omega) (by omega)
      rw [ones_succ, hz, ih (by omega) (fun i h1 h2 => h i h1 (by omega))]
      rfl

/-- The count over a stretch is unchanged only if the stretch holds no ones. -/
theorem zeros_of_ones_eq (h : ones f b = ones f a) : ∀ i, a ≤ i → i < b → f i = false := by
  intro i hai hib
  have h1 : ones f a ≤ ones f i := ones_mono f hai
  have h2 : ones f (i + 1) ≤ ones f b := ones_mono f hib
  rw [ones_succ] at h2
  cases hi : f i with
  | false => rfl
  | true =>
    rw [hi, if_pos rfl] at h2
    omega

/-- `b` more bits have at most `b` more ones. -/
theorem ones_add_le (f : Nat → Bool) (a b : Nat) : ones f (a + b) ≤ ones f a + b := by
  rw [ones_add]
  have := ones_le (fun i => f (a + i)) b
  omega

/-! ## Lists of bits -/

/-- A finite sequence, continued by zeros. -/
def ofList (L : List Bool) (i : Nat) : Bool := L.getD i false

theorem ofList_eq {b : Bool} (h : L[i]? = some b) : ofList L i = b := by
  rw [ofList, getD_eq_getElem?_getD, h]
  rfl

theorem ofList_out (h : L.length ≤ i) : ofList L i = false := by
  rw [ofList, getD_eq_getElem?_getD, getElem?_eq_none h]
  rfl

/-- Counting the bits of a list is counting in the list. -/
theorem ones_ofList (L : List Bool) : ones (ofList L) L.length = L.count true := by
  induction L with
  | nil => rfl
  | cons b rest ih =>
    have hrest : ones (fun i => ofList (b :: rest) (1 + i)) rest.length = rest.count true := by
      rw [← ih]
      refine ones_congr (fun i _ => ?_)
      rw [add_comm]
      rfl
    rw [length_cons, add_comm, ones_add, hrest, ones_succ, ones_zero]
    cases b with
    | false => simp [ofList]
    | true =>
      simp [ofList]
      omega

theorem ones_negBits_ofList (L : List Bool) :
    ones (negBits (ofList L)) L.length = L.count false := by
  have h1 := ones_add_negBits (ofList L) L.length
  have h2 := count_true_add_count_false L
  rw [ones_ofList] at h1
  omega

/-! ## Select -/

/-- `p` is the position of the one that has exactly `k` ones before it. -/
structure IsSelect (f : Nat → Bool) (k p : Nat) : Prop where
  /-- the position holds a one -/
  bit : f p = true
  /-- and `k` ones stand before it -/
  before : ones f p = k

/-- The selected one is counted right behind it. -/
theorem IsSelect.ones_succ_eq (h : IsSelect f k p) : ones f (p + 1) = k + 1 := by
  rw [ones_succ, h.bit, h.before, if_pos rfl]

/-- The select of `k` is at most one position. -/
theorem IsSelect.unique {q : Nat} (hp : IsSelect f k p) (hq : IsSelect f k q) : p = q := by
  have key : ∀ {p q : Nat}, IsSelect f k p → IsSelect f k q → ¬ p < q := by
    intro p q hp hq hlt
    have h1 := ones_mono f hlt
    have h2 := hp.ones_succ_eq
    have h3 := hq.before
    rw [succ_eq_add_one] at h1
    omega
  have h1 := key hp hq
  have h2 := key hq hp
  omega

/-- A select below the total count lies below the bound. -/
theorem IsSelect.lt_of_lt_ones (h : IsSelect f k p) (hk : k < ones f n) : p < n := by
  by_contra hn
  have := ones_mono f (not_lt.mp hn)
  rw [h.before] at this
  omega

/-- Between two positions whose counts enclose `k` there is the select of `k`. -/
theorem exists_isSelect (ha : ones f a ≤ k) (hb : k < ones f b) :
    ∃ p, a ≤ p ∧ p < b ∧ IsSelect f k p := by
  induction b with
  | zero => exact absurd hb (by rw [ones_zero]; omega)
  | succ b ih =>
    by_cases hk : k < ones f b
    · obtain ⟨p, h1, h2, h3⟩ := ih hk
      exact ⟨p, h1, by omega, h3⟩
    rw [ones_succ] at hb
    have hbit : f b = true := by
      cases h : f b with
      | false => rw [h] at hb; simp at hb; omega
      | true => rfl
    rw [hbit, if_pos rfl] at hb
    have hab : a ≤ b := by
      by_contra hlt
      have := ones_mono f (show b + 1 ≤ a by omega)
      rw [ones_succ, hbit, if_pos rfl] at this
      omega
    exact ⟨b, hab, lt_succ_self b, ⟨hbit, by omega⟩⟩

/-- Agreement below a bound carries selects below it from one sequence to the
    other. -/
theorem IsSelect.congr (h : IsSelect f k p) (hp : p < n) (hfg : ∀ i, i < n → f i = g i) :
    IsSelect g k p := by
  refine ⟨by rw [← hfg p hp]; exact h.bit, ?_⟩
  rw [← h.before]
  exact (ones_congr (fun i hi => hfg i (by omega))).symm

/-! ## Sequences packed into words -/

section Words

variable {w r : Nat} {x : BitVec w}

/-- The sequence stored in a row of `w`-bit words. -/
def wordBits (W : Nat → BitVec w) : Nat → Bool :=
  fun i => (W (i / w)).getLsbD (i % w)

/-- The number of ones of a word. -/
def popcount (x : BitVec w) : Nat := ones x.getLsbD w

/-- The position of the one of a word that has `r` ones before it; undefined
    when there are not that many ones. -/
def selectBit (x : BitVec w) (r : Nat) : Option Nat :=
  (List.range w).find? (fun p => x.getLsbD p && ones x.getLsbD p == r)

theorem popcount_le (x : BitVec w) : popcount x ≤ w := ones_le _ _

variable {W : Nat → BitVec w} {j : Nat}

/-- Bit `b` of word `j`. -/
theorem wordBits_at (hb : b < w) : wordBits W (w * j + b) = (W j).getLsbD b := by
  have hw : 0 < w := by omega
  unfold wordBits
  rw [mul_add_div hw, mul_add_mod, div_eq_of_lt hb, mod_eq_of_lt hb, add_zero]

/-- Ones before a place in word `j`: those of the words before, and its own. -/
theorem ones_wordBits_add (hb : b ≤ w) :
    ones (wordBits W) (w * j + b)
      = ones (wordBits W) (w * j) + ones (W j).getLsbD b := by
  rw [ones_add]
  congr 1
  exact ones_congr (fun i hi => wordBits_at (by omega))

/-- A whole word adds its `popcount`. -/
theorem ones_wordBits_succ (W : Nat → BitVec w) (j : Nat) :
    ones (wordBits W) (w * (j + 1))
      = ones (wordBits W) (w * j) + popcount (W j) := by
  rw [mul_succ, ones_wordBits_add le_rfl]
  rfl

/-- Complementing every word complements the sequence. -/
theorem wordBits_not (hw : 0 < w) : wordBits (fun j => ~~~ W j) = negBits (wordBits W) := by
  funext i
  have : i % w < w := mod_lt _ hw
  simp [wordBits, negBits, this]

/-- `selectBit` finds the select of `r`, if the word has one. -/
theorem selectBit_eq_some : selectBit x r = some p ↔ p < w ∧ IsSelect x.getLsbD r p := by
  constructor
  · intro h
    have hp := find?_some h
    have hm := mem_of_find?_eq_some h
    rw [Bool.and_eq_true, beq_iff_eq] at hp
    exact ⟨mem_range.mp hm, ⟨hp.1, hp.2⟩⟩
  rintro ⟨hp, hs⟩
  cases h : selectBit x r with
  | none =>
    have := find?_eq_none.mp h p (mem_range.mpr hp)
    simp [hs.bit, hs.before] at this
  | some q =>
    have hq := find?_some h
    rw [Bool.and_eq_true, beq_iff_eq] at hq
    rw [IsSelect.unique hs ⟨hq.1, hq.2⟩]

/-- A word has no more ones than its `popcount`. -/
theorem selectBit_eq_none (h : popcount x ≤ r) : selectBit x r = none := by
  cases hs : selectBit x r with
  | none => rfl
  | some p =>
    obtain ⟨hp, hsel⟩ := selectBit_eq_some.mp hs
    have h1 := hsel.ones_succ_eq
    have h2 := ones_mono x.getLsbD hp
    unfold popcount at h
    rw [succ_eq_add_one] at h2
    omega

/-- **SELECT THROUGH ONE WORD**: when the counts at the two ends of word `j`
    enclose `R`, selecting inside the word finds the select of the whole
    sequence. -/
theorem selectBit_wordBits {R : Nat} (hlo : ones (wordBits W) (w * j) ≤ R)
    (hhi : R < ones (wordBits W) (w * (j + 1))) :
    ∃ b, selectBit (W j) (R - ones (wordBits W) (w * j)) = some b ∧
      IsSelect (wordBits W) R (w * j + b) := by
  obtain ⟨p, hp1, hp2, hsel⟩ := exists_isSelect hlo hhi
  rw [mul_succ] at hp2
  have hb : p - w * j < w := by omega
  have hp : p = w * j + (p - w * j) := by omega
  rw [hp] at hsel
  refine ⟨p - w * j, selectBit_eq_some.mpr ⟨hb, ?_, ?_⟩, hsel⟩
  · rw [← wordBits_at hb]
    exact hsel.bit
  · have h := hsel.before
    rw [ones_wordBits_add hb.le] at h
    omega

end Words

end BitCount
