import ToplingArk.RankSelectLineProofs
import ToplingArk.FieldPackProofs

/-! # `rank_select_se` — bits and index in separate areas

    `rank_select_se` (lines of 256 bits) and `rank_select_se_512` (lines of 512
    bits) keep the words of a `febitvec` as they are and write a rank cache and
    the select caches behind them.  The two classes are the same code over
    different lines, rank cache entries and choices of a word inside a line;
    `SeClass` collects what differs and the rest is written once. -/

namespace RankSelectSe

open BitCount Search RankSelectLine FieldPack List Option Nat

/-- `febitvec`: `m_words` (`NULL` is `none`) and `m_size` -/
structure FeBitVec where
  words : Option (List (BitVec 64))
  size : Nat

/-- What one class fixes: the bits of a line, the entry of the rank cache with its
    count before the line (`base`) and before each word of the line (`lev`), the
    entry written for a line and for the end, the selection of a word inside a
    line, and whether the member functions scan short ranges. -/
structure SeClass (ρ : Type) where
  lineWords : Nat
  base : ρ → Nat
  lev : ρ → Nat → Nat
  entry : (Nat → BitVec 64) → Nat → ρ
  last : Nat → ρ
  pick0 : Nat → Nat → ρ → (Nat → BitVec 64) → Option Nat
  pick1 : Nat → Nat → ρ → (Nat → BitVec 64) → Option Nat
  memberScans : Bool

/-- The bits of a line. -/
def SeClass.lineBits {ρ : Type} (C : SeClass ρ) : Nat := 64 * C.lineWords

/-- The object: `m_words`, `m_size`, the rank cache, the select caches and the
    rank totals. -/
structure Se (ρ : Type) where
  words : Option (Nat → BitVec 64)
  size : Nat
  rankCache : Option (List ρ)
  sel0Cache : Option (List Nat)
  sel1Cache : Option (List Nat)
  maxRank0 : Nat
  maxRank1 : Nat

/-! ## Counting loops -/

/-- The running count `r` of the inner loop before word `j` of the line at word
    `m`. -/
def incFrom (W : Nat → BitVec 64) (m : Nat) : Nat → Nat
  | 0 => 0
  | j + 1 => incFrom W m j + fastPopcount (W (m + j))

/-- The running total `Rank1` before line `i`. -/
def rankBefore (W : Nat → BitVec 64) (lineWords : Nat) : Nat → Nat
  | 0 => 0
  | i + 1 => rankBefore W lineWords i + incFrom W (lineWords * i) lineWords

variable (W : Nat → BitVec 64) {k i : Nat}

/-- The ones of `j` words. -/
theorem incFrom_eq (m j : Nat) :
    ones (wordBits W) (64 * m) + incFrom W m j = ones (wordBits W) (64 * (m + j)) := by
  induction j with
  | zero => rfl
  | succ j ih =>
    show ones _ _ + (incFrom W m j + fastPopcount _) = _
    rw [← add_assoc, ih, ← add_assoc m j 1, ones_wordBits_succ]
    rfl

/-- The ones before a line. -/
theorem rankBefore_eq (lineWords i : Nat) :
    rankBefore W lineWords i = ones (wordBits W) (64 * (lineWords * i)) := by
  induction i with
  | zero =>
    rfl
  | succ i ih =>
    show rankBefore W lineWords i + incFrom W _ lineWords = _
    rw [ih, incFrom_eq, mul_succ]

/-! ## The two classes -/

/-- `struct RankCache` of `rank_select_se` -/
structure RankCache where
  lev1 : Nat
  lev2 : Fin 4 → Nat

/-- `struct RankCache512` -/
structure RankCache512 where
  base : Nat
  rela : Nat

/-- `rela |= uint64_t(r) << (j*9)` over the words of a line, the last count
    included -/
def relaLoop (W : Nat → BitVec 64) (m : Nat) : Nat → Nat
  | 0 => 0
  | j + 1 => relaLoop W m j ||| (incFrom W m (j + 1) <<< (j * 9)) % 2 ^ 64

/-- `TERARK_GET_BITS_64(rela, k, 9)` and, for `k` from 1, `rank512(rela, k)` -/
def rank512 (rela k : Nat) : Nat := if k = 0 then 0 else (rela >>> ((k - 1) * 9)) &&& 511

/-- The eight-way choice of a word, `hit j` being the count before word `j`. -/
def pick8 (R : Nat) (hit : Nat → Nat) (bit64 : Nat → BitVec 64) : Option Nat :=
  let nth64 := fun n => (uintSelect1 (bit64 n) (wsub R (hit n))).map (64 * n + ·)
  if R < hit 4 then
    if R < hit 2 then
      if R < hit 1 then nth64 0 else nth64 1
    else
      if R < hit 3 then nth64 2 else nth64 3
  else
    if R < hit 6 then
      if R < hit 5 then nth64 4 else nth64 5
    else
      if R < hit 7 then nth64 6 else nth64 7

/-- `rank_select_se_256` -/
def se256 : SeClass RankCache where
  lineWords := 4
  base := RankCache.lev1
  lev := fun rc j => rc.lev2 ⟨j % 4, mod_lt _ (by decide)⟩
  entry := fun W i =>
    ⟨rankBefore W 4 i % 2 ^ 32, fun j => incFrom W (4 * i) j % 2 ^ 8⟩
  last := fun rank => ⟨rank % 2 ^ 32, fun _ => 0⟩
  pick0 := fun R hit rc bit64 => selectLine0 R hit rc.lev2 (fun j => bit64 j)
  pick1 := fun R hit rc bit64 => selectLine1 R hit rc.lev2 (fun j => bit64 j)
  memberScans := false

/-- `rank_select_se_512` -/
def se512 : SeClass RankCache512 where
  lineWords := 8
  base := RankCache512.base
  lev := fun rc j => rank512 rc.rela j
  entry := fun W i =>
    ⟨rankBefore W 8 i % 2 ^ 32, relaLoop W (8 * i) 8 &&& (2 ^ 64 - 1) >>> 1⟩
  last := fun rank => ⟨rank % 2 ^ 32, 0⟩
  pick0 := fun R hit rc bit64 =>
    pick8 R (fun n => wsub (hit + 64 * n) (rank512 rc.rela n)) (fun n => ~~~ bit64 n)
  pick1 := fun R hit rc bit64 => pick8 R (fun n => hit + rank512 rc.rela n) bit64
  memberScans := true

/-! ## `build_cache` -/

section Build

variable {ρ : Type} (C : SeClass ρ)

/-- `ceiled_bits / LineBits` -/
def SeClass.linesOf (n : Nat) : Nat := (n + C.lineBits - 1) / C.lineBits

/-- The words of the lines: those allocated before, the rest fresh memory, with
    the bits behind the size cleared. -/
def SeClass.preparedWords (fresh : Nat → BitVec 64) (ws : List (BitVec 64)) (size : Nat) :
    Nat → BitVec 64 :=
  bitsRangeSet0 (fun i => (ws[i]?).getD (fresh i)) size (C.lineBits * C.linesOf size)

/-- A cache that is only built when it is wanted. -/
def buildIf (speed : Bool) (sel : Option (List Nat)) : Option (Option (List Nat)) :=
  if speed then sel.map some else some none

/-- The rank cache over `nl` lines, with the entry for the end. -/
def SeClass.cacheList (nl : Nat) : List ρ :=
  (range nl).map (C.entry W) ++ [C.last (rankBefore W C.lineWords nl)]

/-- The object after `build_cache`. -/
def SeClass.built (W behind : Nat → BitVec 64) (size : Nat) (sel0 sel1 : Option (List Nat)) :
    Se ρ where
  words := some (fun i => if i < C.lineWords * C.linesOf size then W i else behind i)
  size := size
  rankCache := some (C.cacheList W (C.linesOf size))
  sel0Cache := sel0
  sel1Cache := sel1
  maxRank0 := wsub size (rankBefore W C.lineWords (C.linesOf size))
  maxRank1 := rankBefore W C.lineWords (C.linesOf size)

/-- `(max_rank + LineBits - 1) / LineBits` -/
def SeClass.slots (maxRank : Nat) : Nat := (maxRank + C.lineBits - 1) / C.lineBits

/-- `build_cache` once the words stand: the index of `W`. -/
def SeClass.buildIndex (W behind : Nat → BitVec 64) (size : Nat) (speed0 speed1 : Bool) :
    Option (Se ρ) :=
  let nl := C.linesOf size
  let rank := rankBefore W C.lineWords nl
  (buildIf speed0 (buildSel (fun k => ((C.cacheList W nl)[k]?).map
    (fun rc => wsub (k * C.lineBits) (C.base rc))) C.lineBits (C.slots (wsub size rank)) nl)).bind
    (fun sel0 =>
      (buildIf speed1 (buildSel (fun k => ((C.cacheList W nl)[k]?).map C.base)
        C.lineBits (C.slots rank) nl)).map
        (fun sel1 => C.built W behind size sel0 sel1))

/-- `build_cache`: without words it returns at once and leaves the object without
    a cache.  `fresh` is the content of newly allocated words, `behind` what stands
    behind the words of the lines (the index itself). -/
def SeClass.buildCache (fresh behind : Nat → BitVec 64) (v : FeBitVec) (speed0 speed1 : Bool) :
    Option (Se ρ) :=
  if v.size > 2 ^ 32 - 1 then none
  else match v.words with
    | none => some ⟨none, v.size, none, none, none, 0, 0⟩
    | some ws => C.buildIndex (C.preparedWords fresh ws v.size) behind v.size speed0 speed1

/-! ## Rank and select -/

variable (bits : Nat → BitVec 64) (rankCache : List ρ)

/-- `fast_rank1(bits, rankCache, bitpos)` -/
def SeClass.fastRank1 (bitpos : Nat) : Option Nat :=
  (rankCache[bitpos / C.lineBits]?).map (fun rc =>
    C.base rc + C.lev rc (bitpos % C.lineBits / 64) +
      fastPopcountTrail (bits (bitpos / 64)) (bitpos % 64))

/-- `rank1` has the same body, on the object's own pointers; without a rank cache
    it reads through `NULL`. -/
def SeClass.rank1 (c : Se ρ) (bitpos : Nat) : Option Nat :=
  c.words.bind (fun bits => c.rankCache.bind (fun rc => C.fastRank1 bits rc bitpos))

/-- Is line `k` at or before the one that holds the zero asked for? -/
def SeClass.before0 (R k : Nat) : Option Bool :=
  (rankCache[k]?).map (fun rc => decide (wsub (C.lineBits * k) (C.base rc) ≤ R))

/-- The same for a one. -/
def SeClass.before1 (R k : Nat) : Option Bool :=
  (rankCache[k]?).map (fun rc => decide (C.base rc ≤ R))

/-- `select0_upper_bound_line`, `select1_upper_bound_line`: a range of less than 32
    lines is scanned. -/
def upperBoundLine (before : Nat → Option Bool) (fuel lo hi : Nat) : Option Nat :=
  if wsub hi lo < 32 then scan before fuel lo else upperBound before lo hi

/-- The search of the member functions. -/
def SeClass.memberBoundLine (before : Nat → Option Bool) (fuel lo hi : Nat) : Option Nat :=
  if C.memberScans then upperBoundLine before fuel lo hi else upperBound before lo hi

/-- The selection of a zero in the line before `lo`. -/
def SeClass.selectAt0 (R lo : Nat) : Option Nat :=
  if lo = 0 then none
  else (rankCache[lo - 1]?).bind (fun rc =>
    (C.pick0 R (wsub (C.lineBits * (lo - 1)) (C.base rc)) rc
      (fun j => bits (C.lineWords * (lo - 1) + j))).map ((lo - 1) * C.lineBits + ·))

/-- The selection of a one in the line before `lo`. -/
def SeClass.selectAt1 (R lo : Nat) : Option Nat :=
  if lo = 0 then none
  else (rankCache[lo - 1]?).bind (fun rc =>
    (C.pick1 R (C.base rc) rc
      (fun j => bits (C.lineWords * (lo - 1) + j))).map ((lo - 1) * C.lineBits + ·))

/-- `fast_select0(bits, sel0, rankCache, Rank0)` -/
def SeClass.fastSelect0 (sel0 : List Nat) (rankCache : List ρ) (R : Nat) : Option Nat :=
  (sel0[R / C.lineBits]?).bind (fun lo =>
    (sel0[R / C.lineBits + 1]?).bind (fun hi =>
      (upperBoundLine (C.before0 rankCache R) (rankCache.length + 1) lo hi).bind
        (C.selectAt0 bits rankCache R)))

/-- `fast_select1(bits, sel1, rankCache, Rank1)` -/
def SeClass.fastSelect1 (sel1 : List Nat) (rankCache : List ρ) (R : Nat) : Option Nat :=
  (sel1[R / C.lineBits]?).bind (fun lo =>
    (sel1[R / C.lineBits + 1]?).bind (fun hi =>
      (upperBoundLine (C.before1 rankCache R) (rankCache.length + 1) lo hi).bind
        (C.selectAt1 bits rankCache R)))

/-- The range a member function searches: between two slots of its cache, or
    `[0, (m_size + LineBits + 1) / LineBits)`. -/
def SeClass.memberRange (sel : Option (List Nat)) (size R : Nat) : Option (Nat × Nat) :=
  match sel with
  | none => some (0, (size + C.lineBits + 1) / C.lineBits)
  | some s => (s[R / C.lineBits]?).bind (fun lo =>
    (s[R / C.lineBits + 1]?).map (fun hi => (lo, hi)))

/-- `select0(Rank0)` -/
def SeClass.select0 (c : Se ρ) (R : Nat) : Option Nat :=
  c.words.bind (fun bits => c.rankCache.bind (fun rc =>
    (C.memberRange c.sel0Cache c.size R).bind (fun r =>
      (C.memberBoundLine (C.before0 rc R) (rc.length + 1) r.1 r.2).bind
        (C.selectAt0 bits rc R))))

/-- `select1(Rank1)` -/
def SeClass.select1 (c : Se ρ) (R : Nat) : Option Nat :=
  c.words.bind (fun bits => c.rankCache.bind (fun rc =>
    (C.memberRange c.sel1Cache c.size R).bind (fun r =>
      (C.memberBoundLine (C.before1 rc R) (rc.length + 1) r.1 r.2).bind
        (C.selectAt1 bits rc R))))

end Build

/-! ## What a class has to provide -/

/-- The laws the generic proofs use: entries carry the count before their line and
    the two choices select inside a line. -/
structure Lawful {ρ : Type} (C : SeClass ρ) : Prop where
  words : C.lineWords = 4 ∨ C.lineWords = 8
  base_entry : ∀ W i, C.base (C.entry W i) = rankBefore W C.lineWords i % 2 ^ 32
  base_last : ∀ rank, C.base (C.last rank) = rank % 2 ^ 32
  pick1 : ∀ W bit64 i R, (∀ j, j < C.lineWords → bit64 j = W (C.lineWords * i + j)) →
    ones (wordBits W) (64 * (C.lineWords * i)) ≤ R →
    R < ones (wordBits W) (64 * (C.lineWords * i + C.lineWords)) →
    ∃ b, C.pick1 R (ones (wordBits W) (64 * (C.lineWords * i))) (C.entry W i) bit64 = some b ∧
      IsSelect (wordBits W) R (64 * (C.lineWords * i) + b)
  pick0 : ∀ W bit64 i R, (∀ j, j < C.lineWords → bit64 j = W (C.lineWords * i + j)) →
    ones (negBits (wordBits W)) (64 * (C.lineWords * i)) ≤ R →
    R < ones (negBits (wordBits W)) (64 * (C.lineWords * i + C.lineWords)) →
    ∃ b, C.pick0 R (ones (negBits (wordBits W)) (64 * (C.lineWords * i))) (C.entry W i) bit64
        = some b ∧
      IsSelect (negBits (wordBits W)) R (64 * (C.lineWords * i) + b)

/-- The law of the relative counts: entries carry the counts before each word. -/
structure LawfulLev {ρ : Type} (C : SeClass ρ) : Prop extends Lawful C where
  lev_entry : ∀ W i j, j < C.lineWords → C.lev (C.entry W i) j = incFrom W (C.lineWords * i) j
  lev_last : ∀ rank, C.lev (C.last rank) 0 = 0

/-! ### Lines of 256 bits -/

theorem incFrom_le (m j : Nat) : incFrom W m j ≤ 64 * j := by
  have h1 := incFrom_eq W m j
  have h2 := ones_add_le (wordBits W) (64 * m) (64 * j)
  rw [← mul_add] at h2
  omega

private theorem lineCounts_entry (i : Nat) : LineCounts W (4 * i) (se256.entry W i).lev2 := by
  intro j
  have hle := incFrom_le W (4 * i) j
  show _ + incFrom W (4 * i) j % 2 ^ 8 = _
  rw [mod_eq_of_lt (by omega), incFrom_eq]

/-- Four words of a line, counted in bytes. -/
theorem se256_lawful : LawfulLev se256 where
  words := Or.inl rfl
  base_entry := fun _ _ => rfl
  base_last := fun _ => rfl
  lev_entry := by
    intro W i j hj
    have hj4 : j < 4 := hj
    have hle := incFrom_le W (4 * i) j
    show incFrom W (4 * i) (j % 4) % 2 ^ 8 = incFrom W (4 * i) j
    rw [mod_eq_of_lt hj4, mod_eq_of_lt (by omega)]
  lev_last := fun _ => rfl
  pick1 := by
    intro W bit64 i R hbit
    dsimp only [se256] at hbit ⊢
    exact selectLine1_select rfl (lineCounts_entry W i) (fun j => hbit j j.isLt)
  pick0 := by
    intro W bit64 i R hbit
    dsimp only [se256] at hbit ⊢
    exact selectLine0_select rfl (lineCounts_entry W i) (fun j => hbit j j.isLt)

/-! ### Lines of 512 bits -/

/-- The counts go into nine-bit fields; the first seven fit. -/
theorem relaLoop_eq (m : Nat) {j : Nat} (hj : j ≤ 7) :
    relaLoop W m j = pack 9 (fun i => incFrom W m (i + 1)) j := by
  induction j with
  | zero => rfl
  | succ j ih =>
    have hle := incFrom_le W m (j + 1)
    have hlow : pack 9 (fun i => incFrom W m (i + 1)) j < 2 ^ (9 * j) :=
      pack_lt (fun i hi => by have := incFrom_le W m (i + 1); show _ < 2 ^ 9; omega)
    have hshift : incFrom W m (j + 1) <<< (j * 9) < 2 ^ 64 := by
      have h9 : incFrom W m (j + 1) < 2 ^ 9 := by omega
      have hle64 : 2 ^ (9 + j * 9) ≤ 2 ^ 64 := Nat.pow_le_pow_right (by decide) (by omega)
      rw [shiftLeft_eq]
      calc incFrom W m (j + 1) * 2 ^ (j * 9) < 2 ^ 9 * 2 ^ (j * 9) :=
            mul_lt_mul_of_pos_right h9 (Nat.two_pow_pos _)
        _ = 2 ^ (9 + j * 9) := (pow_add 2 9 (j * 9)).symm
        _ ≤ 2 ^ 64 := hle64
    rw [relaLoop, ih (by omega), mod_eq_of_lt hshift, Nat.or_comm, mul_comm j 9,
      ← shiftLeft_add_eq_or_of_lt hlow, shiftLeft_eq, pack_succ, add_comm]

/-- The eighth count only reaches the top bit, which is cleared. -/
theorem rela_eq (m : Nat) :
    relaLoop W m 8 &&& (2 ^ 64 - 1) >>> 1 = pack 9 (fun i => incFrom W m (i + 1)) 7 := by
  have hlow : pack 9 (fun i => incFrom W m (i + 1)) 7 < 2 ^ (9 * 7) :=
    pack_lt (fun i hi => by have := incFrom_le W m (i + 1); show _ < 2 ^ 9; omega)
  have htop : (incFrom W m 8 <<< (7 * 9)) % 2 ^ 64 = (incFrom W m 8 % 2) <<< 63 := by
    omega
  have hmask : (2 ^ 64 - 1) >>> 1 = 2 ^ 63 - 1 := by decide
  rw [relaLoop, relaLoop_eq W m le_rfl, htop, hmask, and_two_pow_sub_one_eq_mod, Nat.or_comm,
    ← shiftLeft_add_eq_or_of_lt hlow]
  omega

/-- Eight counts of 9 bits in one word. -/
theorem rank512_entry (i : Nat) (hk : k < 8) :
    rank512 (relaLoop W (8 * i) 8 &&& (2 ^ 64 - 1) >>> 1) k = incFrom W (8 * i) k := by
  rw [rela_eq]
  cases k with
  | zero => rfl
  | succ k =>
    have hf := field_pack (w := 9) (f := fun j => incFrom W (8 * i) (j + 1)) (m := 7) (k := k)
      (fun j hj => by have := incFrom_le W (8 * i) (j + 1); show _ < 2 ^ 9; omega) (by omega)
    rw [rank512, if_neg (succ_ne_zero k), Nat.add_sub_cancel,
      show (511 : Nat) = 2 ^ 9 - 1 from rfl, and_two_pow_sub_one_eq_mod,
      shiftRight_eq_div_pow, mul_comm k 9]
    exact hf

/-- The eight-way choice selects, like the four-way one. -/
theorem pick8_select {W : Nat → BitVec 64} {m R : Nat} {hit : Nat → Nat}
    {bit64 : Nat → BitVec 64}
    (hh : ∀ j, j < 8 → hit j = ones (wordBits W) (64 * (m + j)))
    (hbit : ∀ j, j < 8 → bit64 j = W (m + j))
    (hlo : ones (wordBits W) (64 * m) ≤ R)
    (hhi : R < ones (wordBits W) (64 * (m + 8))) :
    ∃ b, pick8 R hit bit64 = some b ∧ IsSelect (wordBits W) R (64 * m + b) := by
  -- a leaf, and the comparisons that lead to it
  have leaf : ∀ n, n < 8 → hit n ≤ R → R < ones (wordBits W) (64 * (m + n + 1)) →
      ∃ b, (uintSelect1 (bit64 n) (wsub R (hit n))).map (64 * n + ·) = some b ∧
        IsSelect (wordBits W) R (64 * m + b) := by
    intro n hn h1 h2
    rw [hbit n hn]
    exact pick_leaf (hh n hn) h1 h2
  have up : ∀ n, n + 1 < 8 → R < hit (n + 1) → R < ones (wordBits W) (64 * (m + n + 1)) := by
    intro n hn h
    rw [hh (n + 1) hn] at h
    exact h
  have h0 : hit 0 ≤ R := by
    rw [hh 0 (by decide)]
    exact hlo
  unfold pick8
  split_ifs with c4 c2 c1 c3 c6 c5 c7
  · exact leaf 0 (by decide) h0 (up 0 (by decide) c1)
  · exact leaf 1 (by decide) (not_lt.mp c1) (up 1 (by decide) c2)
  · exact leaf 2 (by decide) (not_lt.mp c2) (up 2 (by decide) c3)
  · exact leaf 3 (by decide) (not_lt.mp c3) (up 3 (by decide) c4)
  · exact leaf 4 (by decide) (not_lt.mp c4) (up 4 (by decide) c5)
  · exact leaf 5 (by decide) (not_lt.mp c5) (up 5 (by decide) c6)
  · exact leaf 6 (by decide) (not_lt.mp c6) (up 6 (by decide) c7)
  · exact leaf 7 (by decide) (not_lt.mp c7) hhi

/-- Eight words of a line, counted in 9 bits each. -/
theorem se512_lawful : LawfulLev se512 where
  words := Or.inr rfl
  base_entry := fun _ _ => rfl
  base_last := fun _ => rfl
  lev_entry := fun W i _ hj => rank512_entry W i hj
  lev_last := fun _ => rfl
  pick1 := by
    intro W bit64 i R hbit
    dsimp only [se512] at hbit ⊢
    refine pick8_select (fun j hj => ?_) hbit
    rw [rank512_entry W i hj, incFrom_eq]
  pick0 := by
    intro W bit64 i R hbit
    dsimp only [se512] at hbit ⊢
    have hw := wordBits_not (W := W) (by decide)
    rw [← hw]
    refine pick8_select (fun j hj => ?_) (fun j hj => by rw [hbit j hj])
    have h1 := incFrom_eq W (8 * i) j
    have h2 := ones_add_negBits (wordBits W) (64 * (8 * i))
    have h3 := ones_add_negBits (wordBits W) (64 * (8 * i + j))
    rw [rank512_entry W i hj, hw, wsub_eq (by omega)]
    omega

/-! ## The invariant of a built object -/

section Index

variable {ρ : Type} {C : SeClass ρ} {W : Nat → BitVec 64} {n R nl t lo hi maxRank : Nat}
  {G : Nat → Bool} {sel : Option (List Nat)}

/-- A select cache over the levels of `G` up to `maxRank`. -/
def SeClass.table (C : SeClass ρ) (G : Nat → Bool) (nl maxRank : Nat) : List Nat :=
  (range (C.slots maxRank)).map (slotLine G C.lineBits nl C.lineBits) ++ [nl]

/-- What `W` holds behind the first `n` bits of its lines is zero. -/
def SeClass.CleanTo (C : SeClass ρ) (W : Nat → BitVec 64) (n : Nat) : Prop :=
  ∀ p, n ≤ p → p < C.lineBits * C.linesOf n → wordBits W p = false

/-- What `build_cache` leaves. -/
structure SeOk (C : SeClass ρ) (W : Nat → BitVec 64) (n : Nat) (c : Se ρ) : Prop where
  size : c.size = n
  words : ∃ bits, c.words = some bits ∧ ∀ i, i < C.lineWords * C.linesOf n → bits i = W i
  cache : c.rankCache = some (C.cacheList W (C.linesOf n))
  max1 : c.maxRank1 = ones (wordBits W) n
  max0 : c.maxRank0 = ones (negBits (wordBits W)) n
  sel0 : ∀ s, c.sel0Cache = some s →
    s = C.table (negBits (wordBits W)) (C.linesOf n) c.maxRank0
  sel1 : ∀ s, c.sel1Cache = some s → s = C.table (wordBits W) (C.linesOf n) c.maxRank1

/-- The lines of a size: just enough of them. -/
theorem Lawful.lines (hC : Lawful C) (n : Nat) :
    n ≤ C.lineBits * C.linesOf n ∧ C.lineBits * C.linesOf n < n + C.lineBits := by
  unfold SeClass.linesOf SeClass.lineBits
  rcases hC.words with hw | hw
  · rw [hw]
    omega
  · rw [hw]
    omega

theorem Lawful.lineBits_ge (hC : Lawful C) : 2 ≤ C.lineBits := by
  unfold SeClass.lineBits
  rcases hC.words with hw | hw
  · rw [hw]
    decide
  · rw [hw]
    decide

theorem ones_lines (hC : Lawful C) (hclean : C.CleanTo W n) :
    ones (wordBits W) (C.lineBits * C.linesOf n) = ones (wordBits W) n :=
  ones_eq_of_zeros (hC.lines n).1 hclean

theorem rankBefore_lineCount (C : SeClass ρ) (W : Nat → BitVec 64) (k : Nat) :
    rankBefore W C.lineWords k = lineCount (wordBits W) C.lineBits k := by
  rw [rankBefore_eq, ← mul_assoc]
  rfl

/-- The total is the number of ones. -/
theorem rankBefore_size (hC : Lawful C) (hclean : C.CleanTo W n) :
    rankBefore W C.lineWords (C.linesOf n) = ones (wordBits W) n := by
  rw [rankBefore_lineCount]
  exact ones_lines hC hclean

/-- The zeros of all lines. -/
theorem wsub_rankBefore (hC : Lawful C) (hclean : C.CleanTo W n) :
    wsub n (rankBefore W C.lineWords (C.linesOf n)) = ones (negBits (wordBits W)) n := by
  rw [rankBefore_size hC hclean, wsub_ones]

theorem lineCount_lt (hC : Lawful C) (hn : n < 2 ^ 32) (hclean : C.CleanTo W n)
    (hk : k ≤ C.linesOf n) : lineCount (wordBits W) C.lineBits k < 2 ^ 32 := by
  have h1 := lineCount_mono (wordBits W) C.lineBits k (C.linesOf n) hk le_rfl
  have h2 := ones_le (wordBits W) n
  have h3 : lineCount (wordBits W) C.lineBits (C.linesOf n) = ones (wordBits W) n :=
    ones_lines hC hclean
  omega

theorem cacheList_get (hk : k < nl) : (C.cacheList W nl)[k]? = some (C.entry W k) := by
  rw [SeClass.cacheList, getElem?_append_left (by simpa using hk)]
  simp [hk]

theorem cacheList_last (nl : Nat) :
    (C.cacheList W nl)[nl]? = some (C.last (rankBefore W C.lineWords nl)) := by
  rw [SeClass.cacheList]
  simp

theorem cacheList_length (nl : Nat) : (C.cacheList W nl).length = nl + 1 := by
  simp [SeClass.cacheList]

/-- The cache holds the count before every line and before the end. -/
theorem cacheList_base (hC : Lawful C) (hn : n < 2 ^ 32) (hclean : C.CleanTo W n)
    (hk : k ≤ C.linesOf n) :
    ∃ rc, (C.cacheList W (C.linesOf n))[k]? = some rc ∧
      C.base rc = lineCount (wordBits W) C.lineBits k := by
  have hlt := lineCount_lt hC hn hclean hk
  by_cases hkn : k < C.linesOf n
  · refine ⟨_, cacheList_get hkn, ?_⟩
    rw [hC.base_entry, rankBefore_lineCount, mod_eq_of_lt hlt]
  · obtain rfl : k = C.linesOf n := by omega
    refine ⟨_, cacheList_last _, ?_⟩
    rw [hC.base_last, rankBefore_lineCount, mod_eq_of_lt hlt]

/-! ## Rank -/

/-- `rank1` counts the ones before every position up to the size. -/
theorem fastRank1_eq (hC : LawfulLev C) (hn : n < 2 ^ 32) (hclean : C.CleanTo W n)
    {bits : Nat → BitVec 64} (hbits : ∀ i, i < C.lineWords * C.linesOf n → bits i = W i)
    (hi : i ≤ n) :
    C.fastRank1 bits (C.cacheList W (C.linesOf n)) i = some (ones (wordBits W) i) := by
  have hlines := hC.toLawful.lines n
  have hpos : 0 < C.lineBits := by
    have := hC.toLawful.lineBits_ge
    omega
  have hk : i / C.lineBits ≤ C.linesOf n := by
    refine le_trans (Nat.div_le_div_right (hi.trans hlines.1)) ?_
    rw [Nat.mul_div_cancel_left _ hpos]
  obtain ⟨rc, hrc, hbase⟩ := cacheList_base hC.toLawful hn hclean hk
  rw [SeClass.fastRank1, hrc, map_some, hbase]
  congr 1
  have hdm := div_add_mod i C.lineBits
  have hmod := mod_lt i hpos
  by_cases hkn : i / C.lineBits < C.linesOf n
  · -- inside a line
    obtain rfl := mem_unique (cacheList_get hkn) hrc
    have hj : i % C.lineBits / 64 < C.lineWords := by
      rw [div_lt_iff_lt_mul (by decide), mul_comm]
      exact hmod
    have hword : i / 64 = C.lineWords * (i / C.lineBits) + i % C.lineBits / 64 := by
      unfold SeClass.lineBits
      rcases hC.words with hw | hw
      · rw [hw]
        omega
      · rw [hw]
        omega
    have hin : i / 64 < C.lineWords * C.linesOf n := by
      have h1 : C.lineWords * (i / C.lineBits + 1) ≤ C.lineWords * C.linesOf n :=
        mul_le_mul_left _ hkn
      rw [mul_succ] at h1
      omega
    rw [hC.lev_entry W _ _ hj, hbits _ hin, fastPopcountTrail_eq _ (by omega)]
    have hinc := incFrom_eq W (C.lineWords * (i / C.lineBits)) (i % C.lineBits / 64)
    have hones := ones_wordBits_add (W := W) (j := i / 64) (b := i % 64) (by omega)
    rw [← hword] at hinc
    rw [div_add_mod, ← hinc, ← mul_assoc] at hones
    exact hones.symm
  -- at the end of the last line
  have heq : i / C.lineBits = C.linesOf n := by omega
  rw [heq] at hrc hdm ⊢
  obtain rfl := mem_unique (cacheList_last _) hrc
  have hi0 : i % C.lineBits = 0 := by omega
  have hi' : C.lineBits * C.linesOf n = i := by omega
  have h64 : i % 64 = 0 := by
    rw [← hi', SeClass.lineBits, mul_assoc, mul_mod_right]
  rw [hi0, hC.lev_last, h64, fastPopcountTrail_eq _ (by decide), lineCount, hi']
  rfl

/-! ## Select -/

/-- Both searches find a line bound inside the range they are given. -/
theorem boundLine_eq {before : Nat → Option Bool}
    (hb : ∀ k, k ≤ nl → before k = some (decide (k < t))) (ht : t ≤ nl) (hlo : lo ≤ t)
    (hhi : t ≤ hi) (hend : hi ≤ nl + 1) :
    upperBoundLine before (nl + 2) lo hi = some t ∧ upperBound before lo hi = some t := by
  have hbin : upperBound before lo hi = some t :=
    upperBound_eq hlo hhi (fun k _ hk => hb k (by omega))
  refine ⟨?_, hbin⟩
  unfold upperBoundLine
  split
  · exact scan_eq _ lo hlo (by omega) (fun k _ hk => hb k (by omega))
  · exact hbin

/-- The member search finds the line. -/
theorem memberBoundLine_eq {before : Nat → Option Bool}
    (hb : ∀ k, k ≤ nl → before k = some (decide (k < t))) (ht : t ≤ nl) (hlo : lo ≤ t)
    (hhi : t ≤ hi) (hend : hi ≤ nl + 1) : C.memberBoundLine before (nl + 2) lo hi = some t := by
  obtain ⟨h1, h2⟩ := boundLine_eq hb ht hlo hhi hend
  unfold SeClass.memberBoundLine
  split
  · exact h1
  · exact h2

/-- One kind of bits, the ones or the zeros: the count of the kind before a line, from the entry
    of the line, and the choice in a line. -/
structure Side (C : SeClass ρ) (W : Nat → BitVec 64) (n : Nat) where
  G : Nat → Bool
  hit : Nat → ρ → Nat
  pick : Nat → Nat → ρ → (Nat → BitVec 64) → Option Nat
  count : ∀ k, k ≤ C.linesOf n → ∃ rc, (C.cacheList W (C.linesOf n))[k]? = some rc ∧
    hit k rc = lineCount G C.lineBits k
  select : ∀ bit64 i R, (∀ j, j < C.lineWords → bit64 j = W (C.lineWords * i + j)) →
    ones G (64 * (C.lineWords * i)) ≤ R → R < ones G (64 * (C.lineWords * i + C.lineWords)) →
    ∃ b, pick R (ones G (64 * (C.lineWords * i))) (C.entry W i) bit64 = some b ∧
      IsSelect G R (64 * (C.lineWords * i) + b)

/-- Selecting ones. -/
def Lawful.onesSide (hC : Lawful C) (hn : n < 2 ^ 32) (hclean : C.CleanTo W n) : Side C W n where
  G := wordBits W
  hit := fun _ => C.base
  pick := C.pick1
  count := fun _ hk => cacheList_base hC hn hclean hk
  select := hC.pick1 W

/-- Selecting zeros. -/
def Lawful.zerosSide (hC : Lawful C) (hn : n < 2 ^ 32) (hclean : C.CleanTo W n) : Side C W n where
  G := negBits (wordBits W)
  hit := fun k rc => wsub (C.lineBits * k) (C.base rc)
  pick := C.pick0
  count := by
    intro k hk
    obtain ⟨rc, hrc, hbase⟩ := cacheList_base hC hn hclean hk
    exact ⟨rc, hrc, by rw [hbase, wsub_lineCount]⟩
  select := hC.pick0 W

namespace Side

variable (S : Side C W n)

/-- `before1`, `before0` -/
def before (R k : Nat) : Option Bool :=
  ((C.cacheList W (C.linesOf n))[k]?).map (fun rc => decide (S.hit k rc ≤ R))

/-- `selectAt1`, `selectAt0` -/
def selectAt (bits : Nat → BitVec 64) (R lo : Nat) : Option Nat :=
  if lo = 0 then none
  else ((C.cacheList W (C.linesOf n))[lo - 1]?).bind (fun rc =>
    (S.pick R (S.hit (lo - 1) rc) rc (fun j => bits (C.lineWords * (lo - 1) + j))).map
      ((lo - 1) * C.lineBits + ·))

/-- The line bound of a rank. -/
def bound (R : Nat) : Nat := lineBound S.G C.lineBits (C.linesOf n) R

/-- The comparison tells the lines before the bound. -/
theorem before_eq (hk : k ≤ C.linesOf n) : S.before R k = some (decide (k < S.bound R)) := by
  obtain ⟨rc, hrc, hhit⟩ := S.count k hk
  rw [before, hrc, map_some, hhit]
  exact congrArg some (decide_eq_decide.mpr (lineCount_le_iff hk))

end Side

variable (S : Side C W n) {bits : Nat → BitVec 64}
  (hbits : ∀ i, i < C.lineWords * C.linesOf n → bits i = W i)

include hbits in
/-- In the right line the bit is found. -/
theorem Side.selectAt_eq (hR : R < lineCount S.G C.lineBits (C.linesOf n)) :
    ∃ p, S.selectAt bits R (S.bound R) = some p ∧ IsSelect S.G R p := by
  obtain ⟨k, ht, hk, hlo, hhi⟩ := lineBound_spec hR
  have e1 : C.lineBits * k = 64 * (C.lineWords * k) := mul_assoc ..
  have e2 : C.lineBits * (k + 1) = 64 * (C.lineWords * k + C.lineWords) := mul_assoc ..
  obtain ⟨rc, hrc, hhit⟩ := S.count k hk.le
  obtain rfl := mem_unique (cacheList_get hk) hrc
  rw [lineCount, e1] at hhit
  rw [e1] at hlo
  rw [e2] at hhi
  have hword : ∀ j, j < C.lineWords → bits (C.lineWords * k + j) = W (C.lineWords * k + j) := by
    intro j hj
    refine hbits _ ?_
    have h1 : C.lineWords * (k + 1) ≤ C.lineWords * C.linesOf n := mul_le_mul_left _ hk
    rw [mul_succ] at h1
    omega
  obtain ⟨b, hsel, his⟩ := S.select _ k R hword hlo hhi
  refine ⟨k * C.lineBits + b, ?_, ?_⟩
  · rw [Side.bound, ht, Side.selectAt, if_neg k.succ_ne_zero, Nat.add_sub_cancel, hrc, bind_some,
      hhit, hsel, map_some]
  · rwa [mul_comm k, e1]

/-! ## The select caches -/

/-- The loop tabulates the levels of `G`. -/
theorem buildSel_table (hC : Lawful C) {val : Nat → Option Nat}
    (hval : ∀ k, k ≤ nl → val k = some (lineCount G C.lineBits k))
    (hmax : maxRank ≤ lineCount G C.lineBits nl) :
    buildSel val C.lineBits (C.slots maxRank) nl = some (C.table G nl maxRank) := by
  have hL := hC.lineBits_ge
  refine buildSel_eq hval hmax (fun j hj => ?_)
  have h1 : (j + 1) * C.lineBits ≤ maxRank + C.lineBits - 1 :=
    (le_div_iff_mul_le (by omega)).mp hj
  rw [succ_mul, mul_comm] at h1
  omega

/-- The two slots read for `R`, and what they enclose. -/
theorem table_slots (hC : Lawful C) (hR : R < maxRank) (hline : R < lineCount G C.lineBits nl) :
    ∃ lo hi, (C.table G nl maxRank)[R / C.lineBits]? = some lo ∧
      (C.table G nl maxRank)[R / C.lineBits + 1]? = some hi ∧
      lo ≤ lineBound G C.lineBits nl R ∧ lineBound G C.lineBits nl R ≤ hi ∧ hi ≤ nl + 1 := by
  have hL := hC.lineBits_ge
  have hslot : R / C.lineBits < C.slots maxRank := by
    refine (le_div_iff_mul_le (by omega)).mpr ?_
    have := div_mul_le_self R C.lineBits
    rw [succ_mul]
    omega
  obtain ⟨h1, h2⟩ := slots_enclose (C.slots maxRank) (show 0 < C.lineBits by omega) hline
  refine ⟨_, _, hints_slot _ _ _ hslot.le, hints_slot _ _ _ hslot, ?_, h2, ?_⟩
  · rw [if_pos hslot]
    exact h1
  · split
    · exact slotLine_le _ _ _ _ _
    · exact le_succ nl

theorem global_range (hC : Lawful C) (n : Nat) (ht : t ≤ C.linesOf n) :
    t ≤ (n + C.lineBits + 1) / C.lineBits ∧
      (n + C.lineBits + 1) / C.lineBits ≤ C.linesOf n + 1 := by
  unfold SeClass.linesOf at ht ⊢
  unfold SeClass.lineBits at ht ⊢
  rcases hC.words with hw | hw
  · rw [hw] at ht ⊢
    omega
  · rw [hw] at ht ⊢
    omega

/-! ## The built object answers -/

variable {c : Se ρ}

/-- `rank1` counts the ones before a place. -/
theorem SeOk.rank1_eq (hC : LawfulLev C) (hn : n < 2 ^ 32) (hclean : C.CleanTo W n)
    (h : SeOk C W n c) (hi : i ≤ n) : C.rank1 c i = some (ones (wordBits W) i) := by
  obtain ⟨bits, hw, hbits⟩ := h.words
  rw [SeClass.rank1, hw, h.cache]
  exact fastRank1_eq hC hn hclean hbits hi

section Sides

variable (hC : Lawful C) {maxRank : Nat} (hmax : maxRank = ones S.G n) (hR : R < maxRank)

include hC hmax hR

theorem Side.lt_lineCount : R < lineCount S.G C.lineBits (C.linesOf n) := by
  rw [hmax] at hR
  exact hR.trans_le (ones_mono _ (hC.lines n).1)

include hbits

/-- The search over all lines. -/
theorem Side.whole_eq : ∃ p, (upperBound (S.before R) 0 (C.linesOf n)).bind (S.selectAt bits R) =
    some p ∧ IsSelect S.G R p := by
  have hline := S.lt_lineCount hC hmax hR
  have hle := lineBound_le hline
  obtain ⟨p, hp, hsel⟩ := S.selectAt_eq hbits hline
  refine ⟨p, ?_, hsel⟩
  rw [(boundLine_eq (fun k hk => S.before_eq hk) hle (zero_le _) hle (le_succ _)).2]
  exact hp

/-- The search between two entries of the cache. -/
theorem Side.fast_eq {s : List Nat} (hs : s = C.table S.G (C.linesOf n) maxRank) :
    ∃ p, (s[R / C.lineBits]?).bind (fun lo => (s[R / C.lineBits + 1]?).bind (fun hi =>
      (upperBoundLine (S.before R) (C.linesOf n + 2) lo hi).bind (S.selectAt bits R))) = some p ∧
      IsSelect S.G R p := by
  have hline := S.lt_lineCount hC hmax hR
  have hle := lineBound_le hline
  obtain ⟨p, hp, hsel⟩ := S.selectAt_eq hbits hline
  obtain ⟨lo, hi, e1, e2, h1, h2, h3⟩ := table_slots hC hR hline
  refine ⟨p, ?_, hsel⟩
  rw [hs, e1, bind_some, e2, bind_some, (boundLine_eq (fun k hk => S.before_eq hk) hle h1 h2 h3).1]
  exact hp

/-- Select of the member functions, through the cache or over all lines. -/
theorem Side.member_eq (hsel : ∀ s, sel = some s → s = C.table S.G (C.linesOf n) maxRank) :
    ∃ p, (C.memberRange sel n R).bind (fun r =>
      (C.memberBoundLine (S.before R) (C.linesOf n + 2) r.1 r.2).bind
        (S.selectAt bits R)) = some p ∧ IsSelect S.G R p := by
  have hline := S.lt_lineCount hC hmax hR
  have hle := lineBound_le hline
  obtain ⟨p, hp, his⟩ := S.selectAt_eq hbits hline
  obtain ⟨lo, hi, hrange, hlo, hhi, hend⟩ : ∃ lo hi, C.memberRange sel n R = some (lo, hi) ∧
      lo ≤ S.bound R ∧ S.bound R ≤ hi ∧ hi ≤ C.linesOf n + 1 := by
    cases sel with
    | none =>
      obtain ⟨h1, h2⟩ := global_range hC n hle
      exact ⟨_, _, rfl, zero_le _, h1, h2⟩
    | some s =>
      obtain ⟨lo, hi, e1, e2, h1, h2, h3⟩ := table_slots hC hR hline
      obtain rfl := hsel s rfl
      refine ⟨lo, hi, ?_, h1, h2, h3⟩
      rw [SeClass.memberRange, e1, e2]
      rfl
  refine ⟨p, ?_, his⟩
  rw [hrange, bind_some, memberBoundLine_eq (fun k hk => S.before_eq hk) hle hlo hhi hend]
  exact hp

end Sides

section

variable (hC : Lawful C) (hn : n < 2 ^ 32) (hclean : C.CleanTo W n) (h : SeOk C W n c)

include hC hn hclean h

/-- `select1` finds the one. -/
theorem SeOk.select1_eq (hR : R < c.maxRank1) :
    ∃ p, C.select1 c R = some p ∧ IsSelect (wordBits W) R p := by
  obtain ⟨bits, hw, hbits⟩ := h.words
  rw [SeClass.select1, hw, bind_some, h.cache, bind_some, h.size, cacheList_length]
  exact (hC.onesSide hn hclean).member_eq hbits hC h.max1 hR h.sel1

/-- `select0` finds the zero. -/
theorem SeOk.select0_eq (hR : R < c.maxRank0) :
    ∃ p, C.select0 c R = some p ∧ IsSelect (negBits (wordBits W)) R p := by
  obtain ⟨bits, hw, hbits⟩ := h.words
  rw [SeClass.select0, hw, bind_some, h.cache, bind_some, h.size, cacheList_length]
  exact (hC.zerosSide hn hclean).member_eq hbits hC h.max0 hR h.sel0

variable {s : List Nat}

include hbits

theorem SeOk.fastSelect1_eq (hs : c.sel1Cache = some s) (hR : R < c.maxRank1) :
    ∃ p, C.fastSelect1 bits s (C.cacheList W (C.linesOf n)) R = some p ∧
      IsSelect (wordBits W) R p := by
  rw [SeClass.fastSelect1, cacheList_length]
  exact (hC.onesSide hn hclean).fast_eq hbits hC h.max1 hR (h.sel1 s hs)

theorem SeOk.fastSelect0_eq (hs : c.sel0Cache = some s) (hR : R < c.maxRank0) :
    ∃ p, C.fastSelect0 bits s (C.cacheList W (C.linesOf n)) R = some p ∧
      IsSelect (negBits (wordBits W)) R p := by
  rw [SeClass.fastSelect0, cacheList_length]
  exact (hC.zerosSide hn hclean).fast_eq hbits hC h.max0 hR (h.sel0 s hs)

end

/-! ## `build_cache` establishes the invariant -/

private theorem buildIf_eq {t : List Nat} (speed : Bool) (h : sel = some t) :
    ∃ o, buildIf speed sel = some o ∧ (∀ s, o = some s → s = t) ∧ o.isSome = speed := by
  cases speed with
  | false => exact ⟨none, rfl, (fun s hs => nomatch hs), rfl⟩
  | true =>
    rw [h]
    exact ⟨some t, rfl, fun s hs => (some.inj hs).symm, rfl⟩

/-- `build_cache` returns, with the caches that were asked for. -/
theorem buildIndex_ok (hC : Lawful C) (hn : n < 2 ^ 32) (hclean : C.CleanTo W n)
    (behind : Nat → BitVec 64) (speed0 speed1 : Bool) :
    ∃ c, C.buildIndex W behind n speed0 speed1 = some c ∧ SeOk C W n c ∧
      c.sel0Cache.isSome = speed0 ∧ c.sel1Cache.isSome = speed1 := by
  have hrank := rankBefore_size hC hclean
  have hzero := wsub_rankBefore hC hclean
  have hval1 : ∀ k, k ≤ C.linesOf n → ((C.cacheList W (C.linesOf n))[k]?).map C.base
      = some (lineCount (wordBits W) C.lineBits k) := by
    intro k hk
    obtain ⟨rc, hrc, hbase⟩ := cacheList_base hC hn hclean hk
    rw [hrc, map_some, hbase]
  have hval0 : ∀ k, k ≤ C.linesOf n → ((C.cacheList W (C.linesOf n))[k]?).map
      (fun rc => wsub (k * C.lineBits) (C.base rc))
      = some (lineCount (negBits (wordBits W)) C.lineBits k) := by
    intro k hk
    obtain ⟨rc, hrc, hbase⟩ := cacheList_base hC hn hclean hk
    rw [hrc, map_some, hbase, mul_comm k, wsub_lineCount]
  have hfit := (hC.lines n).1
  have hmax0 : wsub n (rankBefore W C.lineWords (C.linesOf n))
      ≤ lineCount (negBits (wordBits W)) C.lineBits (C.linesOf n) := by
    rw [hzero]
    exact ones_mono _ hfit
  have hmax1 : rankBefore W C.lineWords (C.linesOf n)
      ≤ lineCount (wordBits W) C.lineBits (C.linesOf n) := by
    rw [hrank]
    exact ones_mono _ hfit
  obtain ⟨sel0, h0, h0', hs0⟩ := buildIf_eq speed0 (buildSel_table hC hval0 hmax0)
  obtain ⟨sel1, h1, h1', hs1⟩ := buildIf_eq speed1 (buildSel_table hC hval1 hmax1)
  refine ⟨C.built W behind n sel0 sel1, ?_, ⟨rfl, ⟨_, rfl, fun i hi => if_pos hi⟩, rfl, hrank,
    hzero, h0', h1'⟩, hs0, hs1⟩
  show (buildIf speed0 _).bind _ = _
  rw [h0, bind_some, h1]
  rfl

/-- The words of the lines hold the old bits below the size and zeros behind. -/
theorem preparedWords_bits (hC : Lawful C) (fresh : Nat → BitVec 64) (ws : List (BitVec 64))
    (n : Nat) : C.CleanTo (C.preparedWords fresh ws n) n ∧
      ∀ i, i < n → wordBits (C.preparedWords fresh ws n) i
        = wordBits (fun j => (ws[j]?).getD (fresh j)) i := by
  have hle := (hC.lines n).1
  refine ⟨fun p hp hlt => ?_, fun i hi => ?_⟩
  · rw [SeClass.preparedWords, wordBits_bitsRangeSet0 _ hle, if_pos ⟨hp, hlt⟩]
  · rw [SeClass.preparedWords, wordBits_bitsRangeSet0 _ hle, if_neg (by omega)]

end Index

/-! ## Stored sequences -/

/-- The vector stores the sequence: the size is its length and the allocated words
    hold its bits (what they hold behind the size is left open); a vector without
    words can only store the empty sequence. -/
def Stores (v : FeBitVec) (B : List Bool) : Prop :=
  v.size = B.length ∧ match v.words with
    | none => B = []
    | some ws => B.length ≤ 64 * ws.length ∧
        ∀ i, i < B.length → wordBits (fun j => (ws[j]?).getD 0) i = ofList B i

/-- The words prepared for the index read like the sequence. -/
theorem prepared_ofList {ρ : Type} {C : SeClass ρ} (hC : Lawful C) {v : FeBitVec} {B : List Bool}
    (hst : Stores v B) {ws : List (BitVec 64)} (hws : v.words = some ws) (fresh : Nat → BitVec 64)
    (hi : i < v.size) : wordBits (C.preparedWords fresh ws v.size) i = ofList B i := by
  obtain ⟨hsize, hst⟩ := hst
  rw [hws] at hst
  obtain ⟨hlen, hbits⟩ := hst
  rw [hsize] at hi
  rw [(preparedWords_bits hC fresh ws v.size).2 i (by omega), ← hbits i hi]
  have hget : ws[i / 64]? = some (ws.get ⟨i / 64, by omega⟩) :=
    getElem?_eq_getElem (by omega)
  show ((ws[i / 64]?).getD _).getLsbD _ = ((ws[i / 64]?).getD _).getLsbD _
  rw [hget]
  rfl

end RankSelectSe
