import ToplingArk.RankSelectSeProofs

/-! # `rank_select_simple` — one count a line

    The smallest index: one 32-bit count before each line of 256 bits, no select
    caches.  Inside a line `rank1` and `select` walk over the words.  Build and
    search are those of the separate-area classes with an entry that is only the
    count. -/

namespace RankSelectSimple

open BitCount Search RankSelectLine RankSelectSe Option Nat List

/-- The loop over the words of a line: stop at the word whose count passes `R`. -/
def selectLoop (R : Nat) (bit64 : Nat → BitVec 64) : Nat → Nat → Nat → Option Nat
  | 0, _, _ => none
  | fuel + 1, i, hit =>
    if R < hit + fastPopcount (bit64 i) then
      (uintSelect1 (bit64 i) (wsub R hit)).map (64 * i + ·)
    else selectLoop R bit64 fuel (i + 1) (hit + fastPopcount (bit64 i))

/-- `rank_select_simple`; there are no counts inside a line. -/
def simple : SeClass Nat where
  lineWords := 4
  base := id
  lev := fun _ _ => 0
  entry := fun W i => rankBefore W 4 i % 2 ^ 32
  last := fun rank => rank % 2 ^ 32
  pick0 := fun R hit _ bit64 => selectLoop R (fun j => ~~~ bit64 j) 4 0 hit
  pick1 := fun R hit _ bit64 => selectLoop R bit64 4 0 hit
  memberScans := false

/-- `build_cache`: the two flags are place holders. -/
def buildCache (fresh behind : Nat → BitVec 64) (v : FeBitVec) (_speed0 _speed1 : Bool) :
    Option (Se Nat) :=
  if v.size > 2 ^ 32 - 1 then none
  else match v.words with
    | none => some ⟨none, v.size, none, none, none, 0, 0⟩
    | some ws => some (simple.built (simple.preparedWords fresh ws v.size) behind v.size none none)

/-- `fast_rank1(bits, rankCache, bitpos)` -/
def fastRank1 (bits : Nat → BitVec 64) (rankCache : List Nat) (bitpos : Nat) : Option Nat :=
  (rankCache[bitpos / 256]?).map (fun rank =>
    rank + incFrom bits (4 * (bitpos / 256)) (bitpos / 64 - 4 * (bitpos / 256)) +
      (if bitpos % 64 ≠ 0 then fastPopcountTrail (bits (bitpos / 64)) (bitpos % 64) else 0))

/-- `rank1` -/
def rank1 (c : Se Nat) (bitpos : Nat) : Option Nat :=
  c.words.bind (fun bits => c.rankCache.bind (fun rc => fastRank1 bits rc bitpos))

/-- `select0` -/
def select0 (c : Se Nat) (R : Nat) : Option Nat :=
  c.words.bind (fun bits => c.rankCache.bind (fun rc =>
    (upperBound (simple.before0 rc R) 0 ((c.size + 255) / 256)).bind (simple.selectAt0 bits rc R)))

/-- `select1` -/
def select1 (c : Se Nat) (R : Nat) : Option Nat :=
  c.words.bind (fun bits => c.rankCache.bind (fun rc =>
    (upperBound (simple.before1 rc R) 0 ((c.size + 255) / 256)).bind (simple.selectAt1 bits rc R)))

/-! ## The loop inside a line -/

/-- The loop stops at the word that holds the select. -/
theorem selectLoop_select {W bit64 : Nat → BitVec 64} {m w R : Nat}
    (hbit : ∀ j, j < w → bit64 j = W (m + j))
    (hhi : R < ones (wordBits W) (64 * (m + w))) :
    ∀ fuel i hit, i + fuel = w → hit = ones (wordBits W) (64 * (m + i)) → hit ≤ R →
      ∃ b, selectLoop R bit64 fuel i hit = some b ∧ IsSelect (wordBits W) R (64 * m + b) := by
  intro fuel
  induction fuel with
  | zero =>
    intro i hit hi hhit hle
    rw [add_zero] at hi
    rw [hhit, hi] at hle
    omega
  | succ fuel ih =>
    intro i hit hi hhit hle
    have hnext : hit + fastPopcount (bit64 i) = ones (wordBits W) (64 * (m + (i + 1))) := by
      rw [hhit, hbit i (by omega), ← add_assoc, ones_wordBits_succ]
      rfl
    rw [selectLoop]
    split
    next hlt =>
      rw [hbit i (by omega)]
      refine pick_leaf hhit hle ?_
      rw [hnext] at hlt
      exact hlt
    next hlt =>
      exact ih (i + 1) _ (by omega) hnext (not_lt.mp hlt)

theorem simple_lineWords : simple.lineWords = 4 := rfl

theorem simple_pick0 (R hit rc : Nat) (bit64 : Nat → BitVec 64) :
    simple.pick0 R hit rc bit64 = selectLoop R (fun j => ~~~ bit64 j) 4 0 hit := rfl

/-- Four words of a line, counted one by one. -/
theorem simple_lawful : Lawful simple where
  words := Or.inl rfl
  base_entry := fun _ _ => rfl
  base_last := fun _ => rfl
  pick1 := by
    intro W bit64 i R hbit hlo hhi
    exact selectLoop_select hbit hhi 4 0 _ rfl rfl hlo
  pick0 := by
    intro W bit64 i R hbit hlo hhi
    rw [simple_pick0]
    have hw := wordBits_not (W := W) (by decide)
    rw [← hw] at hlo hhi ⊢
    exact selectLoop_select (fun j hj => by rw [hbit j hj]) hhi 4 0 _ rfl rfl hlo

/-! ## The built object answers -/

section Answers

variable {W : Nat → BitVec 64} {n R i : Nat}

theorem simple_lineBits : simple.lineBits = 256 := by
  rw [SeClass.lineBits, simple_lineWords]

theorem simple_linesOf (n : Nat) : simple.linesOf n = (n + 255) / 256 := by
  rfl

theorem fastRank1_eq (hn : n < 2 ^ 32) (hclean : simple.CleanTo W n) {bits : Nat → BitVec 64}
    (hbits : ∀ i, i < 4 * ((n + 255) / 256) → bits i = W i) (hi : i ≤ n) :
    fastRank1 bits (simple.cacheList W (simple.linesOf n)) i = some (ones (wordBits W) i) := by
  have hk : i / 256 ≤ simple.linesOf n := by
    rw [simple_linesOf]
    omega
  obtain ⟨rank, hrank, hbase⟩ := cacheList_base simple_lawful hn hclean hk
  have hrank' : rank = ones (wordBits W) (64 * (4 * (i / 256))) := by
    rw [show 64 * (4 * (i / 256)) = 256 * (i / 256) by omega]
    exact hbase
  -- the words walked over are words of the lines
  have hinc : ∀ d, 4 * (i / 256) + d ≤ i / 64 → incFrom bits (4 * (i / 256)) d
      = incFrom W (4 * (i / 256)) d := by
    intro d
    induction d with
    | zero => intro _; rfl
    | succ d ih =>
      intro hd
      show incFrom bits _ d + fastPopcount _ = incFrom W _ d + fastPopcount _
      rw [ih (by omega), hbits _ (by omega)]
  have hsum := incFrom_eq W (4 * (i / 256)) (i / 64 - 4 * (i / 256))
  rw [show 4 * (i / 256) + (i / 64 - 4 * (i / 256)) = i / 64 by omega] at hsum
  rw [fastRank1, hrank, map_some, hinc _ (by omega), hrank', hsum]
  by_cases h0 : i % 64 ≠ 0
  · have hones := ones_wordBits_add (W := W) (j := i / 64) (b := i % 64) (by omega)
    rw [if_pos h0, hbits _ (by omega), fastPopcountTrail_eq _ (by omega), ← hones, div_add_mod]
  · rw [if_neg h0, add_zero, show 64 * (i / 64) = i by omega]

/-- The object built over clean words satisfies the invariant. -/
theorem built_ok (hclean : simple.CleanTo W n) (behind : Nat → BitVec 64) :
    SeOk simple W n (simple.built W behind n none none) :=
  ⟨rfl, ⟨_, rfl, fun _ hi => if_pos hi⟩, rfl, rankBefore_size simple_lawful hclean,
    wsub_rankBefore simple_lawful hclean, (fun _ hs => nomatch hs), fun _ hs => nomatch hs⟩

variable {c : Se Nat}

variable (hn : n < 2 ^ 32) (hclean : simple.CleanTo W n) (h : SeOk simple W n c)

include hn hclean h

/-- `rank1` counts the ones before a place. -/
theorem rank1_eq (hi : i ≤ n) : rank1 c i = some (ones (wordBits W) i) := by
  obtain ⟨bits, hw, hbits⟩ := h.words
  rw [rank1, hw, h.cache]
  exact fastRank1_eq hn hclean hbits hi

/-- `select1` finds the one. -/
theorem select1_eq (hR : R < c.maxRank1) :
    ∃ p, select1 c R = some p ∧ IsSelect (wordBits W) R p := by
  obtain ⟨bits, hw, hbits⟩ := h.words
  rw [select1, hw, h.cache, h.size]
  exact (simple_lawful.onesSide hn hclean).whole_eq hbits simple_lawful h.max1 hR

/-- `select0` finds the zero. -/
theorem select0_eq (hR : R < c.maxRank0) :
    ∃ p, select0 c R = some p ∧ IsSelect (negBits (wordBits W)) R p := by
  obtain ⟨bits, hw, hbits⟩ := h.words
  rw [select0, hw, h.cache, h.size]
  exact (simple_lawful.zerosSide hn hclean).whole_eq hbits simple_lawful h.max0 hR

end Answers

/-! ## The copy -/

/-- Number `a` of the `uint32_t` in the memory of the words. -/
def u32At (bits : Nat → BitVec 64) (a : Nat) : Nat :=
  (bits (a / 2)).toNat / 2 ^ (32 * (a % 2)) % 2 ^ 32

/-- The words that `n` bits take. -/
def numWords (n : Nat) : Nat := (n + 63) / 64

/-- The `uint32_t` between the last word with bits and the last word of the lines. -/
def spare (n : Nat) : Nat := 2 * (4 * ((n + 255) / 256) - numWords n)

/-- The copy constructor: all of the memory is copied, and the rank cache of the copy begins
    behind `num_words()` words. -/
def copyCons (y : Se Nat) : Se Nat :=
  match y.words, y.rankCache with
  | some bits, some cache =>
    { y with rankCache := some ((range (spare y.size)).map
        (fun a => u32At bits (2 * numWords y.size + a)) ++ cache) }
  | _, _ => { y with rankCache := none, maxRank0 := 0, maxRank1 := 0 }

section Copy

variable {W bits : Nat → BitVec 64} {n k : Nat}

theorem spare_eq_zero_iff : spare n = 0 ↔ n % 256 = 0 ∨ 192 < n % 256 := by
  unfold spare numWords
  omega

variable (hclean : simple.CleanTo W n)

include hclean

/-- The bits behind the size are cleared up to the end of the last line. -/
theorem u32At_spare (hbits : ∀ i, i < 4 * ((n + 255) / 256) → bits i = W i) {a : Nat}
    (ha : a < spare n) : u32At bits (2 * numWords n + a) = 0 := by
  unfold spare numWords at *
  have hword : bits ((2 * ((n + 63) / 64) + a) / 2) = 0#64 := by
    rw [hbits _ (by omega)]
    refine BitVec.eq_of_getLsbD_eq (fun j hj => ?_)
    have hzero := hclean (64 * ((2 * ((n + 63) / 64) + a) / 2) + j) (by omega)
      (by rw [simple_lineBits, simple_linesOf]; omega)
    rw [wordBits, mul_add_div (by decide), div_eq_of_lt hj, mul_add_mod, mod_eq_of_lt hj] at hzero
    exact hzero.trans BitVec.getLsbD_zero.symm
  rw [u32At, hword]
  simp

variable (hn : n < 2 ^ 32)

include hn

/-- The cache holds the rank of every line. -/
theorem cache_get (hk : k ≤ (n + 255) / 256) :
    (simple.cacheList W (simple.linesOf n))[k]? = some (ones (wordBits W) (256 * k)) := by
  obtain ⟨rc, hrc, hbase⟩ := cacheList_base simple_lawful hn hclean hk
  exact hrc.trans (congrArg some hbase)

/-- The rank cache of the copy: zeros, and behind them the rank cache itself. -/
theorem copied_get (hbits : ∀ i, i < 4 * ((n + 255) / 256) → bits i = W i)
    (hk : k ≤ (n + 255) / 256) :
    ((range (spare n)).map (fun a => u32At bits (2 * numWords n + a)) ++
      simple.cacheList W (simple.linesOf n))[k]? =
        some (if k < spare n then 0 else ones (wordBits W) (256 * (k - spare n))) := by
  by_cases h : k < spare n
  · rw [getElem?_append_left (by simpa using h), if_pos h, getElem?_map,
      getElem?_range h, map_some, u32At_spare hclean hbits h]
  · rw [getElem?_append_right (by simpa using h), if_neg h, length_map,
      length_range, cache_get hclean hn (by omega)]

/-- The copy counts nothing before the lines exactly if there is nothing to count. -/
theorem copied_same_iff (hbits : ∀ i, i < 4 * ((n + 255) / 256) → bits i = W i)
    (hspare : spare n ≠ 0) :
    (∀ k ≤ n / 256, ((range (spare n)).map (fun a => u32At bits (2 * numWords n + a)) ++
      simple.cacheList W (simple.linesOf n))[k]? =
        (simple.cacheList W (simple.linesOf n))[k]?) ↔ ones (wordBits W) (256 * (n / 256)) = 0 := by
  constructor
  · intro hsame
    -- every count is zero or the count of an earlier line
    have hzero : ∀ k ≤ n / 256, ones (wordBits W) (256 * k) = 0 := by
      intro k
      induction k using Nat.strong_induction_on with
      | _ k ih =>
        intro hk
        have hget := hsame k hk
        rw [copied_get hclean hn hbits (by omega), cache_get hclean hn (by omega), some_inj] at hget
        rw [← hget]
        split
        · rfl
        · exact ih _ (by omega) (by omega)
    exact hzero _ le_rfl
  · intro hzero k hk
    have hle : ∀ j ≤ n / 256, ones (wordBits W) (256 * j) = 0 := fun j hj =>
      eq_zero_of_le_zero (hzero ▸ ones_mono _ (mul_le_mul_left 256 hj))
    rw [copied_get hclean hn hbits (by omega), cache_get hclean hn (by omega), hle k hk]
    split
    · rfl
    · rw [hle _ (by omega)]

/-- The copy of an object that was built over clean words. -/
theorem copy_built_iff (behind : Nat → BitVec 64) {c : Se Nat}
    (hc : simple.built W behind n none none = c) :
    ((∀ i ≤ n, rank1 (copyCons c) i = rank1 c i) ∧
      (∀ R < c.maxRank0, select0 (copyCons c) R = select0 c R) ∧
      ∀ R < c.maxRank1, select1 (copyCons c) R = select1 c R) ↔
    spare n = 0 ∨ ones (wordBits W) (256 * (n / 256)) = 0 := by
  subst hc
  by_cases hspare : spare n = 0
  · have hcopy :
        copyCons (simple.built W behind n none none) = simple.built W behind n none none := by
      unfold copyCons SeClass.built
      dsimp only
      rw [hspare]
      rfl
    rw [hcopy]
    exact iff_of_true ⟨fun _ _ => rfl, fun _ _ => rfl, fun _ _ => rfl⟩ (.inl hspare)
  have hbits : ∀ i < 4 * ((n + 255) / 256),
      (if i < 4 * ((n + 255) / 256) then W i else behind i) = W i := fun _ hi => if_pos hi
  rw [or_iff_right hspare, ← copied_same_iff hclean hn hbits hspare]
  constructor
  · -- at the start of a line `rank1` is what the cache holds
    rintro ⟨hrank, -, -⟩ k hk
    have h := hrank (256 * k) (by omega)
    unfold rank1 fastRank1 copyCons at h
    dsimp only [SeClass.built] at h
    rw [Nat.mul_div_cancel_left k (by decide)] at h
    exact map_injective (fun a b (hab : a + _ + _ = b + _ + _) => by omega) h
  · intro hget
    have hlines : (n + 255) / 256 ≤ n / 256 + 1 := by omega
    refine ⟨fun i hi => ?_, fun R _ => ?_, fun R _ => ?_⟩
    · exact congrArg (Option.map _) (hget (i / 256) (by omega))
    all_goals
      refine upperBound_bind_congr (zero_le _) (fun k hk => ?_) (fun k hk => ?_)
      · exact congrArg (Option.map _) (hget k (le_of_lt_succ (hk.trans_le hlines)))
      · exact if_congr Iff.rfl rfl
          (congrArg (bind · _) (hget (k - 1) (sub_le_of_le_add (hk.trans hlines))))

end Copy

/-- **THE COPY ANSWERS LIKE THE ORIGINAL** exactly when its rank cache begins where the original
    one does, or when no line before the last one has a one. -/
theorem copy_answers_iff {v : FeBitVec} {B : List Bool} (hst : Stores v B)
    {fresh behind : Nat → BitVec 64} {speed0 speed1 : Bool} {c : Se Nat}
    (hbuild : buildCache fresh behind v speed0 speed1 = some c) :
    ((∀ i ≤ B.length, rank1 (copyCons c) i = rank1 c i) ∧
      (∀ R < c.maxRank0, select0 (copyCons c) R = select0 c R) ∧
      ∀ R < c.maxRank1, select1 (copyCons c) R = select1 c R) ↔
    (B.length % 256 = 0 ∨ 192 < B.length % 256) ∨
      ∀ i < 256 * (B.length / 256), B[i]? = some false := by
  have hsize : v.size = B.length := hst.1
  unfold buildCache at hbuild
  split at hbuild
  · cases hbuild
  · cases hw : v.words with
    | none =>
      rw [hw] at hbuild
      obtain rfl := some.inj hbuild
      obtain rfl : B = [] := by
        have h := hst.2
        rw [hw] at h
        exact h
      exact iff_of_true ⟨fun _ _ => rfl, fun _ _ => rfl, fun _ _ => rfl⟩ (.inl (.inl rfl))
    | some ws =>
      rw [hw] at hbuild
      rw [← hsize, copy_built_iff (preparedWords_bits simple_lawful fresh ws v.size).1 (by omega)
        behind (some.inj hbuild), spare_eq_zero_iff]
      refine or_congr Iff.rfl ?_
      unfold ones
      rw [count_iff_forall_not]
      refine forall₂_congr (fun i hi => ?_)
      rw [prepared_ofList simple_lawful hst hw fresh (by omega), ofList,
        getD_eq_getElem?_getD, getElem?_eq_getElem (by omega)]
      simp

/-- One bit more than a line: the copy misses the one before its last bit. -/
theorem copy_rank_257_fails :
    let built := buildCache (fun _ => 0) (fun _ => 0) ⟨some [1, 0, 0, 0, 0], 257⟩ false false
    built.bind (rank1 · 256) = some 1 ∧ built.bind (fun c => rank1 (copyCons c) 256) = some 0 := by
  decide +kernel

/-- Three bits: there is no line before the last one. -/
theorem copy_answers_three :
    ∃ c, buildCache (fun _ => 0) (fun _ => 0) ⟨some [5], 3⟩ true true = some c ∧
      1 < c.maxRank1 ∧ select1 (copyCons c) 1 = select1 c 1 := by
  have hst : Stores ⟨some [5], 3⟩ [true, false, true] := ⟨rfl, by decide, by decide⟩
  have hbuild : ∃ c, buildCache (fun _ => 0) (fun _ => 0) ⟨some [5], 3⟩ true true = some c ∧
      1 < c.maxRank1 := ⟨_, rfl, by decide +kernel⟩
  obtain ⟨c, hc, hmax⟩ := hbuild
  exact ⟨c, hc, hmax, ((copy_answers_iff hst hc).2 (.inr (by decide))).2.2 1 hmax⟩

end RankSelectSimple
