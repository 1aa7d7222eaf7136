import Mathlib.Data.List.Lex
import ToplingArk.MemoryProofs
import ToplingArk.SearchProofs
import ToplingArk.SortedUintVecProofs

/-! # `ZoSortedStrVec` — searching strings whose ends are the next offset

    All strings are one after the other in `m_strpool`, and `m_offsets` has where they start
    and where the last one ends.  A search narrows `[lo, hi)` by single questions until it lies
    in two blocks of 128; then the blocks of offsets from `lo` up to `hi` are decoded into an
    array and the rest is halved there.  The end of string `hi - 1` is offset `hi`.  When `hi`
    is a multiple of the block length this offset is in the next block, which is NOT decoded:
    a search that comes to string `hi - 1` takes its end from a slot that was never written.

    `m_offsets` is given by the values it stores (what `get2` and `get_block` return); the
    slots of the last block behind them hold anything.  The search in one column also reads
    the first values of blocks from its packed index: there a load can run past the index. -/

namespace ZoSortedStrVec

open Search LittleEndian List Option Nat

/-- `ZoSortedStrVec::Builder::Impl` -/
structure Builder where
  strpool : List Byte
  offsets : List Nat

/-- The strings in one pool, with their offsets. -/
structure Vec where
  offsets : List Nat
  pad : Nat → Nat
  blockUnits : Nat
  strpool : List Byte

/-- `push_back` -/
def Builder.pushBack (b : Builder) (str : List Byte) : Builder where
  strpool := b.strpool ++ str
  offsets := b.offsets ++ [(b.strpool ++ str).length]

/-- `finish` -/
def Builder.finish (b : Builder) (blockUnits : Nat) (pad : Nat → Nat) : Option Vec :=
  (b.offsets[b.offsets.length - 1]?).bind (fun poolsize =>
    if b.strpool.length = poolsize then
      some { offsets := b.offsets, pad := pad, blockUnits := blockUnits, strpool := b.strpool }
    else if b.strpool.length ≠ 0 then none
    else some { offsets := b.offsets, pad := pad, blockUnits := blockUnits, strpool := [] })

/-- All strings pushed, and `finish`. -/
def build (blockUnits : Nat) (pad : Nat → Nat) (strs : List (List Byte)) : Option Vec :=
  (strs.foldl Builder.pushBack { strpool := [], offsets := [0] }).finish blockUnits pad

variable (v : Vec)

/-- `fstring(strpool + beg, end - beg)` -/
def Vec.str (beg fin : Nat) : Option (List Byte) :=
  if beg ≤ fin then Memory.read v.strpool beg (fin - beg) else none

/-- A question about the string between two neighbouring slots: those of `get2`, or of the
    array that blocks are decoded into. -/
def Vec.ask (less : List Byte → Bool) (slots : List Nat) (k : Nat) : Option Bool :=
  (slots[k]?).bind (fun beg => (slots[k + 1]?).bind (fun fin => (v.str beg fin).map less))

/-- The loop that narrows the range; the range gets smaller with every turn. -/
def narrow (before : Nat → Option Bool) : Nat → Nat → Nat → Option (Nat × Nat)
  | 0, lo, hi => if lo / 128 * 128 + 256 < (hi + 127) / 128 * 128 then none else some (lo, hi)
  | fuel + 1, lo, hi =>
    if lo / 128 * 128 + 256 < (hi + 127) / 128 * 128 then
      (before ((lo + hi) / 2)).bind (fun less =>
        if less then narrow before fuel ((lo + hi) / 2 + 1) hi
        else narrow before fuel lo ((lo + hi) / 2))
    else some (lo, hi)

/-- `SortedUintVec::get_block` -/
def Vec.getBlock (blockIdx : Nat) : List Nat :=
  (range v.blockUnits).map (fun j =>
    (v.offsets[blockIdx * v.blockUnits + j]?).getD (v.pad (blockIdx * v.blockUnits + j)))

/-- The array after `n` blocks have been decoded into it. -/
def Vec.decode (v : Vec) (blockIdx : Nat) : Nat → List Nat
  | 0 => []
  | n + 1 => v.decode blockIdx n ++ v.getBlock (blockIdx + n)

/-- `search_small_range<256>`: the array has room for 256 offsets -/
def Vec.searchSmallRange (less : List Byte → Bool) (lo hi : Nat) : Option Nat :=
  let len := v.blockUnits
  let blockNum := ((hi + (len - 1)) / len * len - lo / len * len) / len
  if 256 < blockNum * len then none
  else
    let vals := v.decode (lo / len) blockNum
    (Search.upperBound (fun k => v.ask less vals (lo % len + k)) 0 (hi - lo)).map (fun k => lo + k)

/-- What `lower_bound` and `upper_bound` share. -/
def Vec.bound (less : List Byte → Bool) : Option Nat :=
  let num := v.offsets.length - 1
  (narrow (v.ask less v.offsets) num 0 num).bind (fun r => v.searchSmallRange less r.1 r.2)

/-- `lower_bound` -/
def Vec.lowerBound (key : List Byte) : Option Nat := v.bound (fun s => decide (s < key))

/-- `upper_bound` -/
def Vec.upperBound (key : List Byte) : Option Nat := v.bound (fun s => decide (s ≤ key))

/-! ## What is stored -/

/-- The strings can be fetched through the offsets. -/
structure Stores (v : Vec) (strs : List (List Byte)) : Prop where
  length : v.offsets.length = strs.length + 1
  str : ∀ i (h : i < strs.length), ∃ beg fin, v.offsets[i]? = some beg ∧
    v.offsets[i + 1]? = some fin ∧ v.str beg fin = some strs[i]

/-- After all pushes the pool is the strings one behind the other. -/
theorem pushAll_eq (strs : List (List Byte)) :
    let b := strs.foldl Builder.pushBack { strpool := [], offsets := [0] }
    b.strpool = strs.flatten ∧ b.offsets.length = strs.length + 1 ∧
      ∀ i, i ≤ strs.length → b.offsets[i]? = some (strs.take i).flatten.length := by
  induction strs using reverseRecOn with
  | nil =>
    refine ⟨rfl, rfl, fun i hi => ?_⟩
    rw [le_zero.mp hi]
    rfl
  | append_singleton strs s ih =>
    obtain ⟨hpool, hlen, hget⟩ := ih
    rw [foldl_append]
    refine ⟨?_, ?_, fun i hi => ?_⟩
    · show _ ++ s = _
      rw [hpool, flatten_append, flatten_singleton]
    · show (_ ++ [_]).length = _
      rw [length_append, length_singleton, hlen, length_append, length_singleton]
    show (_ ++ [_])[i]? = _
    rw [length_append, length_singleton] at hi
    by_cases hlt : i ≤ strs.length
    · rw [getElem?_append_left (by omega), hget i hlt, take_append_of_le_length hlt]
    · obtain rfl : i = strs.length + 1 := by omega
      rw [getElem?_append_right (by omega), hlen, Nat.sub_self, hpool,
        take_of_length_le (by rw [length_append]; exact le_rfl),
        flatten_append, flatten_singleton]
      rfl

theorem length_take_succ {strs : List (List Byte)} {i : Nat} (hi : i < strs.length) :
    (strs.take (i + 1)).flatten.length = (strs.take i).flatten.length + strs[i].length := by
  rw [← take_append_getElem hi, flatten_append, length_append, flatten_singleton]

/-- **BUILD**: every list of strings is stored. -/
theorem build_stores (blockUnits : Nat) (pad : Nat → Nat) (strs : List (List Byte)) :
    ∃ v, build blockUnits pad strs = some v ∧ v.blockUnits = blockUnits ∧ v.pad = pad ∧
      (∀ i, i ≤ strs.length → v.offsets[i]? = some (strs.take i).flatten.length) ∧
      Stores v strs := by
  obtain ⟨hpool, hlen, hget⟩ := pushAll_eq strs
  have hlast := hget strs.length le_rfl
  unfold build
  generalize strs.foldl Builder.pushBack { strpool := [], offsets := [0] } = b at *
  refine ⟨{ b with pad := pad, blockUnits := blockUnits },
    ?_, rfl, rfl, hget, hlen, fun i hi => ?_⟩
  · rw [Builder.finish, hlen, Nat.add_sub_cancel, hlast, bind_some, take_length,
      if_pos (by rw [hpool])]
  -- the pool is what is before the string, the string, and the rest
  have hsplit : strs.flatten =
      (strs.take i).flatten ++ (strs[i] ++ (strs.drop (i + 1)).flatten) := by
    conv_lhs => rw [← take_append_drop i strs, drop_eq_getElem_cons hi]
    rw [flatten_append, flatten_cons]
  refine ⟨_, _, hget i hi.le, hget (i + 1) hi, ?_⟩
  rw [Vec.str, length_take_succ hi, if_pos (le_add_right _ _), Nat.add_sub_cancel_left]
  show (if _ ≤ b.strpool.length then some _ else none) = _
  rw [hpool, hsplit, if_pos (by simp only [length_append]; omega), drop_left,
    take_left]

/-! ## Narrowing -/

/-- The questions of a search for the place `r`. -/
def below (r k : Nat) : Option Bool := some (decide (k < r))

/-- **NARROWING**: the place stays in the range, and the range ends in at most two blocks of
    128; it depends on the place alone. -/
theorem narrow_eq {before : Nat → Option Bool} {r num : Nat}
    (h : ∀ k, k < num → before k = below r k) :
    ∀ fuel lo hi, lo ≤ r → r ≤ hi → hi ≤ num → hi - lo ≤ fuel →
      ∃ lo' hi', narrow before fuel lo hi = some (lo', hi') ∧
        narrow (below r) fuel lo hi = some (lo', hi') ∧ lo' ≤ r ∧ r ≤ hi' ∧ hi' ≤ num ∧
        (hi' + 127) / 128 * 128 ≤ lo' / 128 * 128 + 256 := by
  intro fuel
  induction fuel with
  | zero =>
    intro lo hi hlo hhi hnum hf
    have hdone : ¬ lo / 128 * 128 + 256 < (hi + 127) / 128 * 128 := by omega
    exact ⟨lo, hi, if_neg hdone, if_neg hdone, hlo, hhi, hnum, not_lt.mp hdone⟩
  | succ fuel ih =>
    intro lo hi hlo hhi hnum hf
    by_cases hmore : lo / 128 * 128 + 256 < (hi + 127) / 128 * 128
    · rw [narrow, narrow, if_pos hmore, if_pos hmore, h _ (by omega), below]
      by_cases hlt : (lo + hi) / 2 < r
      · rw [decide_eq_true hlt]
        exact ih _ _ hlt hhi hnum (by omega)
      · rw [decide_eq_false hlt]
        exact ih _ _ hlo (not_lt.mp hlt) (by omega) (by omega)
    · rw [narrow, narrow, if_neg hmore, if_neg hmore]
      exact ⟨lo, hi, rfl, rfl, hlo, hhi, hnum, not_lt.mp hmore⟩

/-! ## The array of offsets -/

theorem decode_length (blockIdx n : Nat) : (v.decode blockIdx n).length = n * v.blockUnits := by
  induction n with
  | zero => rw [Vec.decode, length_nil, zero_mul]
  | succ n ih =>
    rw [Vec.decode, length_append, ih, Vec.getBlock, length_map, length_range, succ_mul]

/-- An offset of a decoded block, or what fills it up. -/
theorem decode_get (blockIdx n : Nat) {k : Nat} (hk : k < n * v.blockUnits) :
    (v.decode blockIdx n)[k]? = some ((v.offsets[blockIdx * v.blockUnits + k]?).getD
      (v.pad (blockIdx * v.blockUnits + k))) := by
  induction n with
  | zero =>
    rw [zero_mul] at hk
    cases hk
  | succ n ih =>
    have hlen := decode_length v blockIdx n
    rw [Vec.decode]
    by_cases hlt : k < n * v.blockUnits
    · rw [getElem?_append_left (by omega), ih hlt]
    -- the slot is in the last block
    rw [succ_mul] at hk
    have hpos : (blockIdx + n) * v.blockUnits + (k - n * v.blockUnits) =
        blockIdx * v.blockUnits + k := by
      rw [add_mul]
      omega
    rw [getElem?_append_right (by omega), hlen, Vec.getBlock, getElem?_map,
      getElem?_range (by omega), map_some, hpos]

/-! ## The search -/

/-- The slot for the end of the last string that is left is decoded, or the search does not
    come to this string. -/
def EndDecoded (blockUnits num r : Nat) : Prop :=
  ∀ lo hi, narrow (below r) num 0 num = some (lo, hi) →
    hi % blockUnits ≠ 0 ∨ asks (r - lo) (hi - lo - 1) (hi - lo) 0 (hi - lo) = false

section Bound

variable {v : Vec} {strs : List (List Byte)} {less : List Byte → Bool} {r lo hi : Nat}

/-- The blocks that are decoded fit the array and reach `hi`, or just up to it when it is a
    multiple of the block length. -/
theorem blocks_eq {len : Nat} (hlen : len = 64 ∨ len = 128) (hle : lo ≤ hi)
    (hrange : (hi + 127) / 128 * 128 ≤ lo / 128 * 128 + 256) :
    ∃ n, ((hi + (len - 1)) / len * len - lo / len * len) / len = n ∧ n * len ≤ 256 ∧
      lo / len * len + lo % len = lo ∧ hi ≤ lo / len * len + n * len ∧
      (hi % len = 0 ↔ lo / len * len + n * len = hi) := by
  refine ⟨_, rfl, ?_⟩
  rcases hlen with rfl | rfl
  · omega
  · omega

/-- **SMALL RANGE**: the decoded array answers as the strings do, but for the last string when
    its end is in the next block. -/
theorem searchSmallRange_iff (hv : Stores v strs) (hunits : v.blockUnits = 64 ∨ v.blockUnits = 128)
    (hless : ∀ i (h : i < strs.length), less strs[i] = decide (i < r)) (hlo : lo ≤ r) (hhi : r ≤ hi)
    (hnum : hi ≤ strs.length) (hrange : (hi + 127) / 128 * 128 ≤ lo / 128 * 128 + 256) :
    v.searchSmallRange less lo hi = some r ↔
      (hi % v.blockUnits ≠ 0 ∨ asks (r - lo) (hi - lo - 1) (hi - lo) 0 (hi - lo) = false) := by
  obtain ⟨n, hn, hfit, hmod, hreach, hend⟩ := blocks_eq hunits (hlo.trans hhi) hrange
  have hlen := decode_length v (lo / v.blockUnits) n
  unfold Vec.searchSmallRange
  simp only [hn]
  rw [if_neg hfit.not_gt]
  generalize hvals : v.decode (lo / v.blockUnits) n = vals at *
  -- a string whose end is decoded
  have hyes : ∀ k, k < hi - lo → lo % v.blockUnits + k + 1 < n * v.blockUnits →
      v.ask less vals (lo % v.blockUnits + k) = some (decide (k < r - lo)) := by
    intro k hk hslot
    have hi' : lo + k < strs.length := by omega
    obtain ⟨beg, fin, hbeg, hfin, hstr⟩ := hv.str (lo + k) hi'
    have hbeg' : vals[lo % v.blockUnits + k]? = some beg := by
      rw [← hvals, decode_get v _ n (by omega), ← add_assoc, hmod, hbeg, getD_some]
    have hfin' : vals[lo % v.blockUnits + k + 1]? = some fin := by
      rw [← hvals, decode_get v _ n hslot, ← add_assoc, ← add_assoc, hmod, hfin, getD_some]
    rw [Vec.ask, hbeg', bind_some, hfin', bind_some, hstr, map_some, hless _ hi']
    exact congrArg some (decide_eq_decide.mpr (by omega))
  have hclamp : max 0 (min (r - lo) (hi - lo)) = r - lo := by omega
  by_cases hdec : hi % v.blockUnits ≠ 0 ∨ hi ≤ lo
  · -- all ends are decoded
    have hall := upperBound_clamp (zero_le (hi - lo)) (fun k _ hk => hyes k hk (by omega))
    rw [hall, map_some, hclamp, Nat.add_sub_cancel' hlo]
    refine iff_of_true rfl (hdec.imp id (fun hle => ?_))
    rw [Nat.sub_eq_zero_of_le hle]
    rfl
  push Not at hdec
  have hlast : v.ask less vals (lo % v.blockUnits + (hi - lo - 1)) = none := by
    have hout : vals[lo % v.blockUnits + (hi - lo - 1) + 1]? = none :=
      getElem?_eq_none (by omega)
    simp [Vec.ask, hout]
  have hrun := halve_missing (fun k => v.ask less vals (lo % v.blockUnits + k)) (hi - lo - 1)
    (hi - lo) 0 (hi - lo) (zero_le _) le_rfl (fun k _ hk => by
      split
      · rwa [‹k = _›]
      · exact hyes k hk (by omega))
  rw [upperBound, Nat.sub_zero, hrun, hclamp]
  cases asks (r - lo) (hi - lo - 1) (hi - lo) 0 (hi - lo) with
  | true => exact iff_of_false (by simp) (by simp [hdec.1])
  | false =>
    rw [if_neg Bool.false_ne_true, map_some, Nat.add_sub_cancel' hlo]
    exact iff_of_true rfl (.inr rfl)

/-- **BOUND**: the place is found exactly when every end that is needed is decoded. -/
theorem bound_iff (hv : Stores v strs) (hunits : v.blockUnits = 64 ∨ v.blockUnits = 128)
    (hr : r ≤ strs.length) (hless : ∀ i (h : i < strs.length), less strs[i] = decide (i < r)) :
    v.bound less = some r ↔ EndDecoded v.blockUnits strs.length r := by
  have hask : ∀ k, k < strs.length → v.ask less v.offsets k = below r k := by
    intro k hk
    obtain ⟨beg, fin, hbeg, hfin, hstr⟩ := hv.str k hk
    rw [Vec.ask, hbeg, bind_some, hfin, bind_some, hstr, map_some, hless k hk]
    rfl
  obtain ⟨lo, hi, hrun, hpure, hlo, hhi, hnum, hrange⟩ := narrow_eq hask strs.length 0 strs.length
    (zero_le r) hr le_rfl le_rfl
  unfold Vec.bound
  simp only [hv.length, Nat.add_sub_cancel]
  rw [hrun, bind_some, searchSmallRange_iff hv hunits hless hlo hhi hnum hrange]
  constructor
  · intro h lo' hi' hsame
    obtain ⟨rfl, rfl⟩ := Prod.mk.inj (mem_unique hpure hsame)
    exact h
  · exact fun h => h lo hi hpure

end Bound

/-- The vector that is built answers both questions with the number of strings. -/
def SearchesRight (blockUnits : Nat) (pad : Nat → Nat) (strs : List (List Byte)) (key : List Byte) :
    Prop :=
  ∃ v, build blockUnits pad strs = some v ∧
    v.lowerBound key = some (strs.countP (fun s => decide (s < key))) ∧
    v.upperBound key = some (strs.countP (fun s => decide (s ≤ key)))

/-- **STRING SEARCH**: the answers are right exactly when both searches need decoded ends
    only. -/
theorem zo_searches_right_iff {blockUnits : Nat} (hunits : blockUnits = 64 ∨ blockUnits = 128)
    (pad : Nat → Nat) {strs : List (List Byte)} (hsorted : strs.Pairwise (· ≤ ·))
    (key : List Byte) : SearchesRight blockUnits pad strs key ↔
      EndDecoded blockUnits strs.length (strs.countP (fun s => decide (s < key))) ∧
        EndDecoded blockUnits strs.length (strs.countP (fun s => decide (s ≤ key))) := by
  obtain ⟨v, hbuild, rfl, -, -, hv⟩ := build_stores blockUnits pad strs
  have hlower : v.lowerBound key = _ ↔ _ := bound_iff hv hunits countP_le_length
    (fun i h => decide_eq_decide.mpr (count_lt hsorted key h))
  have hupper : v.upperBound key = _ ↔ _ := bound_iff hv hunits countP_le_length
    (fun i h => decide_eq_decide.mpr (count_le hsorted key h))
  rw [← hlower, ← hupper]
  constructor
  · rintro ⟨v', hv', h1, h2⟩
    obtain rfl := mem_unique hbuild hv'
    exact ⟨h1, h2⟩
  · exact fun h => ⟨v, hbuild, h.1, h.2⟩

/-- The key 2 in the strings 1, 2, 2 of one byte. -/
theorem zo_searches_right_three : SearchesRight 64 (fun _ => 0) [[1], [2], [2]] [2] := by
  have hone : narrow (below 1) 3 0 3 = some (0, 3) := by decide
  have hthree : narrow (below 3) 3 0 3 = some (0, 3) := by decide
  refine (zo_searches_right_iff (.inl rfl) _ (by decide) [2]).mpr ⟨fun lo hi h => ?_,
    fun lo hi h => ?_⟩
  · obtain ⟨rfl, rfl⟩ := Prod.mk.inj (mem_unique hone h)
    exact .inl (by decide)
  · obtain ⟨rfl, rfl⟩ := Prod.mk.inj (mem_unique hthree h)
    exact .inl (by decide)

/-- 64 strings in blocks of 64, and a key above them: the end of the last string is the 65th
    offset, and 64 are decoded. -/
theorem zo_search_sixty_four_fails :
    (build 64 (fun _ => 0) (replicate 64 [97])).bind (fun v => v.lowerBound [98]) = none ∧
      ¬ SearchesRight 64 (fun _ => 0) (replicate 64 [97]) [98] := by
  have hnone : (build 64 (fun _ => 0) (replicate 64 [97])).bind
      (fun v => v.lowerBound [98]) = none := by decide +kernel
  refine ⟨hnone, ?_⟩
  rintro ⟨v, hv, hlower, -⟩
  rw [hv, bind_some, hlower] at hnone
  exact nomatch hnone

/-! ## The longest string

    The last block of offsets is filled up with the last one, so no difference behind it
    counts.  There is one offset more than there are strings: when the number of strings is a
    multiple of the block length, the end of the last string is alone in a block that is not
    visited. -/

/-- The loop over a block: the greatest difference, the first one from `lastVal`. -/
def scanBlock : Nat → List Nat → Nat → Nat
  | _, [], maxlen => maxlen
  | lastVal, x :: block, maxlen =>
    scanBlock x block (if maxlen < x - lastVal then x - lastVal else maxlen)

/-- `max_strlen` -/
def Vec.maxStrlen : Nat :=
  let nb := (v.offsets.length - 1 + (v.blockUnits - 1)) / v.blockUnits
  ((range nb).foldl (fun r i => ((v.getBlock i).getLastD r.1, scanBlock r.1 (v.getBlock i) r.2))
    (0, 0)).2

theorem scanBlock_append (a b : List Nat) (lastVal maxlen : Nat) :
    scanBlock lastVal (a ++ b) maxlen =
      scanBlock (a.getLastD lastVal) b (scanBlock lastVal a maxlen) := by
  induction a generalizing lastVal maxlen with
  | nil => rfl
  | cons x a ih => rw [cons_append, scanBlock, scanBlock, ih, getLastD_cons]

/-- The longest distance between neighbours. -/
theorem scanBlock_le {lastVal maxlen n : Nat} {l : List Nat} : scanBlock lastVal l maxlen ≤ n ↔
    maxlen ≤ n ∧ (lastVal :: l).IsChain (fun x y => y - x ≤ n) := by
  induction l generalizing lastVal maxlen with
  | nil => exact (and_iff_left (.singleton _)).symm
  | cons x l ih =>
    rw [scanBlock, ih, isChain_cons_cons, ← and_assoc]
    refine and_congr_left (fun _ => ?_)
    split <;> omega

/-- The blocks are scanned as one list. -/
theorem scan_decode (n : Nat) :
    (range n).foldl (fun r i => ((v.getBlock i).getLastD r.1, scanBlock r.1 (v.getBlock i) r.2))
      (0, 0) = ((v.decode 0 n).getLastD 0, scanBlock 0 (v.decode 0 n) 0) := by
  induction n with
  | zero => rfl
  | succ n ih =>
    rw [range_succ, foldl_append, ih, Vec.decode, scanBlock_append, zero_add]
    refine Prod.ext ?_ rfl
    show (v.getBlock n).getLastD _ = _
    rw [getLastD_eq_getLast?, getLastD_eq_getLast?, getLastD_eq_getLast?, getLast?_append]
    cases (v.getBlock n).getLast? <;> rfl

/-- **EVERY STRING BUT THE LAST** is seen, and the last one unless it ends in a block of its
    own. -/
theorem maxStrlen_le {v : Vec} {strs : List (List Byte)} {n : Nat}
    (hunits : v.blockUnits = 64 ∨ v.blockUnits = 128) (hlen : v.offsets.length = strs.length + 1)
    (hget : ∀ i, i ≤ strs.length → v.offsets[i]? = some (strs.take i).flatten.length)
    (hpad : v.pad = fun _ => strs.flatten.length) :
    v.maxStrlen ≤ n ↔ ∀ i (h : i < strs.length),
      (strs.length % v.blockUnits ≠ 0 ∨ i + 1 < strs.length) → strs[i].length ≤ n := by
  unfold Vec.maxStrlen
  rw [hlen, Nat.add_sub_cancel]
  dsimp only
  -- the last string is seen unless its offset begins a block that is not decoded
  have hnb : ∀ i, (i + 1 < (strs.length + (v.blockUnits - 1)) / v.blockUnits * v.blockUnits ∧
      i < strs.length) ↔ i < strs.length ∧
        (strs.length % v.blockUnits ≠ 0 ∨ i + 1 < strs.length) := by
    intro i
    rcases hunits with hu | hu <;> rw [hu] <;> omega
  generalize (strs.length + (v.blockUnits - 1)) / v.blockUnits = nb at *
  have hdecode := decode_length v 0 nb
  have hslot : ∀ k (hk : k < (v.decode 0 nb).length),
      (v.decode 0 nb)[k] = (strs.take k).flatten.length := by
    intro k hk
    refine (List.getElem_of_getElem? ((decode_get v 0 nb (hdecode ▸ hk)).trans ?_)).2
    rw [zero_mul, zero_add]
    rcases le_or_gt k strs.length with hle | hgt
    · rw [hget k hle, getD_some]
    · rw [getElem?_eq_none (by omega), hpad, take_of_length_le hgt.le]
      rfl
  rw [scan_decode, scanBlock_le, and_iff_right (zero_le n), isChain_iff_getElem]
  constructor
  · intro h i hi hseen
    have hplace : i + 1 < nb * v.blockUnits := ((hnb i).mpr ⟨hi, hseen⟩).1
    have hdiff := h (i + 1) (by rw [length_cons, hdecode]; omega)
    rwa [getElem_cons_succ, getElem_cons_succ, hslot, hslot, length_take_succ hi,
      Nat.add_sub_cancel_left] at hdiff
  · intro h k hk
    rw [length_cons, hdecode] at hk
    cases k with
    | zero =>
      rw [getElem_cons_succ, hslot]
      exact zero_le n
    | succ k =>
      rw [getElem_cons_succ, getElem_cons_succ, hslot, hslot]
      -- behind the last string all offsets are the same
      rcases lt_or_ge k strs.length with hlt | hge
      · rw [length_take_succ hlt, Nat.add_sub_cancel_left]
        exact h k hlt ((hnb k).mp ⟨by omega, hlt⟩).2
      · rw [take_of_length_le hge, take_of_length_le (hge.trans (le_succ k)), Nat.sub_self]
        exact zero_le n

/-- **MAX_STRLEN** is the length of the longest string exactly when the number of strings is no
    multiple of the block length, or some string before the last is as long as it. -/
theorem max_strlen_iff {blockUnits : Nat} (hunits : blockUnits = 64 ∨ blockUnits = 128)
    {strs : List (List Byte)} (hne : strs ≠ []) :
    (∃ v, build blockUnits (fun _ => strs.flatten.length) strs = some v ∧
      (strs.map length).max? = some v.maxStrlen) ↔
    strs.length % blockUnits ≠ 0 ∨ ∃ s ∈ strs.dropLast, (strs.getLast hne).length ≤ s.length := by
  obtain ⟨v, hbuild, rfl, hpad, hget, hv⟩ := build_stores blockUnits
    (fun _ => strs.flatten.length) strs
  have hmax : ∀ n, v.maxStrlen ≤ n ↔ _ := fun n => maxStrlen_le hunits hv.length hget hpad
  have hseen := (hmax v.maxStrlen).mp le_rfl
  have hpos := length_pos_iff.mpr hne
  obtain ⟨m, hm⟩ : ∃ m, (strs.map length).max? = some m :=
    isSome_iff_exists.mp (isSome_max?_of_ne_nil (fun h => hne (map_eq_nil_iff.mp h)))
  have hle : ∀ n, m ≤ n ↔ ∀ s ∈ strs, s.length ≤ n := fun n =>
    (max?_le_iff hm).trans List.forall_mem_map
  have hbelow : v.maxStrlen ≤ m := (hmax m).mpr (fun i hi _ => (hle m).mp le_rfl _ (getElem_mem hi))
  constructor
  · rintro ⟨v', hv', hright⟩
    obtain rfl := mem_unique hbuild hv'
    obtain rfl := mem_unique hm hright
    by_contra hnot
    push Not at hnot
    obtain ⟨hmod, hless⟩ := hnot
    -- all that is seen is shorter than the last string
    have hinit : ∀ i (hi : i + 1 < strs.length), strs[i].length < (strs.getLast hne).length := by
      intro i hi
      refine hless _ ?_
      rw [← getElem_dropLast (h := by rw [length_dropLast]; omega)]
      exact getElem_mem _
    have hshort := (hmax ((strs.getLast hne).length - 1)).mpr (fun i hi hor =>
      le_sub_one_of_lt (hinit i (hor.resolve_left (not_not.mpr hmod))))
    have hlong := (hle _).mp le_rfl _ (getLast_mem hne)
    have hfirst := hinit 0 (by rcases hunits with hu | hu <;> rw [hu] at hmod <;> omega)
    omega
  · intro hcond
    refine ⟨v, hbuild, hm.trans (congrArg some (le_antisymm ((hle _).mpr (fun s hs => ?_)) hbelow))⟩
    obtain ⟨i, hi, rfl⟩ := mem_iff_getElem.mp hs
    by_cases hlt : i + 1 < strs.length
    · exact hseen i hi (.inr hlt)
    rcases hcond with hmod | ⟨t, ht, hlong⟩
    · exact hseen i hi (.inl hmod)
    · obtain ⟨j, hj, rfl⟩ := mem_iff_getElem.mp ht
      rw [length_dropLast] at hj
      rw [getLast_eq_getElem, getElem_dropLast] at hlong
      obtain rfl : i = strs.length - 1 := by omega
      exact hlong.trans (hseen j _ (.inr (by omega)))

/-- Three strings in blocks of 64. -/
theorem max_strlen_three : ∃ v, build 64 (fun _ => 6) [[1], [2, 2, 2], [3, 3]] = some v ∧
    some 3 = some v.maxStrlen :=
  (@max_strlen_iff 64 (.inl rfl) [[1], [2, 2, 2], [3, 3]] (by decide)).mpr (.inl (by decide))

/-- 63 empty strings and a last one of one byte: its end is the 65th offset. -/
theorem max_strlen_sixty_four : let strs : List (List Byte) := replicate 63 [] ++ [[97]]
    (build 64 (fun _ => strs.flatten.length) strs).map Vec.maxStrlen = some 0 ∧
      (strs.map length).max? = some 1 := by
  decide +kernel

/-! ## One column -/

/-- Whether the byte at `pos` of the string that starts at `offset` is at most `ch`. -/
def Vec.notAbove (pos : Nat) (ch : Byte) (offset : Nat) : Option Bool :=
  (v.strpool[offset + pos]?).map (fun c => decide (c ≤ ch))

/-- `upper_bound_ex_n` over a decoded block. -/
def Vec.searchBlock (pos : Nat) (ch : Byte) (blockIdx lo hi : Nat) : Option Nat :=
  Search.upperBound (fun k => ((v.getBlock blockIdx)[k]?).bind (v.notAbove pos ch)) lo hi

/-- `index` is what `m_offsets` has for its packed index. -/
def Vec.upperBoundAtPos (bmi : Bool) (index : SortedUintVec.Vec) (lo hi pos : Nat) (ch : Byte) :
    Option Nat :=
  let len := v.blockUnits
  let loBlk := lo / len
  if (hi - 1) / len = loBlk then
    (v.searchBlock pos ch loBlk (lo % len) ((hi - 1) % len + 1)).map (loBlk * len + ·)
  else
    (v.searchBlock pos ch loBlk (lo % len) len).bind (fun inBlockUpp =>
      if inBlockUpp < len then some (loBlk * len + inBlockUpp)
      else
        ((v.offsets[lo]?).bind (fun offset => v.strpool[offset + pos]?)).bind (fun ch =>
          -- the blocks are searched by their first values
          (Search.upperBound (fun mid => (SortedUintVec.getBlockMinVal bmi index mid).bind
              (fun offset => v.notAbove pos ch offset.toNat)) (loBlk + 1)
            ((hi + (len - 1)) / len)).bind (fun hiBlk =>
              if loBlk = hiBlk - 1 then some (hiBlk * len)
              else (v.searchBlock pos ch (hiBlk - 1) 0
                (if hi < hiBlk * len then (hi - 1) % len + 1 else len)).map
                  ((hiBlk - 1) * len + ·))))

/-- The column of bytes at `pos` ascends from `lo` to `hi`, and `r` is where it leaves the byte of
    `lo`. -/
structure Column (v : Vec) (lo hi pos : Nat) (column : Nat → Byte) (r : Nat) : Prop where
  byte : ∀ i, lo ≤ i → i < hi → ∃ offset, v.offsets[i]? = some offset ∧
    v.strpool[offset + pos]? = some (column i)
  mono : ∀ i j, lo ≤ i → i ≤ j → j < hi → column i ≤ column j
  first : FirstIn (fun i => column lo < column i) lo hi r

/-- The search among the first values of the blocks asks for that of block `b`: the byte does not
    change in the block of `lo`, and halving the blocks behind it towards `r` comes to `b`. -/
def Visits (len lo hi r b : Nat) : Prop :=
  (lo / len + 1) * len ≤ r ∧ asks ((r + (len - 1)) / len) b
    ((hi + (len - 1)) / len - (lo / len + 1)) (lo / len + 1) ((hi + (len - 1)) / len) = true

/-- The load for the first value of block `b` stays in the index. -/
def InIndex (index : SortedUintVec.Vec) (b : Nat) : Prop :=
  SortedUintVec.samplePos index b / 8 + 8 ≤ index.index.length

variable {v} {pos r : Nat} {column : Nat → Byte} {index : SortedUintVec.Vec} {bmi : Bool}

/-- The column of the strings. -/
theorem Stores.ascending (hv : Stores v strs) (hhi : hi ≤ strs.length)
    (hcol : ∀ i (_ : i < strs.length), lo ≤ i → i < hi → strs[i][pos]? = some (column i))
    (hmono : ∀ i j, lo ≤ i → i ≤ j → j < hi → column i ≤ column j)
    (hr : FirstIn (fun i => column lo < column i) lo hi r) : Column v lo hi pos column r where
  byte := by
    intro i h1 h2
    obtain ⟨beg, fin, hbeg, -, hstr⟩ := hv.str i (h2.trans_le hhi)
    refine ⟨beg, hbeg, ?_⟩
    unfold Vec.str Memory.read at hstr
    split_ifs at hstr with h3 h4
    have hchar := hcol i (h2.trans_le hhi) h1 h2
    rw [← some.inj hstr, getElem?_take, getElem?_drop] at hchar
    split_ifs at hchar
    exact hchar
  mono := hmono
  first := hr

section Column

variable (h : Column v lo hi pos column r)

include h

/-- To ask about string `i` is to ask whether `i` is before `r`. -/
theorem Column.notAbove {i offset : Nat} (h1 : lo ≤ i) (h2 : i < hi)
    (hoff : v.offsets[i]? = some offset) :
    v.notAbove pos (column lo) offset = some (decide (i < r)) := by
  obtain ⟨offset', hoff', hchar⟩ := h.byte i h1 h2
  obtain rfl := mem_unique hoff hoff'
  rw [Vec.notAbove, hchar, map_some]
  refine congrArg some (decide_eq_decide.mpr ⟨fun hle => ?_, fun hlt => ?_⟩)
  · by_contra hge
    have hr := h.first.lo_le
    exact absurd ((h.first.holds (by omega)).trans_le (h.mono r i hr (by omega) h2)) hle.not_gt
  · exact not_lt.mp (h.first.before i h1 hlt)

/-- The search inside a block. -/
theorem Column.searchBlock (b lo' hi' : Nat) (hle : lo' ≤ hi') (hfit : hi' ≤ v.blockUnits)
    (hlo : lo ≤ b * v.blockUnits + lo') (hend : b * v.blockUnits + hi' ≤ hi) :
    v.searchBlock pos (column lo) b lo' hi' =
      some (max lo' (min (r - b * v.blockUnits) hi')) := by
  refine upperBound_clamp hle (fun k h1 h2 => ?_)
  obtain ⟨offset, hget, -⟩ := h.byte (b * v.blockUnits + k) (by omega) (by omega)
  rw [Vec.getBlock, getElem?_map, getElem?_range (by omega), map_some, bind_some, hget, getD_some,
    h.notAbove (by omega) (by omega) hget]
  exact congrArg some (decide_eq_decide.mpr (by omega))

/-- **THE BLOCKS** are searched to the end exactly when no visited load leaves the index. -/
theorem Column.searchIndex (lo' hi' : Nat) {len : Nat} (hlen : len = 64 ∨ len = 128)
    (hmin : ∀ b offset, v.offsets[b * len]? = some offset →
      InIndex index b ∧ SortedUintVec.getBlockMinVal bmi index b = some (BitVec.ofNat 64 offset) ∧
          offset < 2 ^ 64 ∨
        ¬ InIndex index b ∧ SortedUintVec.getBlockMinVal bmi index b = none)
    (hle : lo' ≤ hi') (hlo : lo ≤ lo' * len) (hend : ∀ k < hi', k * len < hi) :
    (∀ b, asks ((r + (len - 1)) / len) b (hi' - lo') lo' hi' = true → InIndex index b) ∧
        upperBound (fun mid => (SortedUintVec.getBlockMinVal bmi index mid).bind
          (fun offset => v.notAbove pos (column lo) offset.toNat)) lo' hi' =
            some (max lo' (min ((r + (len - 1)) / len) hi')) ∨
      (¬ ∀ b, asks ((r + (len - 1)) / len) b (hi' - lo') lo' hi' = true → InIndex index b) ∧
        upperBound (fun mid => (SortedUintVec.getBlockMinVal bmi index mid).bind
          (fun offset => v.notAbove pos (column lo) offset.toNat)) lo' hi' = none := by
  refine halve_known _ _ (hi' - lo') lo' hi' hle le_rfl (fun k h1 h2 => ?_)
  have hk := hlo.trans (Nat.mul_le_mul_right len h1)
  obtain ⟨offset, hget, -⟩ := h.byte (k * len) hk (hend k h2)
  refine (hmin k offset hget).imp (And.imp_right ?_) (And.imp_right ?_)
  · rintro ⟨hval, hlt⟩
    rw [hval, bind_some, BitVec.toNat_ofNat, mod_eq_of_lt hlt,
      h.notAbove hk (hend k h2) hget]
    exact congrArg some (decide_eq_decide.mpr (by rcases hlen with rfl | rfl <;> omega))
  · intro hnone
    rw [hnone]
    rfl

end Column

/-- The first offset of a block as it is read from the index, for a pool of less than 2^57
    bytes. -/
theorem minVal_cases {len : Nat} (hlen : 0 < len) {payload : List Nat → Nat → List Byte}
    {offsets : List Nat} (hindex : SortedUintVec.build len payload true offsets = .ok index)
    (hpool : ∀ x ∈ offsets, x < 2 ^ 57) (bmi : Bool) {b offset : Nat}
    (hb : offsets[b * len]? = some offset) :
    InIndex index b ∧ SortedUintVec.getBlockMinVal bmi index b = some (BitVec.ofNat 64 offset) ∧
        offset < 2 ^ 64 ∨
      ¬ InIndex index b ∧ SortedUintVec.getBlockMinVal bmi index b = none := by
  have hsmall : ∀ x ∈ offsets, x < 2 ^ 64 := fun x hx => (hpool x hx).trans (by decide)
  have hlt : len * b < offsets.length := by
    rw [Nat.mul_comm]
    exact (List.getElem_of_getElem? hb).1
  have hoffset : offsets.getD (len * b) 0 = offset := by
    rw [Nat.mul_comm, getD_eq_getElem?_getD, hb, getD_some]
  have hfit := hpool offset (mem_of_getElem? hb)
  by_cases hin : InIndex index b
  · refine .inl ⟨hin, ?_, hfit.trans (by decide)⟩
    have hread := SortedUintVec.getBlockMinVal_eq_iff hlen hindex hsmall bmi hlt
    have hwidth := ((SortedUintVec.build_index hlen hindex hsmall).2.2.1 57 (by decide) hpool).2
    rw [hoffset] at hread
    refine hread.mpr ⟨hin, .inr (by omega), hfit.trans_le (Nat.pow_le_pow_right (by decide) ?_)⟩
    omega
  · refine .inr ⟨hin, ?_⟩
    unfold SortedUintVec.getBlockMinVal
    dsimp only
    unfold InIndex at hin
    rw [ByteBits.loadWord, Memory.read, if_neg hin]
    rfl

/-- **COLUMN SEARCH**: in a column of ascending bytes the first one above that of `lo` is found
    exactly when every visited load of a block's first offset stays in the index. -/
theorem zo_upper_bound_at_pos_iff {blockUnits : Nat} (hunits : blockUnits = 64 ∨ blockUnits = 128)
    {pad : Nat → Nat} {strs : List (List Byte)} (hbuild : build blockUnits pad strs = some v)
    {payload : List Nat → Nat → List Byte}
    (hindex : SortedUintVec.build blockUnits payload true v.offsets = .ok index)
    (hpool : strs.flatten.length < 2 ^ 57) (bmi : Bool) (hlt : lo < hi) (hhi : hi ≤ strs.length)
    (hcol : ∀ i (_ : i < strs.length), lo ≤ i → i < hi → strs[i][pos]? = some (column i))
    (hmono : ∀ i j, lo ≤ i → i ≤ j → j < hi → column i ≤ column j)
    (hr : FirstIn (fun i => column lo < column i) lo hi r) :
    v.upperBoundAtPos bmi index lo hi pos (column lo) = some r ↔
      ∀ b, Visits blockUnits lo hi r b → InIndex index b := by
  obtain ⟨v', hbuild', hlen, -, hoffsets, hv⟩ := build_stores blockUnits pad strs
  obtain rfl := mem_unique hbuild hbuild'
  have h := hv.ascending hhi hcol hmono hr
  -- no offset is beyond the pool
  have hsmall : ∀ x ∈ v.offsets, x < 2 ^ 57 := by
    intro x hx
    obtain ⟨i, hi⟩ := mem_iff_getElem?.mp hx
    have hile := (List.getElem_of_getElem? hi).1
    have hlength := hv.length
    rw [hoffsets i (by omega)] at hi
    rw [← some.inj hi]
    rw [← take_append_drop i strs, flatten_append, length_append] at hpool
    omega
  have hr1 : lo < r := by
    refine hr.lo_le.lt_of_ne (fun heq => ?_)
    exact absurd (hr.holds (heq ▸ hlt)) (heq ▸ lt_irrefl _)
  have hr2 := hr.le_hi
  obtain ⟨offset, hoff, hchar⟩ := h.byte lo le_rfl hlt
  subst hlen
  -- the three searches, each with what it finds
  have hblock := fun b lo' hi' => h.searchBlock b lo' hi'
  have hmins := h.searchIndex (lo / v.blockUnits + 1)
    ((hi + (v.blockUnits - 1)) / v.blockUnits) hunits
    (fun b o hb => minVal_cases (by omega) hindex hsmall bmi hb)
  unfold Vec.upperBoundAtPos Visits
  simp only
  clear h hsmall hcol hmono hr hbuild hbuild' hv hoffsets hindex
  generalize v.blockUnits = len at *
  rcases hunits with rfl | rfl
  all_goals
    split
    · -- one block: nothing is asked of the index
      rw [hblock _ _ _ (by omega) (by omega) (by omega) (by omega), map_some]
      refine iff_of_true (congrArg some (by omega)) (fun b hb => ?_)
      rw [show (hi + (_ - 1)) / _ - (lo / _ + 1) = 0 by omega] at hb
      exact absurd hb.2 Bool.false_ne_true
    rw [hblock _ _ _ (by omega) (by omega) (by omega) (by omega), bind_some]
    -- the byte changes in the block of `lo`
    split
    · exact iff_of_true (congrArg some (by omega)) (fun b hb => absurd hb.1 (by omega))
    rw [hoff, bind_some, hchar, bind_some]
    -- over the minima, as long as all loads stay in the index
    rcases hmins (by omega) (by omega) (by omega) with ⟨hall, hrun⟩ | ⟨hsome, hrun⟩
    · refine iff_of_true ?_ (fun b hb => hall b hb.2)
      rw [hrun, bind_some]
      split
      · congr 1
        omega
      rw [hblock _ _ _ (by omega) (by split <;> omega) (by omega) (by split <;> omega), map_some]
      congr 1
      split <;> omega
    · rw [hrun]
      exact iff_of_false (some_ne_none r).symm
        (fun hall => hsome (fun b hb => hall b ⟨by omega, hb⟩))

/-- The units of blocks whose differences are not all the same: one bit for each of them. -/
def bitUnits (vals : List Nat) (_ : Nat) : List Byte :=
  let ds := zipWith (fun a b => b - a) vals vals.tail
  let bit := fun d => if d = ds.min?.getD 0 then 0 else 1
  if ds.max? = ds.min? then [] else bytes 8 (ds.foldr (fun d w => bit d + 2 * w) 0)

theorem build_eq {len : Nat} {pad : Nat → Nat} {offsets : List Nat} {pool : List Byte}
    (h : (build len pad strs).map (fun v => (v.offsets, v.strpool)) = some (offsets, pool)) :
    build len pad strs = some ⟨offsets, pad, len, pool⟩ := by
  obtain ⟨v, hbuild, rfl, rfl, -, -⟩ := build_stores len pad strs
  rw [hbuild] at h ⊢
  obtain ⟨rfl, rfl⟩ := Prod.mk.inj (some.inj h)
  rfl

/-- 150 strings `a` and 50 strings `b`, in four blocks. -/
theorem zo_upper_bound_at_pos_two_hundred :
    let strs : List (List Byte) := replicate 150 [97] ++ replicate 50 [98]
    ∃ v index, build 64 (fun _ => 200) strs = some v ∧
      SortedUintVec.build 64 bitUnits true v.offsets = .ok index ∧
      v.upperBoundAtPos true index 0 200 0 97 = some 150 := by
  intro strs
  have hbuild : build 64 (fun _ => 200) strs = some ⟨range 201, fun _ => 200, 64, strs.flatten⟩ :=
    build_eq (by decide +kernel)
  have hindex : SortedUintVec.build 64 bitUnits true (range 201) = .ok ⟨201, 5, 8,
      [0, 64, 0, 17, 64, 3, 12, 145, 1] ++ replicate 15 0⟩ := by
    decide +kernel
  let column : Nat → Byte := fun i => if i < 150 then 97 else 98
  have hcol : ∀ i (_ : i < strs.length), 0 ≤ i → i < 200 → strs[i][0]? = some (column i) := by
    decide +kernel
  refine ⟨_, _, hbuild, hindex, (zo_upper_bound_at_pos_iff (.inl rfl) hbuild hindex
    (by decide +kernel) true (by decide) (by decide +kernel) hcol ?_ ⟨?_, ?_, ?_, ?_⟩).mpr
      (fun b hb => ?_)⟩
  · intro i j _ hij _
    dsimp only [column]
    split_ifs <;> first | decide | omega
  · decide
  · decide
  · intro k _ hk
    dsimp only [column]
    rw [if_pos hk]
    decide
  · decide
  · have hlt : b < 4 := by
      by_contra hge
      have hask := hb.2
      rw [asks_of_le _ _ _ (by omega)] at hask
      cases hask
    unfold InIndex
    clear hb
    revert b
    decide +kernel

/-- 127 strings `a` but for the first, `aa`, in two blocks: the index has 8 bytes, and the load for
    the second block begins at its third byte. -/
theorem zo_upper_bound_at_pos_overreads :
    let strs : List (List Byte) := [97, 97] :: replicate 126 [97]
    ∃ v index, build 64 (fun _ => 128) strs = some v ∧
      SortedUintVec.build 64 bitUnits true v.offsets = .ok index ∧ index.index.length = 8 ∧
      SortedUintVec.samplePos index 1 / 8 = 2 ∧
      v.upperBoundAtPos true index 0 127 0 97 = none := by
  intro strs
  refine ⟨⟨0 :: range' 2 127, fun _ => 128, 64, strs.flatten⟩,
    ⟨128, 5, 8, [0, 64, 5, 49, 64, 0, 0, 0]⟩, build_eq (by decide +kernel), ?_⟩
  decide +kernel

end ZoSortedStrVec
