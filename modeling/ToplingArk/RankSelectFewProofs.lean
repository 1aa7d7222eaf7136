import Mathlib.Tactic.Positivity
import ToplingArk.SearchProofs
import ToplingArk.RankSelectLineProofs

/-! # `rank_select_few` — a few pivots among many complements

    Only the positions of the rarer bits, the PIVOTS, are stored, in increasing
    order; above them stand layers with every 256th entry of the layer below.  Every
    query has a second form that carries a HINT: the index where the last query
    ended, probed before the layers are searched.

    An entry takes `W` bytes of the pool.  The model keeps the pool as the list of
    its entries: all positions fit `W` bytes, entries never overlap, and reading
    eight bytes and masking gives the entry back. -/

namespace RankSelectFew

open Search RankSelectLine Option Nat

/-- The finished structure for pivot value `pivot` (`P`): the pool, the ends of its
    layers (`m_offset`, in entries) and the counts. -/
structure Few where
  pivot : Bool
  items : List Nat
  offsets : List Nat
  num0 : Nat
  num1 : Nat

variable (x : Few) {k i j : Nat}

/-- `P ? m_num1 : m_num0` -/
def Few.n : Nat := if x.pivot then x.num1 else x.num0

/-- `m_num0 + m_num1` -/
def Few.size : Nat := x.num0 + x.num1

/-- `m_offset[i]`, in entries -/
def Few.offset (i : Nat) : Nat := x.offsets.getD i 0

/-- `i ? m_offset[i - 1] : 0` -/
def Few.start (i : Nat) : Nat := if i = 0 then 0 else x.offset (i - 1)

/-- `val_a_logi(pos)` and `val_of_ptr` -/
def Few.val (pos : Nat) : Option Nat := x.items[pos]?

/-! ## Queries without a hint -/

/-- `for (; p < e; p += W) if (!below(*p)) break;` -/
def advance (below : Nat → Bool) (e p : Nat) : Option Nat :=
  scan (fun p => if p < e then (x.val p).map below else some false) (x.items.length + 1) p

/-- The walk of `lower_bound` through the upper layers. -/
def descendLower (x : Few) (val : Nat) : Nat → Nat → Option Nat
  | 0, p => some p
  | i + 1, p =>
    (advance x (fun v => decide (v ≤ val)) (x.offset (i + 1)) p).bind (fun p =>
      descendLower x val i
        (x.start i + ((if p > x.offset i then p - 1 else p) - x.offset i) * 256))

/-- `lower_bound(val)` -/
def lowerBound (val : Nat) : Option Nat :=
  (descendLower x val (x.offsets.length - 1) (x.start (x.offsets.length - 1))).bind (fun p =>
    advance x (fun v => decide (v < val)) (x.offset 0) p)

/-- `for (; p < e;) { if (id + pos < *p) break; p += W; pos += step; }` -/
def advancePos (x : Few) (id step e : Nat) : Nat → Nat → Nat → Option (Nat × Nat)
  | 0, _, _ => none
  | fuel + 1, p, pos =>
    if p < e then
      (x.val p).bind (fun v =>
        if id + pos < v then some (p, pos) else advancePos x id step e fuel (p + 1) (pos + step))
    else some (p, pos)

/-- The walk of `select_complement` through the upper layers. -/
def descendSelect (x : Few) (id : Nat) : Nat → Nat → Nat → Option (Nat × Nat)
  | 0, p, pos => some (p, pos)
  | i + 1, p, pos =>
    (advancePos x id (2 ^ (8 * i + 8)) (x.offset (i + 1)) (x.items.length + 1) p pos).bind
      (fun r => descendSelect x id i
        (x.start i + ((if r.2 ≠ 0 then r.1 - 1 else r.1) - x.offset i) * 256)
        (if r.2 ≠ 0 then r.2 - 2 ^ (8 * i + 8) else r.2))

/-- `select_complement(id)` -/
def selectComplement (id : Nat) : Option Nat :=
  (x.val 0).bind (fun first =>
    if id < first then some id
    else (x.val (x.offset 0 - 1)).bind (fun last =>
      if id + x.n > last then some (id + x.n)
      else (descendSelect x id (x.offsets.length - 1) (x.start (x.offsets.length - 1)) 0).bind
        (fun r => (advancePos x id 1 (x.offset 0) (x.items.length + 1) r.1 r.2).map
          (fun r => id + r.2))))

/-- The loop over a run of adjacent pivots from `idx` upwards: the length of the run
    and the index where the loop ends. -/
def runUp (x : Few) : Nat → Nat → Nat → Nat → Option (Nat × Nat)
  | 0, _, _, _ => none
  | fuel + 1, idx, now, cnt =>
    if idx + 1 < x.size then
      (x.val (idx + 1)).bind (fun next =>
        if now + 1 = next then runUp x fuel (idx + 1) next (cnt + 1) else some (cnt, idx + 1))
    else some (cnt, idx + 1)

/-- The loop over a run of adjacent pivots from `idx` downwards; behind index `0` it
    ends at `size_t(-1)`. -/
def runDown (x : Few) : Nat → Nat → Nat → Option (Nat × Nat)
  | 0, _, cnt => some (cnt, 2 ^ 64 - 1)
  | idx + 1, now, cnt =>
    (x.val idx).bind (fun next =>
      if now = next + 1 then runDown x idx next (cnt + 1) else some (cnt, idx))

/-- The length of the run of pivots that starts at `pos`, searched at `idx`. -/
def pivotLen (idx pos : Nat) : Option (Nat × Nat) :=
  (x.val idx).bind (fun v =>
    if v ≠ pos then some (0, idx) else runUp x (x.items.length + 1) idx v 1)

/-- The length of the run of complements that starts at `pos`. -/
def complementLen (idx pos : Nat) : Option Nat :=
  if idx = x.n then some (wsub x.size pos) else (x.val idx).map (fun v => wsub v pos)

/-- The length of the run of pivots that ends before `pos`, searched at `idx`. -/
def pivotRevlen (idx pos : Nat) : Option (Nat × Nat) :=
  (x.val idx).bind (fun v => if v ≠ pos - 1 then some (0, idx) else runDown x idx v 1)

/-- The length of the run of complements that ends before `pos`. -/
def complementRevlen (idx pos : Nat) : Option Nat :=
  if idx = 0 then some pos else (x.val (idx - 1)).map (fun v => wsub (pos - 1) v)

/-- The queries. -/
inductive Call where
  | is0 (pos : Nat)
  | is1 (pos : Nat)
  | rank0 (pos : Nat)
  | rank1 (pos : Nat)
  | select0 (id : Nat)
  | select1 (id : Nat)
  | zeroSeqLen (pos : Nat)
  | oneSeqLen (pos : Nat)
  | zeroSeqRevlen (pos : Nat)
  | oneSeqRevlen (pos : Nat)

/-- `operator[](pos)` with the index already found. -/
def bitAt (idx pos : Nat) : Option Bool :=
  (x.val idx).map (fun v => if x.pivot then decide (v = pos) else decide (v ≠ pos))

/-- `zero_seq_len` and `one_seq_len` for a value `b`: a run of pivots or one of
    complements. -/
def seqLen (b : Bool) (pos : Nat) : Option Nat :=
  (lowerBound x pos).bind (fun idx =>
    if b = x.pivot then (pivotLen x idx pos).map Prod.fst else complementLen x idx pos)

/-- `zero_seq_revlen` and `one_seq_revlen` -/
def seqRevlen (b : Bool) (pos : Nat) : Option Nat :=
  if pos = 0 then some 0
  else if b = x.pivot then
    (lowerBound x (pos - 1)).bind (fun idx => (pivotRevlen x idx pos).map Prod.fst)
  else (lowerBound x pos).bind (fun idx => complementRevlen x idx pos)

/-- `rank0` and `rank1` -/
def rank (b : Bool) (pos : Nat) : Option Nat :=
  (lowerBound x pos).map (fun idx => if b = x.pivot then idx else wsub pos idx)

/-- `select0` and `select1` -/
def select (b : Bool) (id : Nat) : Option Nat :=
  if b = x.pivot then x.val id else selectComplement x id

/-- A query without a hint; a truth value is returned as `0` or `1`. -/
def plain : Call → Option Nat
  | .is0 pos => (lowerBound x pos).bind (fun idx => (bitAt x idx pos).map (fun b => (!b).toNat))
  | .is1 pos => (lowerBound x pos).bind (fun idx => (bitAt x idx pos).map Bool.toNat)
  | .rank0 pos => rank x false pos
  | .rank1 pos => rank x true pos
  | .select0 id => select x false id
  | .select1 id => select x true id
  | .zeroSeqLen pos => seqLen x false pos
  | .oneSeqLen pos => seqLen x true pos
  | .zeroSeqRevlen pos => seqRevlen x false pos
  | .oneSeqRevlen pos => seqRevlen x true pos

/-! ## What a finished structure holds -/

/-- The pool of `x` holds the pivots `v 0 < v 1 < …`: layer `i` lists every
    `256 ^ i`-th of them, and the entry behind the pivots is not above the first. -/
structure Layered (x : Few) (v : Nat → Nat) : Prop where
  some_pivot : 0 < x.n
  some_layer : 0 < x.offsets.length
  layer : ∀ i, i < x.offsets.length → 0 < x.n / 256 ^ i
  offset : ∀ i, i < x.offsets.length → x.offset i = x.start i + x.n / 256 ^ i
  entry : ∀ i, i < x.offsets.length → ∀ j, j < x.n / 256 ^ i →
    x.val (x.start i + j) = some (v (256 ^ i * j))
  behind : ∃ w, w ≤ v 0 ∧ x.val x.n = some w
  mono : ∀ i j, i < j → j < x.n → v i < v j
  word : x.size < 2 ^ 64

section Lookup

variable {x : Few} {v : Nat → Nat} (hx : Layered x v)
include hx

theorem Layered.val (hk : k < x.n) : x.val k = some (v k) := by
  have h := hx.entry 0 hx.some_layer k (by simpa using hk)
  simpa [Few.start] using h

theorem Layered.offset_zero : x.offset 0 = x.n := by
  have h := hx.offset 0 hx.some_layer
  simpa [Few.start] using h

/-- The values ascend. -/
theorem Layered.mono_le (hij : i ≤ j) (hj : j < x.n) : v i ≤ v j := by
  rcases lt_or_eq_of_le hij with h | rfl
  · exact le_of_lt (hx.mono i j h hj)
  · exact le_rfl

/-- Pivot `j` is at least `j - i` places behind pivot `i`. -/
theorem Layered.gap (hij : i ≤ j) (hj : j < x.n) : v i + (j - i) ≤ v j := by
  induction j with
  | zero => simp [le_zero.mp hij]
  | succ j ih =>
    rcases lt_or_eq_of_le hij with h | rfl
    · have h2 := hx.mono j (j + 1) (lt_succ_self j) hj
      omega
    · simp

/-- The complements before pivot `j` do not decrease with `j`. -/
theorem Layered.mono_sub (hij : i ≤ j) (hj : j < x.n) : v i - i ≤ v j - j := by
  have := hx.gap hij hj
  omega

theorem Layered.length_le (hi : i < x.offsets.length) : x.n / 256 ^ i ≤ x.items.length := by
  have hpos := hx.layer i hi
  have h := hx.entry i hi (x.n / 256 ^ i - 1) (by omega)
  have := (List.getElem_of_getElem? h).1
  omega

end Lookup

/-! ## The walk through the layers -/

/-- Entries of layer `i` are pivots. -/
theorem layer_index_lt {n : Nat} (hj : j < n / 256 ^ i) : 256 ^ i * j < n :=
  calc 256 ^ i * j < 256 ^ i * (n / 256 ^ i) := mul_lt_mul_of_pos_left hj (by positivity)
    _ ≤ n := mul_div_le n _

/-- Below entry `j` of layer `i + 1` stands entry `256 * j` of layer `i`. -/
theorem layer_child {n : Nat} (hj : j < n / 256 ^ (i + 1)) : j * 256 < n / 256 ^ i := by
  rw [pow_succ, ← Nat.div_div_eq_div_mul] at hj
  omega

/-- Item `j` stands for 256 items of the layer below. -/
theorem layer_child_index (i j : Nat) : 256 ^ i * (j * 256) = 256 ^ (i + 1) * j := by
  ring

/-- A level splits every layer; the split lies behind each entry known to be below it. -/
theorem exists_boundary {c : Nat → Nat} {n : Nat} (lev : Nat)
    (hc : ∀ a b, a ≤ b → b < n → c a ≤ c b) (hn : 0 < n / 256 ^ i) (hj : j < n / 256 ^ i)
    (hlow : j = 0 ∨ c (256 ^ i * j) < lev) :
    ∃ t, j ≤ t ∧ t ≤ n / 256 ^ i ∧
      ∀ k, k < n / 256 ^ i → (k < t ↔ c (256 ^ i * k) < lev) := by
  have hmono : ∀ a b, a ≤ b → b ≤ n / 256 ^ i - 1 → c (256 ^ i * a) ≤ c (256 ^ i * b) := by
    intro a b hab hb
    exact hc _ _ (mul_le_mul_left _ hab) (layer_index_lt (by omega))
  have hiff : ∀ k, k < n / 256 ^ i →
      (k < firstGe (fun k => c (256 ^ i * k)) (n / 256 ^ i - 1) lev ↔ c (256 ^ i * k) < lev) :=
    fun k hk => lt_firstGe_iff hmono (by omega)
  refine ⟨firstGe (fun k => c (256 ^ i * k)) (n / 256 ^ i - 1) lev, ?_, ?_, hiff⟩
  · rcases hlow with rfl | h
    · exact zero_le _
    · exact le_of_lt ((hiff j hj).mpr h)
  · have := firstGe_le (fun k => c (256 ^ i * k)) (n / 256 ^ i - 1) lev
    omega

section Walk

variable {x : Few} {v : Nat → Nat} (hx : Layered x v) {t : Nat}
include hx

/-- The walk in a layer stops at the first item that is not below. -/
theorem advance_eq {below : Nat → Bool} (hi : i < x.offsets.length) (hj : j ≤ t)
    (ht : t ≤ x.n / 256 ^ i)
    (h : ∀ k, k < x.n / 256 ^ i → j ≤ k → (k < t ↔ below (v (256 ^ i * k)) = true)) :
    advance x below (x.offset i) (x.start i + j) = some (x.start i + t) := by
  have hlen := hx.length_le hi
  refine scan_eq _ _ (by omega) (by omega) (fun p hp1 hp2 => ?_)
  obtain ⟨k, rfl⟩ : ∃ k, p = x.start i + k := ⟨p - x.start i, by omega⟩
  rw [hx.offset i hi]
  by_cases hk : k < x.n / 256 ^ i
  · rw [if_pos (by omega), hx.entry i hi k hk, map_some]
    have := h k hk (by omega)
    by_cases hkt : k < t
    · simp [this.mp hkt, hkt]
    · have hb : below (v (256 ^ i * k)) = false := by simpa using mt this.mpr hkt
      simp [hb, hkt]
  · rw [if_neg (by omega), decide_eq_false (by omega)]

/-- The walk of `lower_bound` ends at a pivot that is not above the value, or at the
    first one. -/
theorem descendLower_eq (val : Nat) (hi : i < x.offsets.length) (hj : j < x.n / 256 ^ i)
    (hlow : j = 0 ∨ v (256 ^ i * j) ≤ val) :
    ∃ k, k < x.n ∧ (k = 0 ∨ v k ≤ val) ∧ descendLower x val i (x.start i + j) = some k := by
  induction i generalizing j with
  | zero =>
    refine ⟨j, by simpa using hj, by simpa using hlow, ?_⟩
    simp [descendLower, Few.start]
  | succ i ih =>
    obtain ⟨t, hjt, ht, hiff⟩ := exists_boundary (val + 1) (fun a b => hx.mono_le)
      (hx.layer (i + 1) hi) hj (hlow.imp_right lt_succ_of_le)
    have hscan : advance x (fun w => decide (w ≤ val)) (x.offset (i + 1))
        (x.start (i + 1) + j) = some (x.start (i + 1) + t) :=
      advance_eq hx hi hjt ht (fun k hk _ => by simpa [Nat.lt_succ_iff] using hiff k hk)
    -- one entry back, unless the scan did not move off the first
    have hback : (if x.start (i + 1) + t > x.offset i then x.start (i + 1) + t - 1
        else x.start (i + 1) + t) - x.offset i = t - 1 := by
      show (if x.offset i + t > x.offset i then x.offset i + t - 1 else x.offset i + t) - x.offset i
        = _
      split <;> omega
    obtain ⟨k, hk, hkv, hrest⟩ := ih (by omega) (layer_child (show t - 1 < _ by omega))
      (by
        rw [layer_child_index]
        by_cases ht0 : t - 1 = 0
        · left; omega
        · right
          exact Nat.lt_succ_iff.mp ((hiff (t - 1) (by omega)).mp (by omega)))
    refine ⟨k, hk, hkv, ?_⟩
    rw [descendLower, hscan, bind_some, hback]
    exact hrest

/-- The top layer is not empty. -/
theorem Layered.top : x.offsets.length - 1 < x.offsets.length ∧
    0 < x.n / 256 ^ (x.offsets.length - 1) := by
  have := hx.some_layer
  exact ⟨by omega, hx.layer _ (by omega)⟩

/-- The search for a value. -/
theorem Layered.lt_place (val : Nat) (hk : k < x.n) : k < firstGe v (x.n - 1) val ↔ v k < val :=
  lt_firstGe_iff (fun _ _ hab hb => hx.mono_le hab (by have := hx.some_pivot; omega)) (by omega)

/-- The search for the rank of a bit that is no pivot. -/
theorem Layered.lt_passed (id : Nat) (hk : k < x.n) :
    k < firstGe (fun k => v k - k) (x.n - 1) (id + 1) ↔ v k ≤ id + k := by
  have h := lt_firstGe_iff (c := fun k => v k - k) (K := x.n - 1) (v := id + 1) (k := k)
    (fun _ _ hab hb => hx.mono_sub hab (by have := hx.some_pivot; omega)) (by omega)
  omega

theorem Layered.place_le (c : Nat → Nat) (lev : Nat) : firstGe c (x.n - 1) lev ≤ x.n := by
  have := firstGe_le c (x.n - 1) lev
  have := hx.some_pivot
  omega

/-- **`lower_bound` FINDS THE PLACE**: the number of pivots below the value. -/
theorem lowerBound_eq (val : Nat) : lowerBound x val = some (firstGe v (x.n - 1) val) := by
  obtain ⟨htop, hpos⟩ := hx.top
  obtain ⟨k, hk, hkv, hwalk⟩ := descendLower_eq hx val htop hpos (Or.inl rfl)
  have hle := hx.place_le v val
  -- everything before the entry where the walk ends is below the value
  have hstart : k ≤ firstGe v (x.n - 1) val := by
    rcases hkv with rfl | hkv
    · exact zero_le _
    · by_contra hlt
      have h1 := hx.mono (firstGe v (x.n - 1) val) k (by omega) hk
      have h2 := mt (hx.lt_place val (k := firstGe v (x.n - 1) val) (by omega)).mpr (lt_irrefl _)
      omega
  have hscan : advance x (fun w => decide (w < val)) (x.offset 0) (x.start 0 + k) =
      some (x.start 0 + firstGe v (x.n - 1) val) := by
    refine advance_eq hx hx.some_layer hstart (by simpa using hle) (fun m hm _ => ?_)
    have := hx.lt_place val (k := m) (by simpa using hm)
    simpa using this
  rw [lowerBound, ← add_zero (x.start _), hwalk, bind_some]
  simpa [Few.start] using hscan

/-- One scan of a layer with the count of the pivots passed. -/
theorem advancePos_eq (id : Nat) (hi : i < x.offsets.length) (ht : t ≤ x.n / 256 ^ i)
    (h : ∀ k, k < x.n / 256 ^ i → (k < t ↔ v (256 ^ i * k) ≤ id + 256 ^ i * k))
    (fuel : Nat) (hj : j ≤ t) (hf : t - j < fuel) :
    advancePos x id (256 ^ i) (x.offset i) fuel (x.start i + j) (256 ^ i * j) =
      some (x.start i + t, 256 ^ i * t) := by
  induction fuel generalizing j with
  | zero => omega
  | succ fuel ih =>
    rw [advancePos, hx.offset i hi]
    by_cases hjm : j < x.n / 256 ^ i
    · rw [if_pos (by omega), hx.entry i hi j hjm, bind_some]
      have hiff := h j hjm
      by_cases hjt : j < t
      · rw [if_neg (by have := hiff.mp hjt; omega), ← hx.offset i hi]
        exact ih (j := j + 1) (by omega) (by omega)
      · obtain rfl : j = t := by omega
        rw [if_pos (by have := mt hiff.mpr hjt; omega)]
    · obtain rfl : j = t := by omega
      rw [if_neg (by omega)]

/-- The walk of `select_complement` ends at a pivot that is passed, or at the first. -/
theorem descendSelect_eq (id : Nat) (hi : i < x.offsets.length) (hj : j < x.n / 256 ^ i)
    (hlow : j = 0 ∨ v (256 ^ i * j) ≤ id + 256 ^ i * j) :
    ∃ k, k < x.n ∧ (k = 0 ∨ v k ≤ id + k) ∧
      descendSelect x id i (x.start i + j) (256 ^ i * j) = some (k, k) := by
  induction i generalizing j with
  | zero =>
    refine ⟨j, by simpa using hj, by simpa using hlow, ?_⟩
    simp [descendSelect, Few.start]
  | succ i ih =>
    obtain ⟨t, hjt, ht, hiff⟩ := exists_boundary (id + 1) (fun a b => hx.mono_sub)
      (hx.layer (i + 1) hi) hj (hlow.imp_right (fun h => by omega))
    have hlen := hx.length_le hi
    have hscan := advancePos_eq hx id hi ht
      (fun k hk => (hiff k hk).trans (by omega)) (x.items.length + 1) hjt (by omega)
    have hstep : 2 ^ (8 * i + 8) = 256 ^ (i + 1) := by
      rw [show (256 : Nat) = 2 ^ 8 from rfl, ← pow_mul, mul_succ]
    -- the count is zero exactly if the scan did not move off the first entry
    have hzero : 256 ^ (i + 1) * t ≠ 0 ↔ t ≠ 0 := by simp
    have hback : (if 256 ^ (i + 1) * t ≠ 0 then x.start (i + 1) + t - 1
        else x.start (i + 1) + t) - x.offset i = t - 1 := by
      rw [if_congr hzero rfl rfl]
      show (if t ≠ 0 then x.offset i + t - 1 else x.offset i + t) - x.offset i = _
      split <;> omega
    have hcount : (if 256 ^ (i + 1) * t ≠ 0 then 256 ^ (i + 1) * t - 256 ^ (i + 1)
        else 256 ^ (i + 1) * t) = 256 ^ i * ((t - 1) * 256) := by
      rw [if_congr hzero rfl rfl, layer_child_index, mul_sub_one]
      by_cases ht0 : t = 0
      · simp [ht0]
      · rw [if_pos ht0]
    obtain ⟨k, hk, hkv, hrest⟩ := ih (by omega) (layer_child (show t - 1 < _ by omega))
      (by
        rw [layer_child_index]
        by_cases ht0 : t - 1 = 0
        · left; omega
        · right
          have := (hiff (t - 1) (by omega)).mp (by omega)
          omega)
    refine ⟨k, hk, hkv, ?_⟩
    rw [descendSelect, hstep, hscan, bind_some]
    rw [hback, hcount]
    exact hrest

/-- **`select_complement` PASSES THE PIVOTS BEFORE THE ANSWER.** -/
theorem selectComplement_eq (id : Nat) : selectComplement x id =
    some (id + firstGe (fun k => v k - k) (x.n - 1) (id + 1)) := by
  have hn := hx.some_pivot
  have hle := hx.place_le (fun k => v k - k) (id + 1)
  have hfirst := hx.lt_passed id hn
  have hlast := hx.lt_passed id (k := x.n - 1) (by omega)
  rw [selectComplement, hx.val hn, bind_some, hx.offset_zero,
    hx.val (k := x.n - 1) (by omega), bind_some]
  split
  · congr 1
    omega
  split
  · congr 1
    omega
  obtain ⟨htop, hpos⟩ := hx.top
  obtain ⟨k, hk, hkv, hwalk⟩ := descendSelect_eq hx id htop hpos (Or.inl rfl)
  have hstart : k ≤ firstGe (fun k => v k - k) (x.n - 1) (id + 1) := by
    rcases hkv with rfl | hkv
    · exact zero_le _
    · exact le_of_lt ((hx.lt_passed id hk).mpr hkv)
  have hlen := hx.length_le hx.some_layer
  have hscan := advancePos_eq hx id hx.some_layer (by simpa using hle)
    (fun m hm => by simpa using hx.lt_passed id (k := m) (by simpa using hm))
    (x.items.length + 1) hstart (by omega)
  rw [add_zero, mul_zero] at hwalk
  rw [hwalk, bind_some]
  simp only [Few.start, if_true, zero_add, pow_zero, one_mul, hx.offset_zero] at hscan
  rw [hscan, map_some]

end Walk

end RankSelectFew
