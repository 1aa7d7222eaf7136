import ToplingArk.RunProofs
import ToplingArk.RankSelectIlCacheProofs

/-! # `rank_select_il` as a growable bit vector

    The operations `push_back`, `pop_back`, `set`, `resize`, `erase_all` and
    `clear` against the same operations on a list of booleans, and a final
    `build_cache` against the numbers of ones and zeros of that list.

    The two do not always agree.  `erase_all` empties the line vector and leaves
    `m_size` as it was; `resize` fills new LINES and leaves the stale bits of old
    ones; and `build_cache` clears stale bits in the physically last line only.
    For each operation the file states the condition on the object under which
    it agrees with the list, and proves that a run agrees throughout exactly when
    every step meets its condition. -/

namespace RankSelectIl

open BitCount Search RankSelectLine Runs List Option Nat

/-- The operations of the growable vector. -/
inductive Op where
  | pushBack (val : Bool)
  | popBack
  | set (i : Nat) (val : Bool)
  | resize (newsize : Nat) (val : Bool)
  | eraseAll
  | clear
deriving Repr, DecidableEq

/-- One operation on the object. -/
def step (s : Il) : Op → Option Il
  | .pushBack val => pushBack s val
  | .popBack => popBack s
  | .set i val => set s i val
  | .resize newsize val => resize s newsize val
  | .eraseAll => some (eraseAll s)
  | .clear => some (clear s)

/-- The same operation on a list of booleans. -/
def listStep (L : List Bool) : Op → List Bool
  | .pushBack val => L ++ [val]
  | .popBack => L.dropLast
  | .set i val => L.set i val
  | .resize newsize val => L.take newsize ++ List.replicate (newsize - L.length) val
  | .eraseAll => []
  | .clear => []

/-- What a caller has to respect: no `pop_back` of an empty vector, no `set`
    behind the end. -/
def Admissible (L : List Bool) : Op → Prop
  | .popBack => L ≠ []
  | .set i _ => i < L.length
  | _ => True

instance (L : List Bool) (op : Op) : Decidable (Admissible L op) :=
  match op with
  | .popBack => inferInstanceAs (Decidable (L ≠ []))
  | .set i _ => inferInstanceAs (Decidable (i < L.length))
  | .pushBack _ => isTrue trivial
  | .resize _ _ => isTrue trivial
  | .eraseAll => isTrue trivial
  | .clear => isTrue trivial

/-- The object reads like the list: `size()` and `is1(i)` below it. -/
def Agree (s : Il) (L : List Bool) : Prop :=
  s.size = L.length ∧ ∀ i, i < L.length → is1 s i = L[i]?

/-- The condition under which one operation agrees with the list: sizes stay below
    the 32-bit limit, `erase_all` meets an empty vector only, and the stale bits
    that a growing `resize` takes in already have the fill value. -/
def StepOk (s : Il) : Op → Prop
  | .pushBack _ => s.size < maxSize
  | .resize newsize val => newsize ≤ maxSize ∧
      ∀ i, i < newsize → s.size ≤ i → i < 256 * s.lines.length → bits s.lines i = val
  | .eraseAll => s.size = 0
  | _ => True

instance (s : Il) (op : Op) : Decidable (StepOk s op) :=
  match op with
  | .pushBack _ => inferInstanceAs (Decidable (s.size < maxSize))
  | .popBack => isTrue trivial
  | .set _ _ => isTrue trivial
  | .resize _ _ => inferInstanceAs (Decidable (_ ∧ ∀ i, i < _ → _))
  | .eraseAll => inferInstanceAs (Decidable (s.size = 0))
  | .clear => isTrue trivial

/-- `build_cache` leaves the bits of the physically last line before
    `m_size % 256`, and all bits of the lines before; those behind `m_size` must be
    zero already. -/
def BuildClean (s : Il) : Prop :=
  ∀ i, s.size ≤ i → i < 256 * s.lines.length →
    (s.size % 256 ≠ 0 → i < 256 * (s.lines.length - 1) + s.size % 256) →
    bits s.lines i = false

instance (s : Il) : Decidable (BuildClean s) :=
  inferInstanceAs (Decidable (∀ i, s.size ≤ i → i < 256 * s.lines.length → _))

/-! ## Reading the object -/

variable {L : List Bool} {i p m : Nat} {s s' : Il} {lines : List Line} {val : Bool}

theorem Agree.bits (h : Agree s L) (hi : i < L.length) :
    i < 256 * s.lines.length ∧ L[i]? = some (bits s.lines i) := by
  have hread := h.2 i hi
  rw [getElem?_eq_getElem hi] at hread ⊢
  obtain ⟨_, hlines, hbit⟩ := is1_eq_some.mp hread
  exact ⟨hlines, by rw [hbit]⟩

theorem Agree.fits (h : Agree s L) : s.size ≤ 256 * s.lines.length := by
  by_cases h0 : s.size = 0
  · omega
  · have hsize := h.1
    have := (h.bits (show s.size - 1 < L.length by omega)).1
    omega

theorem agree_of_bits (hsize : s.size = L.length) (hfit : s.size ≤ 256 * s.lines.length)
    (hbits : ∀ i, i < L.length → L[i]? = some (bits s.lines i)) : Agree s L := by
  refine ⟨hsize, fun i hi => ?_⟩
  rw [hbits i hi]
  exact is1_eq_some.mpr ⟨by omega, by omega, rfl⟩

theorem agree_empty : Agree Il.empty [] := ⟨rfl, fun i hi => absurd hi (not_lt_zero i)⟩

/-! ## What each operation does to the bits -/

/-- One bit is set. -/
theorem setBit_bits (val : Bool) (hi : i < 256 * lines.length) :
    ∃ lines', setBit lines i val = some lines' ∧ lines'.length = lines.length ∧
      ∀ p, bits lines' p = if p = i then val else bits lines p := by
  obtain ⟨l, hl⟩ : ∃ l, lines[i / 256]? = some l :=
    ⟨_, getElem?_eq_getElem (show i / 256 < lines.length by omega)⟩
  refine ⟨_, by rw [setBit, hl], length_set, fun p => ?_⟩
  generalize hl' : (if val then l.set1 (i % 256) else l.set0 (i % 256)) = l'
  by_cases hp : p / 256 = i / 256
  · have hset : (lines.set (i / 256) l')[p / 256]? = some l' := by
      rw [hp, getElem?_set_self (by omega)]
    rw [← hp] at hl
    rw [bits_of_line hset, bits_of_line hl, ← hl', Line.test_set l val (mod_lt _ (by decide))]
    by_cases hpi : p = i
    · rw [if_pos hpi, if_pos (by rw [hpi])]
    · rw [if_neg hpi, if_neg (by omega)]
  · rw [if_neg (fun h => hp (by rw [h]))]
    exact bits_congr (getElem?_set_ne (Ne.symm hp))

theorem bits_append_left {more : List Line} (hp : p < 256 * lines.length) :
    bits (lines ++ more) p = bits lines p :=
  bits_congr (getElem?_append_left (by omega))

/-- New lines have the bit they are filled with. -/
theorem bits_append_fill (val : Bool) (hlo : 256 * lines.length ≤ p)
    (hhi : p < 256 * (lines.length + m)) : bits (lines ++ replicate m (Line.make val)) p = val := by
  have hx : (lines ++ replicate m (Line.make val))[p / 256]? = some (Line.make val) := by
    rw [getElem?_append_right (by omega), getElem?_replicate, if_pos (by omega)]
  rw [bits_of_line hx, Line.test_make val (mod_lt _ (by decide))]

/-- `valvec::resize` keeps the old bits that stay and fills the new lines. -/
theorem bits_resizeLines (lines : List Line) (m : Nat) (val : Bool) (hp : p < 256 * m) :
    bits (resizeLines lines m (Line.make val)) p
      = if p < 256 * lines.length then bits lines p else val := by
  unfold resizeLines
  split
  · rw [bits_take hp, if_pos (by omega)]
  · split
    next hold =>
      rw [bits_append_left hold]
    · rw [bits_append_fill val (by omega) (by omega)]

theorem length_resizeLines (lines : List Line) (m : Nat) (val : Line) :
    (resizeLines lines m val).length = m := by
  unfold resizeLines
  split
  · rw [length_take]
    omega
  · rw [length_append, length_replicate]
    omega

/-! ## One step against the list -/

section Step

variable {s : Il} {L : List Bool}

/-- A list and the same list with one place set, read at `i`. -/
private theorem getElem?_set_bits {f g : Nat → Bool} (hL : ∀ k, k < L.length → L[k]? = some (f k))
    (hg : ∀ k, g k = if k = i then val else f k) :
    ∀ k, k < (L.set i val).length → (L.set i val)[k]? = some (g k) := by
  intro k hk
  rw [length_set] at hk
  rw [hg, getElem?_set]
  by_cases hki : k = i
  · subst hki
    rw [if_pos rfl, if_pos rfl, if_pos hk]
  · rw [if_neg (Ne.symm hki), if_neg hki, hL k hk]

/-- `set` -/
theorem set_agree (h : Agree s L) (val : Bool) (hi : i < L.length) :
    ∃ s', set s i val = some s' ∧ Agree s' (L.set i val) := by
  obtain ⟨lines', hset, hlen, hbits⟩ := setBit_bits val (h.bits hi).1
  refine ⟨{ s with lines := lines' }, ?_, ?_⟩
  · rw [set, if_pos (by rw [h.1]; exact hi), hset]
    rfl
  · refine agree_of_bits (by rw [length_set]; exact h.1) (by rw [hlen]; exact h.fits) ?_
    exact getElem?_set_bits (fun k hk => (h.bits hk).2) hbits

/-- `pop_back` -/
theorem popBack_agree (h : Agree s L) (hne : L ≠ []) :
    ∃ s', popBack s = some s' ∧ Agree s' L.dropLast := by
  have hpos := length_pos_of_ne_nil hne
  have hsize := h.1
  have hfit := h.fits
  refine ⟨{ s with size := s.size - 1 }, ?_, ?_⟩
  · rw [popBack, if_neg (by omega)]
  · refine agree_of_bits (by rw [length_dropLast, hsize]) 
      (by show s.size - 1 ≤ 256 * s.lines.length; omega) ?_
    intro i hi
    rw [length_dropLast] at hi
    rw [getElem?_dropLast, if_pos hi]
    exact (h.bits (by omega)).2

/-- Appending: once the vector has room for one more bit, setting it there is
    `push_back`. -/
private theorem push_set (hsize : s.size = L.length) (val : Bool)
    (hroom : s.size < 256 * lines.length)
    (hbits : ∀ i, i < L.length → L[i]? = some (bits lines i)) :
    ∃ s', set ⟨lines, s.size + 1⟩ s.size val = some s' ∧ Agree s' (L ++ [val]) := by
  obtain ⟨lines', hset, hlen, hbits'⟩ := setBit_bits val hroom
  refine ⟨⟨lines', s.size + 1⟩, ?_, ?_⟩
  · rw [set, if_pos (lt_succ_self s.size), hset]
    rfl
  refine agree_of_bits (by rw [length_append, hsize]; rfl)
    (by show s.size + 1 ≤ 256 * lines'.length; omega) ?_
  intro i hi
  rw [length_append] at hi
  rw [hbits']
  by_cases hlast : i = s.size
  · rw [if_pos hlast, hlast, hsize, getElem?_append_right le_rfl, Nat.sub_self]
    rfl
  · have hi' : i < L.length := by
      have : i < L.length + 1 := hi
      omega
    rw [if_neg hlast, getElem?_append_left hi', hbits i hi']

/-- `push_back`, below the maximum. -/
theorem pushBack_agree (h : Agree s L) (val : Bool) (hmax : s.size < maxSize) :
    ∃ s', pushBack s val = some s' ∧ Agree s' (L ++ [val]) := by
  have hfit := h.fits
  rw [pushBack, if_neg (by omega)]
  split
  · exact push_set h.1 val (by omega) (fun i hi => (h.bits hi).2)
  · refine push_set h.1 val (by rw [length_append]; show _ < 256 * (_ + 1); omega) ?_
    intro i hi
    obtain ⟨hline, hread⟩ := h.bits hi
    rw [bits_append_left hline]
    exact hread

private theorem getElem?_resized (n : Nat) (val : Bool) (hi : i < n) :
    (L.take n ++ replicate (n - L.length) val)[i]?
      = if i < L.length then L[i]? else some val := by
  split
  · rw [getElem?_append_left (by rw [length_take]; omega),
      getElem?_take, if_pos hi]
  · rw [getElem?_append_right (by rw [length_take]; omega),
      length_take, getElem?_replicate, if_pos (by omega)]

theorem length_resized (L : List Bool) (n : Nat) (val : Bool) :
    (L.take n ++ replicate (n - L.length) val).length = n := by
  rw [length_append, length_take, length_replicate]
  omega

/-- `resize` agrees exactly when the stale bits it takes in have the fill value. -/
theorem resize_agree_iff (h : Agree s L) (n : Nat) (val : Bool) :
    (∃ s', resize s n val = some s' ∧
      Agree s' (L.take n ++ replicate (n - L.length) val)) ↔
    StepOk s (.resize n val) := by
  have hsize := h.1
  by_cases hn : n ≤ maxSize
  · have hres : resize s n val
        = some ⟨resizeLines s.lines (bitsToLines n) (Line.make val), n⟩ := by
      rw [resize, if_neg (by omega)]
    have hlines : n ≤ 256 * bitsToLines n := by
      show n ≤ 256 * ((n + 255) / 256)
      omega
    have hbit : ∀ i, i < n → bits (resizeLines s.lines (bitsToLines n) (Line.make val)) i
        = if i < 256 * s.lines.length then bits s.lines i else val :=
      fun i hi => bits_resizeLines s.lines _ val (by omega)
    constructor
    · rintro ⟨s', hs', ha⟩
      obtain rfl := mem_unique hres hs'
      -- bits behind the old size that were in a line are read again
      refine ⟨hn, fun i hi hstale hline => ?_⟩
      have hread := (ha.bits (show i < _ by rw [length_resized]; exact hi)).2
      rw [getElem?_resized n val hi, if_neg (by omega)] at hread
      have hval : val = bits (resizeLines s.lines (bitsToLines n) (Line.make val)) i :=
        some.inj hread
      rw [hbit i hi, if_pos hline] at hval
      exact hval.symm
    rintro ⟨_, hstale⟩
    refine ⟨_, hres, agree_of_bits (length_resized L n val).symm ?_ ?_⟩
    · show n ≤ 256 * (resizeLines s.lines (bitsToLines n) (Line.make val)).length
      rw [length_resizeLines]
      exact hlines
    intro i hi
    rw [length_resized] at hi
    show _ = some (bits (resizeLines s.lines (bitsToLines n) (Line.make val)) i)
    rw [getElem?_resized n val hi, hbit i hi]
    by_cases hold : i < L.length
    · obtain ⟨hline, hread⟩ := h.bits hold
      rw [if_pos hold, if_pos hline, hread]
    · rw [if_neg hold]
      split
      next hline =>
        rw [hstale i hi (by omega) hline]
      · rfl
  · constructor
    · rintro ⟨s', hs', _⟩
      exact absurd (not_lt.mp (ite_none_left_eq_some.mp hs').1) hn
    · rintro ⟨hn', _⟩
      exact absurd hn' hn

/-- **ONE STEP**: an admissible operation on an agreeing object is defined and
    leads to an agreeing object exactly under its condition. -/
theorem step_agree_iff (h : Agree s L) (op : Op) (hadm : Admissible L op) :
    (∃ s', step s op = some s' ∧ Agree s' (listStep L op)) ↔ StepOk s op := by
  cases op with
  | pushBack val =>
    constructor
    · rintro ⟨s', hs', _⟩
      exact not_le.mp (ite_none_left_eq_some.mp hs').1
    · intro hmax
      exact pushBack_agree h val hmax
  | popBack => exact ⟨fun _ => trivial, fun _ => popBack_agree h hadm⟩
  | set i val => exact ⟨fun _ => trivial, fun _ => set_agree h val hadm⟩
  | resize n val => exact resize_agree_iff h n val
  | eraseAll =>
    constructor
    · rintro ⟨s', hs', ha⟩
      obtain rfl := some.inj hs'
      exact ha.1
    · intro h0
      exact ⟨_, rfl, h0, fun i hi => absurd hi (not_lt_zero i)⟩
  | clear => exact ⟨fun _ => trivial, fun _ => ⟨_, rfl, agree_empty⟩⟩

end Step

/-- Size and line vector stay within the 32-bit limit. -/
structure Bounded (s : Il) : Prop where
  size : s.size ≤ maxSize
  lines : s.lines.length ≤ 2 ^ 24

theorem bounded_empty : Bounded Il.empty := ⟨zero_le _, zero_le _⟩

/-- `set` changes neither the size nor the number of lines. -/
private theorem set_bounded (h : Bounded s) (hs : set s i val = some s') : Bounded s' := by
  obtain ⟨-, hs⟩ := ite_none_right_eq_some.mp hs
  obtain ⟨ls, hls, rfl⟩ := map_eq_some_iff.mp hs
  refine ⟨h.size, ?_⟩
  unfold setBit at hls
  split at hls
  · cases hls
  · rw [← some.inj hls, length_set]
    exact h.lines

/-- No call leads beyond the maximum. -/
theorem step_bounded {op : Op} (h : Bounded s) (hs : step s op = some s') : Bounded s' := by
  have hlimit : maxSize = 2 ^ 32 - 1 := rfl
  have hsize := h.size
  cases op with
  | pushBack val =>
    obtain ⟨hmax, hs⟩ := ite_none_left_eq_some.mp hs
    split at hs
    · have hb : Bounded { s with size := s.size + 1 } := ⟨not_le.mp hmax, h.lines⟩
      exact set_bounded hb hs
    · have hb : Bounded ⟨s.lines ++ [Line.make false], s.size + 1⟩ := by
        refine ⟨not_le.mp hmax, ?_⟩
        rw [length_append, length_singleton]
        omega
      exact set_bounded hb hs
  | popBack =>
    obtain ⟨-, hs⟩ := ite_none_left_eq_some.mp hs
    obtain rfl := some.inj hs
    exact ⟨le_trans (sub_le _ _) h.size, h.lines⟩
  | set i val => exact set_bounded h hs
  | resize n val =>
    obtain ⟨hn, hs⟩ := ite_none_left_eq_some.mp hs
    obtain rfl := some.inj hs
    refine ⟨not_lt.mp hn, ?_⟩
    show (resizeLines s.lines (bitsToLines n) (Line.make val)).length ≤ 2 ^ 24
    rw [length_resizeLines, bitsToLines]
    omega
  | eraseAll =>
    obtain rfl := some.inj hs
    exact ⟨h.size, zero_le _⟩
  | clear =>
    obtain rfl := some.inj hs
    exact bounded_empty

/-! ## The final `build_cache` -/

/-- What a built object reports as its number of ones: the ones of ALL cleared
    lines. -/
theorem buildCacheQ_maxRank1 {junk : Nat → Nat} {Q0 Q1 : Nat} {c : Cache}
    (h : buildCacheQ junk s Q0 Q1 = some c) :
    ∃ cl, clearBack s = some cl ∧ c.maxRank1 = ones (bits cl) (256 * cl.length) := by
  obtain ⟨-, h⟩ := ite_none_left_eq_some.mp h
  obtain ⟨cl, hcl, h⟩ := bind_eq_some_iff.mp h
  obtain ⟨sel0, _, h⟩ := bind_eq_some_iff.mp h
  obtain ⟨sel1, _, rfl⟩ := map_eq_some_iff.mp h
  refine ⟨cl, hcl, ?_⟩
  show (fillRlev cl 0).2 = _
  rw [fillRlev_total, zero_add]

/-- The bits behind the size are all zero after clearing exactly when the object
    is clean. -/
theorem buildClean_iff {cl : List Line} (h : clearBack s = some cl) :
    (∀ p, s.size ≤ p → bits cl p = false) ↔ BuildClean s := by
  constructor
  · intro hzero i hi _ hkept
    have hz := hzero i hi
    rw [bits_clearBack h, if_neg] at hz
    · exact hz
    · omega
  intro hclean p hp
  rw [bits_clearBack h]
  split
  · rfl
  next hcut =>
    by_cases hout : 256 * s.lines.length ≤ p
    · exact bits_out hout
    · refine hclean p hp (by omega) (fun h0 => ?_)
      by_contra hge
      exact hcut ⟨h0, by omega⟩

/-- The final build reports the list's counts exactly when the object is clean. -/
theorem build_agree_iff (h : Agree s L) (hmax : s.size ≤ maxSize) (hlines : s.lines.length ≤ 2 ^ 24)
    (junk : Nat → Nat) (speed0 speed1 : Bool) :
    (∃ c, buildCache junk s speed0 speed1 = some c ∧ c.maxRank1 = L.count true ∧
      c.maxRank0 = L.count false) ↔ BuildClean s := by
  have hfit := h.fits
  have hsize := h.1
  obtain ⟨cl, hcl⟩ := clearBack_isSome hfit
  have hlen := clearBack_length hcl
  -- below the size the cleared lines still hold the list
  have hlow : ∀ i, i < L.length → bits cl i = ofList L i := by
    intro i hi
    rw [bits_clearBack_low hcl hfit (by omega), ofList_eq (h.bits hi).2]
  have hones : ones (bits cl) s.size = L.count true := by
    rw [hsize, ones_congr hlow, ones_ofList]
  have hzeros : ones (negBits (bits cl)) s.size = L.count false := by
    rw [← wsub_ones, hones, hsize, wsub_count]
  constructor
  · rintro ⟨c, hc, hmax1, _⟩
    obtain ⟨cl', hcl', hrank⟩ := buildCacheQ_maxRank1 hc
    obtain rfl := mem_unique hcl hcl'
    refine (buildClean_iff hcl).mp (fun p hp => ?_)
    by_cases hout : 256 * cl.length ≤ p
    · exact bits_out hout
    · exact zeros_of_ones_eq (hrank.symm.trans (hmax1.trans hones.symm)) p hp (by omega)
  · intro hclean
    obtain ⟨c, hc, hok, _⟩ := buildCacheQ_ok junk ((toNat_quantum speed0).imp_right .inl)
      (toNat_quantum speed1) hmax hcl (by omega) (by omega)
      ((buildClean_iff hcl).mpr hclean)
    exact ⟨c, hc, hok.max1.trans hones, hok.max0.trans hzeros⟩

/-! ## Whole runs -/

/-- The object after a run from the empty one. -/
def runOps (ops : List Op) : Option Il := run step Il.empty ops

/-- The list after the same run. -/
def listOps (ops : List Op) : List Bool := absRun listStep [] ops

theorem runOps_bounded {ops : List Op} (h : runOps ops = some s) : Bounded s :=
  run_invariant bounded_empty (fun _ _ _ => step_bounded) ops s h

/-- A run agrees with the list after every operation exactly when every operation
    meets its condition. -/
theorem runOps_agree_iff (ops : List Op)
    (hadm : ∀ k (h : k < ops.length), Admissible (listOps (ops.take k)) ops[k]) :
    (∀ k, k ≤ ops.length → ∃ s, runOps (ops.take k) = some s ∧
        Agree s (listOps (ops.take k))) ↔
    ∀ k (h : k < ops.length) s, runOps (ops.take k) = some s → StepOk s ops[k] :=
  run_agrees_iff bounded_empty (fun _ _ _ => step_bounded) agree_empty
    (fun _ _ op _ ha hop => step_agree_iff ha op hop) ops hadm

/-- **THE GROWABLE VECTOR AGREES WITH THE LIST EXACTLY WHEN** every operation meets
    its condition and the final object is clean: then `size` and `is1` agree after
    every operation and the final `build_cache` reports the list's numbers of ones
    and zeros, whatever the flags. -/
theorem growable_like_list_iff (ops : List Op)
    (hadm : ∀ k (h : k < ops.length), Admissible (listOps (ops.take k)) ops[k]) :
    ((∀ k, k ≤ ops.length → ∃ s, runOps (ops.take k) = some s ∧
        Agree s (listOps (ops.take k))) ∧
      ∀ junk speed0 speed1, ∃ s c, runOps ops = some s ∧
        buildCache junk s speed0 speed1 = some c ∧
        c.maxRank1 = (listOps ops).count true ∧ c.maxRank0 = (listOps ops).count false) ↔
    ((∀ k (h : k < ops.length) s, runOps (ops.take k) = some s → StepOk s ops[k]) ∧
      ∀ s, runOps ops = some s → BuildClean s) := by
  rw [runOps_agree_iff ops hadm]
  refine and_congr_right (fun hok => ?_)
  -- the steps are fine, so the final object exists and agrees
  obtain ⟨s, hs, ha⟩ := (runOps_agree_iff ops hadm).mpr hok ops.length le_rfl
  rw [take_length] at hs ha
  have hb := runOps_bounded hs
  have hbuild := build_agree_iff ha hb.size hb.lines
  constructor
  · intro hall t ht
    obtain rfl := mem_unique hs ht
    obtain ⟨t, c, ht', hc, h1, h0⟩ := hall (fun _ => 0) false false
    obtain rfl := mem_unique hs ht'
    exact (hbuild (fun _ => 0) false false).mp ⟨c, hc, h1, h0⟩
  · intro hclean junk speed0 speed1
    obtain ⟨c, hc, h1, h0⟩ := (hbuild junk speed0 speed1).mpr (hclean s hs)
    exact ⟨s, c, hs, hc, h1, h0⟩

/-- A run that pushes, pops, resizes over a line boundary and back, and sets bits. -/
def sampleOps : List Op :=
  [.pushBack true, .pushBack false, .popBack, .resize 300 false, .set 299 true, .set 298 true,
    .set 298 false, .pushBack true, .resize 300 false, .set 0 true, .clear, .eraseAll,
    .resize 257 true]

theorem sampleOps_ok : (∀ k (h : k < sampleOps.length),
    (runOps (sampleOps.take k)).all (fun s => decide (StepOk s sampleOps[k])) = true) ∧
    (runOps sampleOps).all (fun s => decide (BuildClean s)) = true := by
  decide +kernel

/-- A run with every kind of call. -/
theorem growable_like_list_sample :
    (∀ k, k ≤ sampleOps.length → ∃ s, runOps (sampleOps.take k) = some s ∧
        Agree s (listOps (sampleOps.take k))) ∧
      ∀ junk speed0 speed1, ∃ s c, runOps sampleOps = some s ∧
        buildCache junk s speed0 speed1 = some c ∧
        c.maxRank1 = (listOps sampleOps).count true ∧
        c.maxRank0 = (listOps sampleOps).count false := by
  refine (growable_like_list_iff sampleOps (by decide +kernel)).mpr ⟨fun k h s hs => ?_,
    fun s hs => ?_⟩
  · have hok := sampleOps_ok.1 k h
    rw [hs] at hok
    exact of_decide_eq_true hok
  · have hok := sampleOps_ok.2
    rw [hs] at hok
    exact of_decide_eq_true hok

/-- Three runs that part from the list: `erase_all` leaves the size, `resize`
    brings a popped bit back, and `build_cache` counts the bits of a popped line. -/
theorem growable_like_list_fails :
    (∃ s, runOps [.pushBack true, .eraseAll] = some s ∧ s.size = 1 ∧
      listOps [.pushBack true, .eraseAll] = []) ∧
    (∃ s, runOps [.pushBack true, .popBack, .resize 1 false] = some s ∧ is1 s 0 = some true ∧
      listOps [.pushBack true, .popBack, .resize 1 false] = [false]) ∧
    (∃ s c, runOps [.resize 257 true, .popBack] = some s ∧
      buildCache (fun _ => 0) s false false = some c ∧ c.maxRank1 = 512 ∧
      (listOps [.resize 257 true, .popBack]).count true = 256) := by
  refine ⟨⟨_, rfl, rfl, rfl⟩, ⟨_, rfl, by decide, rfl⟩, ?_⟩
  exact ⟨_, _, rfl, rfl, by decide +kernel, by decide +kernel⟩

end RankSelectIl
