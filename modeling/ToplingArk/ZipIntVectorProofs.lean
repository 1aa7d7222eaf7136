import ToplingArk.SearchProofs
import ToplingArk.UintVecProofs

/-! # `ZipIntVector<size_t>` — values packed as offsets from their minimum

    `build_from` packs the differences to the smallest value, in the width of the largest
    difference.  The searches of `UintVecMin0` halve a range of a nondecreasing vector.
    Those of `ZipIntVector` ask `m_min_val < key` first and search for the difference; for
    every other key all three answer `lo`.  That is right below the minimum.  For the minimum
    itself it is right for `lower_bound` only: `upper_bound` does not pass the values that are
    equal to it and `equal_range` finds none of them. -/

namespace UintVec

open Search List Option BitVec Nat

/-! ## The searches of `UintVecMin0` -/

/-- `lower_bound` -/
def Vec.lowerBound (v : Vec) (lo hi : Nat) (key : BitVec 64) : Option Nat :=
  Search.upperBound (fun mid => (v.get mid).map (fun x => decide (x < key))) lo hi

/-- `upper_bound` -/
def Vec.upperBound (v : Vec) (lo hi : Nat) (key : BitVec 64) : Option Nat :=
  Search.upperBound (fun mid => (v.get mid).map (fun x => decide (x ≤ key))) lo hi

/-- The loop of `equal_range`; the range gets smaller with every turn. -/
def Vec.equalRangeLoop (v : Vec) (key : BitVec 64) : Nat → Nat → Nat → Option (Nat × Nat)
  | 0, lo, hi => if lo < hi then none else some (lo, lo)
  | fuel + 1, lo, hi =>
    if lo < hi then
      (v.get ((lo + hi) / 2)).bind (fun x =>
        if x < key then v.equalRangeLoop key fuel ((lo + hi) / 2 + 1) hi
        else if key < x then v.equalRangeLoop key fuel lo ((lo + hi) / 2)
        else (v.lowerBound lo ((lo + hi) / 2) key).bind (fun a =>
          (v.upperBound ((lo + hi) / 2 + 1) hi key).map (fun b => (a, b))))
    else some (lo, lo)

/-- `equal_range` -/
def Vec.equalRange (v : Vec) (lo hi : Nat) (key : BitVec 64) : Option (Nat × Nat) :=
  v.equalRangeLoop key (hi - lo) lo hi

/-! ## `ZipIntVector` -/

/-- Values stored as differences to the smallest. -/
structure ZipIntVector where
  vec : Vec
  minVal : BitVec 64

/-- One turn of the loop of `build_from`, on `(min_val, max_val)`. -/
def minMaxStep (r : BitVec 64 × BitVec 64) (x : BitVec 64) : BitVec 64 × BitVec 64 :=
  (if r.1 > x then x else r.1, if r.2 < x then x else r.2)

/-- `build_from` once the smallest and the largest value are known -/
def packFrom (src : List (BitVec 64)) (minVal maxVal : BitVec 64) : Option ZipIntVector :=
  let wireMax := maxVal - minVal
  (setAll (fun i => (src[i]?).map (fun y => y - minVal)) src.length
    (resizeWithUintbits src.length (computeUintbits wireMax))).map
      (fun vec => { vec := vec, minVal := minVal })

/-- `build_from`, of the vector and of its base class -/
def buildFrom : List (BitVec 64) → Option ZipIntVector
  | [] => some { vec := Vec.empty, minVal := 0 }
  | x :: rest =>
    let r := rest.foldl minMaxStep (x, x)
    packFrom (x :: rest) r.1 r.2

namespace ZipIntVector

/-- `get` -/
def get (z : ZipIntVector) (idx : Nat) : Option (BitVec 64) :=
  (z.vec.get idx).map (fun x => z.minVal + x)

/-- `equal_range` -/
def equalRange (z : ZipIntVector) (lo hi : Nat) (key : BitVec 64) : Option (Nat × Nat) :=
  if z.minVal < key then z.vec.equalRange lo hi (key - z.minVal) else some (lo, lo)

/-- `lower_bound` -/
def lowerBound (z : ZipIntVector) (lo hi : Nat) (key : BitVec 64) : Option Nat :=
  if z.minVal < key then z.vec.lowerBound lo hi (key - z.minVal) else some lo

/-- `upper_bound` -/
def upperBound (z : ZipIntVector) (lo hi : Nat) (key : BitVec 64) : Option Nat :=
  if z.minVal < key then z.vec.upperBound lo hi (key - z.minVal) else some lo

end ZipIntVector

/-- The indices with a value that is not below the key. -/
def NotBelow (vs : List (BitVec 64)) (key : BitVec 64) (k : Nat) : Prop :=
  ∃ h : k < vs.length, key ≤ vs[k]

/-- The value at `k` is above the key. -/
def Above (vs : List (BitVec 64)) (key : BitVec 64) (k : Nat) : Prop :=
  ∃ h : k < vs.length, key < vs[k]

instance (vs : List (BitVec 64)) (key : BitVec 64) : DecidablePred (NotBelow vs key) :=
  fun k => inferInstanceAs (Decidable (∃ h : k < vs.length, key ≤ vs[k]))

instance (vs : List (BitVec 64)) (key : BitVec 64) : DecidablePred (Above vs key) :=
  fun k => inferInstanceAs (Decidable (∃ h : k < vs.length, key < vs[k]))

/-! ## Searching a nondecreasing vector -/

section Searches

variable {v : Vec} {vs : List (BitVec 64)} (key : BitVec 64) {i j : Nat}

variable {key} in
theorem NotBelow.mono (hsorted : vs.Pairwise (· ≤ ·)) (hij : i ≤ j) (hj : j < vs.length)
    (h : NotBelow vs key i) : NotBelow vs key j := by
  obtain ⟨hi, h⟩ := h
  rcases lt_or_eq_of_le hij with hlt | rfl
  · exact ⟨hj, BitVec.le_trans h (pairwise_iff_getElem.mp hsorted i j hi hj hlt)⟩
  · exact ⟨hi, h⟩

variable {key} in
theorem Above.mono (hsorted : vs.Pairwise (· ≤ ·)) (hij : i ≤ j) (hj : j < vs.length)
    (h : Above vs key i) : Above vs key j := by
  obtain ⟨hi, h⟩ := h
  rcases lt_or_eq_of_le hij with hlt | rfl
  · exact ⟨hj, Nat.lt_of_lt_of_le h (pairwise_iff_getElem.mp hsorted i j hi hj hlt)⟩
  · exact ⟨hi, h⟩

section

variable (hget : ∀ i (h : i < vs.length), v.get i = some vs[i]) (hsorted : vs.Pairwise (· ≤ ·))
  {lo hi : Nat}

include hget hsorted

/-- The search finds the first value not below the key. -/
theorem lowerBound_first (hle : lo ≤ hi) (hhi : hi ≤ vs.length) :
    ∃ t, v.lowerBound lo hi key = some t ∧ FirstIn (NotBelow vs key) lo hi t := by
  refine upperBound_first hle (fun i j _ hij hj => NotBelow.mono hsorted hij (by omega))
    (fun k _ hk => ?_)
  have hlen : k < vs.length := by omega
  rw [hget k hlen]
  refine congrArg some (decide_eq_decide.mpr ⟨fun h hno => ?_, fun h => ?_⟩)
  · exact absurd h (BitVec.not_lt.mpr hno.2)
  · exact BitVec.not_le.mp (fun hge => h ⟨hlen, hge⟩)

/-- The search finds the first value above the key. -/
theorem upperBound_first_above (hle : lo ≤ hi) (hhi : hi ≤ vs.length) :
    ∃ t, v.upperBound lo hi key = some t ∧ FirstIn (Above vs key) lo hi t := by
  refine upperBound_first hle (fun i j _ hij hj => Above.mono hsorted hij (by omega))
    (fun k _ hk => ?_)
  have hlen : k < vs.length := by omega
  rw [hget k hlen]
  refine congrArg some (decide_eq_decide.mpr ⟨fun h hno => ?_, fun h => ?_⟩)
  · exact absurd hno.2 (BitVec.not_lt.mpr h)
  · exact BitVec.not_lt.mp (fun hgt => h ⟨hlen, hgt⟩)

/-- **EQUAL RANGE**: halving goes on with the half that holds both ends, and the two halves
    are searched on their own once an equal value is met. -/
theorem equalRangeLoop_first (fuel : Nat) :
    ∀ lo hi, lo ≤ hi → hi ≤ vs.length → hi - lo ≤ fuel →
      ∃ a b, v.equalRangeLoop key fuel lo hi = some (a, b) ∧
        FirstIn (NotBelow vs key) lo hi a ∧ FirstIn (Above vs key) lo hi b := by
  induction fuel with
  | zero =>
    intro lo hi hle _ hf
    obtain rfl : lo = hi := by omega
    have hno : ¬ lo < lo := lt_irrefl lo
    exact ⟨lo, lo, if_neg hno, firstIn_lo hle (fun h => absurd h hno),
      firstIn_lo hle (fun h => absurd h hno)⟩
  | succ fuel ih =>
    intro lo hi hle hhi hf
    rw [Vec.equalRangeLoop]
    by_cases hlt : lo < hi
    · generalize hmid : (lo + hi) / 2 = mid
      have hlen : mid < vs.length := by omega
      rw [if_pos hlt, hget mid hlen, bind_some]
      by_cases hless : vs[mid] < key
      · -- everything up to the middle is below the key
        obtain ⟨a, b, hrun, ha, hb⟩ := ih (mid + 1) hi (by omega) hhi (by omega)
        rw [if_pos hless]
        refine ⟨a, b, hrun, ha.extend_low (by omega) (fun k _ hk hno => ?_),
          hb.extend_low (by omega) (fun k _ hk hno => ?_)⟩
        · exact absurd hless (BitVec.not_lt.mpr (hno.mono hsorted (le_of_lt_succ hk) hlen).2)
        · exact absurd hless (BitVec.not_lt.mpr
            (BitVec.le_of_lt (hno.mono hsorted (le_of_lt_succ hk) hlen).2))
      rw [if_neg hless]
      by_cases hmore : key < vs[mid]
      · obtain ⟨a, b, hrun, ha, hb⟩ := ih lo mid (by omega) (by omega) (by omega)
        rw [if_pos hmore]
        exact ⟨a, b, hrun, ha.extend_high (by omega) (fun _ => ⟨hlen, BitVec.le_of_lt hmore⟩),
          hb.extend_high (by omega) (fun _ => ⟨hlen, hmore⟩)⟩
      -- the middle is equal to the key: one border on either side
      obtain ⟨a, hrun, ha⟩ :=
        lowerBound_first key hget hsorted (show lo ≤ mid by omega) hlen.le
      obtain ⟨b, hrun', hb⟩ :=
        upperBound_first_above key hget hsorted (show mid + 1 ≤ hi by omega) hhi
      rw [if_neg hmore, hrun, hrun']
      refine ⟨a, b, rfl, ha.extend_high (by omega) (fun _ => ⟨hlen, BitVec.not_lt.mp hless⟩),
        hb.extend_low (by omega) (fun k _ hk hno => ?_)⟩
      exact hmore (hno.mono hsorted (le_of_lt_succ hk) hlen).2
    · rw [if_neg hlt]
      exact ⟨lo, lo, rfl, firstIn_lo hle (fun h => absurd h hlt),
        firstIn_lo hle (fun h => absurd h hlt)⟩

end

end Searches

/-! ## Building -/

/-- The loop finds the least and the greatest value. -/
theorem minMax_spec (x : BitVec 64) (rest : List (BitVec 64)) :
    let r := rest.foldl minMaxStep (x, x)
    r.1 ∈ x :: rest ∧ r.2 ∈ x :: rest ∧ ∀ y ∈ x :: rest, r.1 ≤ y ∧ y ≤ r.2 := by
  induction rest using reverseRecOn with
  | nil => simp
  | append_singleton rest y ih =>
    intro r
    have hr : r = minMaxStep (rest.foldl minMaxStep (x, x)) y := by
      show (rest ++ [y]).foldl minMaxStep (x, x) = _
      rw [foldl_append]
      rfl
    obtain ⟨h1, h2, hall⟩ := ih
    rw [hr, ← List.cons_append]
    have hy : y ∈ x :: rest ++ [y] := mem_append_right _ (mem_singleton_self y)
    simp only [minMaxStep]
    refine ⟨?_, ?_, fun u hu => ?_⟩
    · split
      · exact hy
      · exact mem_append_left _ h1
    · split
      · exact hy
      · exact mem_append_left _ h2
    · rcases mem_append.mp hu with hu | hu
      · have := hall u hu
        constructor <;> split <;> bv_omega
      · rw [mem_singleton.mp hu]
        constructor <;> split <;> bv_omega

section Pack

variable {src : List (BitVec 64)} {minVal maxVal key : BitVec 64}

/-- **PACK**: the vector holds the differences to the smallest value. -/
theorem packFrom_eq (hmin : minVal ∈ src) (hmax : maxVal ∈ src)
    (hall : ∀ y ∈ src, minVal ≤ y ∧ y ≤ maxVal) (hspread : maxVal.toNat < minVal.toNat + 2 ^ 58) :
    ∃ vec, packFrom src minVal maxVal = some { vec := vec, minVal := minVal } ∧
      ∀ i (h : i < src.length), vec.get i = some (src[i] - minVal) := by
  have hsub : ∀ y ∈ src, (y - minVal).toNat = y.toNat - minVal.toNat :=
    fun y hy => toNat_sub_of_le (hall y hy).1
  have h58 : computeUintbits (maxVal - minVal) ≤ 58 := by
    rw [computeUintbits_le_iff, hsub _ hmax]
    omega
  -- every difference fits the width of the largest one
  have hfits : ∀ d ∈ src.map (fun y => y - minVal), Fits (computeUintbits (maxVal - minVal)) d := by
    intro d hd
    obtain ⟨y, hy, rfl⟩ := mem_map.mp hd
    have hle : (y - minVal).toNat ≤ (maxVal - minVal).toNat := by
      rw [hsub y hy, hsub _ hmax]
      exact Nat.sub_le_sub_right (hall y hy).2 _
    exact fits_of_lt (hle.trans_lt (computeUintbits_le_iff.mp le_rfl))
  obtain ⟨hnew, hlen⟩ :=
    packs_resizeWithUintbits (h58.trans (by decide)) (length_pos_of_mem hmin)
  have hcount : (src.map (fun y => y - minVal)).length = src.length := length_map _
  have hread : ∀ i (hi : i < (src.map (fun y => y - minVal)).length),
      (src[i]?).map (fun y => y - minVal) = some (src.map (fun y => y - minVal))[i] := by
    intro i hi
    rw [List.getElem?_eq_getElem (hcount ▸ hi), getElem_map, map_some]
  have hroom := hlen.symm.le
  obtain ⟨data, hset, hlen', hpacks⟩ := hnew.setAll hread hfits (hcount.symm ▸ hroom)
  rw [hcount] at hset
  refine ⟨_, by rw [packFrom, hset, map_some], fun i hi => ?_⟩
  rw [← hlen', ← hcount] at hroom
  rw [hpacks.get h58 hroom (hcount.symm ▸ hi), getElem_map]

/-- **BUILD**: any values that are not too far apart. -/
theorem buildFrom_eq (hspread : ∀ x ∈ src, ∀ y ∈ src, x.toNat < y.toNat + 2 ^ 58) :
    ∃ z, buildFrom src = some z ∧ (∀ x ∈ src, z.minVal ≤ x) ∧ (src ≠ [] → z.minVal ∈ src) ∧
      ∀ i (h : i < src.length), z.vec.get i = some (src[i] - z.minVal) := by
  cases src with
  | nil =>
    exact ⟨_, rfl, forall_mem_nil _, fun hne => absurd rfl hne,
      fun _ hi => absurd hi (not_lt_zero _)⟩
  | cons x rest =>
    obtain ⟨hmin, hmax, hall⟩ := minMax_spec x rest
    obtain ⟨vec, hpack, hget⟩ := packFrom_eq hmin hmax hall (hspread _ hmax _ hmin)
    exact ⟨_, hpack, fun y hy => (hall y hy).1, fun _ => hmin, hget⟩

theorem first_le (hsorted : src.Pairwise (· ≤ ·)) {y : BitVec 64} (h : src[0]? = some y) :
    ∀ x ∈ src, y ≤ x := by
  cases src with
  | nil => exact nomatch h
  | cons z rest =>
    obtain rfl : z = y := some.inj h
    intro x hx
    rcases mem_cons.mp hx with rfl | hx
    · exact BitVec.le_refl x
    · exact rel_of_pairwise_cons hsorted hx

/-- The differences are ordered as the values are. -/
theorem sorted_sub (hsorted : src.Pairwise (· ≤ ·)) (hmin : ∀ x ∈ src, minVal ≤ x) :
    (src.map (fun y => y - minVal)).Pairwise (· ≤ ·) := by
  refine pairwise_map.mpr (hsorted.imp_of_mem (fun {x y} hx hy hxy => ?_))
  have hx := hmin x hx
  bv_omega

/-- Differences compare as the values do. -/
theorem notBelow_sub (hmin : ∀ x ∈ src, minVal ≤ x) (hkey : minVal < key) (k : Nat) :
    NotBelow (src.map (fun y => y - minVal)) (key - minVal) k ↔ NotBelow src key k := by
  unfold NotBelow
  simp only [length_map, getElem_map]
  refine exists_congr (fun hk => ?_)
  have := hmin _ (getElem_mem hk)
  bv_omega

theorem above_sub (hmin : ∀ x ∈ src, minVal ≤ x) (hkey : minVal < key) (k : Nat) :
    Above (src.map (fun y => y - minVal)) (key - minVal) k ↔ Above src key k := by
  unfold Above
  simp only [length_map, getElem_map]
  refine exists_congr (fun hk => ?_)
  have := hmin _ (getElem_mem hk)
  bv_omega

end Pack

/-! ## Searching for a value -/

/-- The vector that is built shows the values and finds, in `[lo, hi)`, the first index with a
    value not below the key, the first index with a value above it, and both. -/
def SearchesRight (src : List (BitVec 64)) (lo hi : Nat) (key : BitVec 64) : Prop :=
  ∃ z, buildFrom src = some z ∧ (∀ i (h : i < src.length), z.get i = some src[i]) ∧
    ∃ a b, z.lowerBound lo hi key = some a ∧ FirstIn (NotBelow src key) lo hi a ∧
      z.upperBound lo hi key = some b ∧ FirstIn (Above src key) lo hi b ∧
      z.equalRange lo hi key = some (a, b)

/-- The key is the smallest value and the range starts with it. -/
def AtMinimum (src : List (BitVec 64)) (lo hi : Nat) (key : BitVec 64) : Prop :=
  lo < hi ∧ src[0]? = some key ∧ src[lo]? = some key

/-- **SEARCH**: everything is right but for a range that starts with the smallest value, when
    that value is the key. -/
theorem zip_searches_right_iff {src : List (BitVec 64)} (hsorted : src.Pairwise (· ≤ ·))
    (hspread : ∀ x ∈ src, ∀ y ∈ src, x.toNat < y.toNat + 2 ^ 58) {lo hi : Nat} (hle : lo ≤ hi)
    (hhi : hi ≤ src.length) (key : BitVec 64) :
    SearchesRight src lo hi key ↔ ¬ AtMinimum src lo hi key := by
  obtain ⟨z, hz, hmin, hmem, hwire⟩ := buildFrom_eq hspread
  have hget : ∀ i (h : i < src.length), z.get i = some src[i] := by
    intro i hi
    rw [ZipIntVector.get, hwire i hi, map_some, BitVec.add_comm, sub_add_cancel]
  by_cases hkey : z.minVal < key
  · -- the search for the difference, in the differences
    have hsorted' := sorted_sub hsorted hmin
    have hlen : (src.map (fun y => y - z.minVal)).length = src.length := length_map _
    have hget' : ∀ i (h : i < (src.map (fun y => y - z.minVal)).length),
        z.vec.get i = some (src.map (fun y => y - z.minVal))[i] := by
      intro i hi
      rw [getElem_map]
      exact hwire i (hlen ▸ hi)
    have hhi' : hi ≤ (src.map (fun y => y - z.minVal)).length := by
      rw [hlen]
      exact hhi
    obtain ⟨a, hlower, ha⟩ := lowerBound_first (key - z.minVal) hget' hsorted' hle hhi'
    obtain ⟨b, hupper, hb⟩ := upperBound_first_above (key - z.minVal) hget' hsorted' hle hhi'
    obtain ⟨a', b', hequal, ha', hb'⟩ :=
      equalRangeLoop_first (key - z.minVal) hget' hsorted' (hi - lo) lo hi hle hhi' le_rfl
    obtain rfl := ha.unique ha'
    obtain rfl := hb.unique hb'
    refine ⟨fun _ ⟨_, hzero, _⟩ => ?_, fun _ => ⟨z, hz, hget, a, b, (if_pos hkey).trans hlower,
      ha.congr (fun k _ _ => notBelow_sub hmin hkey k), (if_pos hkey).trans hupper,
      hb.congr (fun k _ _ => above_sub hmin hkey k), (if_pos hkey).trans hequal⟩⟩
    -- the first value is the smallest
    have hne : src ≠ [] := fun h => by rw [h] at hzero; exact nomatch hzero
    exact absurd hkey (BitVec.not_lt.mpr (first_le hsorted hzero _ (hmem hne)))
  have hall : ∀ x ∈ src, key ≤ x := fun x hx => BitVec.le_trans (BitVec.not_lt.mp hkey) (hmin x hx)
  have hrun : z.lowerBound lo hi key = some lo ∧ z.upperBound lo hi key = some lo ∧
      z.equalRange lo hi key = some (lo, lo) := ⟨if_neg hkey, if_neg hkey, if_neg hkey⟩
  have hlower : FirstIn (NotBelow src key) lo hi lo :=
    firstIn_lo hle (fun hlt => ⟨by omega, hall _ (getElem_mem _)⟩)
  constructor
  · rintro ⟨z', hz', -, a, b, -, -, hupper, hb, -⟩ ⟨hlt, -, hat⟩
    obtain rfl := mem_unique hz hz'
    obtain rfl := mem_unique hrun.2.1 hupper
    obtain ⟨hlo, habove⟩ := hb.holds hlt
    rw [List.getElem?_eq_getElem hlo, some.injEq] at hat
    rw [hat] at habove
    exact BitVec.lt_irrefl _ habove
  intro hno
  refine ⟨z, hz, hget, lo, lo, hrun.1, hlower, hrun.2.1, firstIn_lo hle (fun hlt => ?_), hrun.2.2⟩
  have hlo : lo < src.length := by omega
  have hzero : src[0]? = some (src.get ⟨0, by omega⟩) := getElem?_eq_getElem _
  refine ⟨hlo, Nat.lt_of_le_of_ne (hall _ (getElem_mem hlo)) (fun heq => ?_)⟩
  have hat : key = src[lo] := eq_of_toNat_eq heq
  -- the first value is between the key and this one
  have hfirst := BitVec.le_antisymm (hat ▸ first_le hsorted hzero _ (getElem_mem hlo))
    (hall _ (getElem_mem _))
  exact hno ⟨hlt, hzero.trans (congrArg some hfirst),
    (List.getElem?_eq_getElem hlo).trans (congrArg some hat.symm)⟩

/-- The key 5 in 3, 5, 5. -/
theorem zip_searches_right_three : SearchesRight [3, 5, 5] 0 3 5 :=
  (zip_searches_right_iff (by decide) (by simp) (by decide) (by decide) 5).mpr
    (fun hat => absurd hat.2.1 (by decide))

/-- The key 5 in the vector of one 5: `upper_bound` answers 0 and not 1, `equal_range` answers
    an empty range. -/
theorem zip_search_five_fails :
    ((buildFrom [5]).bind (fun z => z.upperBound 0 1 5) = some 0 ∧
      (buildFrom [5]).bind (fun z => z.equalRange 0 1 5) = some (0, 0)) ∧
    ¬ SearchesRight [5] 0 1 5 := by
  have hupper : (buildFrom [5]).bind (fun z => z.upperBound 0 1 5) = some 0 := by decide +kernel
  refine ⟨⟨hupper, by decide +kernel⟩, ?_⟩
  rintro ⟨z, hz, -, a, b, -, -, hb, hfirst, -⟩
  rw [hz, bind_some, hb] at hupper
  obtain rfl : b = 0 := some.inj hupper
  obtain ⟨_, hlt⟩ := hfirst.holds (by decide)
  exact BitVec.lt_irrefl _ hlt

end UintVec
