import Mathlib.Data.List.Lex
import ToplingArk.MemoryProofs
import ToplingArk.SearchProofs

/-! # `hash_strmap::equal_range3` — prefix ranges of a map sorted by key

    The keys lie one after the other in `strpool`, each filled up to the alignment; the last
    byte of its room says how much was filled.  Node `i` has the offset of key `i`, and a guard
    node follows the last one.  `equal_range3(prefix, len)` compares by `prefix_compare3(len)`:
    two strings that agree up to the shorter length are equal if the limit is BELOW that
    length, and are compared by length otherwise.  Here the limit is the length of one of them,
    never below the shorter: a key that goes on behind the prefix counts as greater. -/

namespace HashStrMap

open Search LittleEndian List Option

/-- The part of the map that `equal_range3` reads. -/
structure Map where
  nNodes : Nat
  offset : List Nat
  strpool : List Byte
  sortByKey : Bool

/-- `fstring(ps + beg, End - beg - extralen(ps, End))` -/
def Map.key (m : Map) (i : Nat) : Option (List Byte) :=
  (m.offset[i]?).bind (fun beg => (m.offset[i + 1]?).bind (fun fin =>
    (m.strpool[fin - 1]?).bind (fun extra =>
      if beg + (extra.toNat + 1) ≤ fin then
        Memory.read m.strpool beg (fin - beg - (extra.toNat + 1))
      else none)))

/-- The loop of `prefix_compare3`: the difference of the first bytes that differ. -/
def firstDiff : Nat → List Byte → List Byte → Option Int
  | clen + 1, a :: x, b :: y =>
    if a ≠ b then some ((a.toNat : Int) - b.toNat) else firstDiff clen x y
  | _, _, _ => none

/-- `fstring_func::prefix_compare3`; the lengths are subtracted and cut to an `int`. -/
def prefixCompare3 (plen : Nat) (x y : List Byte) : Int :=
  let lmin := min x.length y.length
  match firstDiff (min lmin plen) x y with
  | some d => d
  | none => if plen < lmin then 0 else Int.bmod (x.length - y.length) (2 ^ 32)

/-- The first loop of `equal_range3`; it stops at an equal key, `mid0` is where it looked last. -/
def meet (comp : Nat → Option Int) : Nat → Nat → Nat → Nat → Option (Nat × Nat × Nat)
  | 0, lo, hi, mid0 => if lo < hi then none else some (lo, hi, mid0)
  | fuel + 1, lo, hi, mid0 =>
    if lo < hi then
      (comp ((lo + hi) / 2)).bind (fun ret =>
        if ret < 0 then meet comp fuel ((lo + hi) / 2 + 1) hi ((lo + hi) / 2)
        else if 0 < ret then meet comp fuel lo ((lo + hi) / 2) ((lo + hi) / 2)
        else some (lo, hi, (lo + hi) / 2))
    else some (lo, hi, mid0)

/-- `equal_range3(key, comp3)`; the ends of the last loop meet, so that either is the answer. -/
def Map.equalRange3 (m : Map) (key : List Byte) (comp3 : List Byte → List Byte → Int) :
    Option (Nat × Nat) :=
  let comp := fun k => (m.key k).map (fun smid => comp3 smid key)
  if m.sortByKey then
    (meet comp m.nNodes 0 m.nNodes m.nNodes).bind (fun r =>
      (upperBound (fun k => (comp k).map (fun ret => decide (ret < 0))) r.1 r.2.2).bind (fun lo =>
        (upperBound (fun k => (comp k).map (fun ret => decide (ret ≤ 0))) r.2.2 r.2.1).map
          (fun hi => (lo, hi))))
  else none

/-- `equal_range3(prefix, prefixlen)` -/
def Map.equalRange3Of (m : Map) (p : List Byte) : Option (Nat × Nat) :=
  m.equalRange3 p (prefixCompare3 p.length)

/-! ## Three-way search -/

variable {a b : Nat}

/-- The loop keeps both ends of the equal part in the range, and ends inside it if it is not
    empty. -/
theorem meet_spec {comp : Nat → Option Int} {n : Nat} (hab : a ≤ b)
    (hcomp : ∀ k < n, ∃ ret, comp k = some ret ∧ (ret < 0 ↔ k < a) ∧ (ret ≤ 0 ↔ k < b))
    (fuel : Nat) :
    ∀ lo hi mid0, lo ≤ a → b ≤ hi → hi ≤ n → hi - lo ≤ fuel → mid0 ≤ hi →
      ∃ lo' hi' m, meet comp fuel lo hi mid0 = some (lo', hi', m) ∧ lo' ≤ a ∧ b ≤ hi' ∧ hi' ≤ n ∧
        m ≤ b ∧ (a ≤ m ∨ lo' = a ∧ m ≤ lo') := by
  induction fuel with
  | zero =>
    intro lo hi mid0 h1 h2 h3 h4 h5
    exact ⟨lo, hi, mid0, if_neg (by omega), h1, h2, h3, by omega, by omega⟩
  | succ fuel ih =>
    intro lo hi mid0 h1 h2 h3 h4 h5
    rw [meet]
    by_cases hlo : lo < hi
    · generalize hmid : (lo + hi) / 2 = mid
      obtain ⟨ret, hret, hless, hmore⟩ := hcomp mid (by omega)
      rw [if_pos hlo, hret, bind_some]
      split
      · exact ih _ _ _ (by omega) h2 h3 (by omega) (by omega)
      · split
        · exact ih _ _ _ h1 (by omega) (by omega) (by omega) le_rfl
        · exact ⟨lo, hi, mid, rfl, h1, h2, h3, by omega, by omega⟩
    · rw [if_neg hlo]
      exact ⟨lo, hi, mid0, rfl, h1, h2, h3, by omega, by omega⟩

/-! ## The comparison -/

/-- The difference of the lengths is an `int`. -/
def LengthsFit (k p : List Byte) : Prop :=
  k.length < p.length + 2 ^ 31 ∧ p.length < k.length + 2 ^ 31

/-- The first bytes decide, if they differ. -/
theorem prefixCompare3_cons (a b : Byte) (x p : List Byte) :
    prefixCompare3 (b :: p).length (a :: x) (b :: p) =
      if a ≠ b then (a.toNat : Int) - b.toNat else prefixCompare3 p.length x p := by
  have hmin : min (min (a :: x).length (b :: p).length) (b :: p).length =
      min (min x.length p.length) p.length + 1 := by
    simp only [length_cons]
    omega
  rw [prefixCompare3, hmin, firstDiff]
  by_cases hne : a ≠ b
  · rw [if_pos hne, if_pos hne]
  rw [if_neg hne, if_neg hne, prefixCompare3]
  have hdiff : ((a :: x).length - (b :: p).length : Int) = x.length - p.length := by
    simp only [length_cons]
    omega
  have hlim : (b :: p).length < min (a :: x).length (b :: p).length ↔
      p.length < min x.length p.length := by
    omega
  simp only [hdiff, hlim]

/-- With the length of the prefix as its limit, the comparison is that of whole strings. -/
theorem prefixCompare3_sign {k p : List Byte} (hfit : LengthsFit k p) :
    (prefixCompare3 p.length k p < 0 ↔ k < p) ∧ (0 < prefixCompare3 p.length k p ↔ p < k) := by
  induction p generalizing k with
  | nil =>
    have hval : prefixCompare3 0 k [] = k.length := by
      have := hfit.1
      rw [length_nil] at this
      rw [prefixCompare3, length_nil, Nat.min_zero]
      refine (if_neg (by omega)).trans ?_
      exact Int.bmod_eq_of_le (by omega) (by omega)
    rw [length_nil, hval]
    cases k with
    | nil => exact ⟨by simp, by simp⟩
    | cons a x => exact ⟨by simp; omega, by simp⟩
  | cons b p ih =>
    cases k with
    | nil =>
      have hval : prefixCompare3 (b :: p).length [] (b :: p) = -((b :: p).length : Int) := by
        have := hfit.2
        rw [prefixCompare3]
        refine (if_neg (by simp)).trans ?_
        rw [length_nil] at this ⊢
        exact Int.bmod_eq_of_le (by omega) (by omega)
      rw [hval]
      exact ⟨by simp; omega, by simp⟩
    | cons a x =>
      have hfit' : LengthsFit x p := by
        obtain ⟨h1, h2⟩ := hfit
        simp only [length_cons] at h1 h2
        exact ⟨by omega, by omega⟩
      rw [prefixCompare3_cons, cons_lt_cons_iff, cons_lt_cons_iff]
      -- the first byte decides, or the rest does
      by_cases hab : a = b
      · subst hab
        rw [if_neg (not_not.mpr rfl), (ih hfit').1, (ih hfit').2]
        simp
      · rw [if_pos hab, Fin.lt_def, Fin.lt_def]
        exact ⟨by simp [hab], by simp [Ne.symm hab]⟩

/-! ## The range of a prefix -/

/-- The nodes of a map sorted by key, with their keys. -/
structure Stores (m : Map) (keys : List (List Byte)) : Prop where
  sorted : m.sortByKey = true
  num : m.nNodes = keys.length
  key : ∀ i (h : i < keys.length), m.key i = some keys[i]

section Range

variable {m : Map} {keys : List (List Byte)} {p : List Byte}

/-- The two searches find the borders of what compares equal. -/
theorem equalRange3_eq (hm : Stores m keys) {comp3 : List Byte → List Byte → Int} (hab : a ≤ b)
    (hb : b ≤ keys.length) (hcomp3 : ∀ i (h : i < keys.length), (comp3 keys[i] p < 0 ↔ i < a) ∧
      (comp3 keys[i] p ≤ 0 ↔ i < b)) : m.equalRange3 p comp3 = some (a, b) := by
  have hcomp : ∀ k < keys.length, ∃ ret, (m.key k).map (fun smid => comp3 smid p) = some ret ∧
      (ret < 0 ↔ k < a) ∧ (ret ≤ 0 ↔ k < b) := by
    intro k hk
    exact ⟨_, by rw [hm.key k hk]; rfl, hcomp3 k hk⟩
  obtain ⟨lo, hi, mid, hrun, h1, h2, h3, h4, h5⟩ := meet_spec hab hcomp keys.length 0 keys.length
    keys.length (Nat.zero_le a) hb le_rfl le_rfl le_rfl
  rw [Map.equalRange3, if_pos hm.sorted, hm.num, hrun, bind_some]
  have hlower : upperBound (fun k => ((m.key k).map (fun smid => comp3 smid p)).map
      (fun ret => decide (ret < 0))) lo mid = some a := by
    rcases h5 with h5 | ⟨rfl, h5⟩
    · refine upperBound_eq h1 h5 (fun k _ hk => ?_)
      obtain ⟨ret, hret, hless, -⟩ := hcomp k (by omega)
      rw [hret, map_some, decide_eq_decide.mpr hless]
    · exact upperBound_empty _ h5
  rw [hlower, bind_some, upperBound_eq h4 h2 (fun k _ hk => ?_)]
  · rfl
  · obtain ⟨ret, hret, -, hmore⟩ := hcomp k (by omega)
    show Option.map _ ((m.key k).map _) = _
    rw [hret, map_some, decide_eq_decide.mpr hmore]

/-- The answer is the range of the keys EQUAL to the prefix. -/
theorem equalRange3Of_eq (hm : Stores m keys) (hsorted : keys.Pairwise (· ≤ ·))
    (hfit : ∀ k ∈ keys, LengthsFit k p) :
    m.equalRange3Of p = some (keys.countP (fun k => decide (k < p)),
      keys.countP (fun k => decide (k ≤ p))) := by
  refine equalRange3_eq hm (countP_mono_left (fun k _ h => ?_)) countP_le_length
    (fun i hi => ?_)
  · exact decide_eq_true (le_of_lt (of_decide_eq_true h))
  · obtain ⟨hlt, hgt⟩ := prefixCompare3_sign (hfit _ (getElem_mem hi))
    rw [hlt, ← not_lt (a := (0 : Int)), hgt, not_lt]
    exact ⟨count_lt hsorted p hi, count_le hsorted p hi⟩

/-- The indices of the range are those of the keys that start with `p`. -/
def PrefixRange (m : Map) (keys : List (List Byte)) (p : List Byte) : Prop :=
  ∃ lo hi, m.equalRange3Of p = some (lo, hi) ∧
    ∀ i, lo ≤ i ∧ i < hi ↔ ∃ h : i < keys.length, p <+: keys[i]

/-- **THE RANGE OF A PREFIX** holds the keys that start with it exactly when no key goes on
    behind it. -/
theorem prefix_range_iff (hm : Stores m keys) (hsorted : keys.Pairwise (· ≤ ·))
    (hfit : ∀ k ∈ keys, LengthsFit k p) :
    PrefixRange m keys p ↔ ∀ k ∈ keys, p <+: k → k = p := by
  have hrange := equalRange3Of_eq hm hsorted hfit
  have hlen : keys.countP (fun k => decide (k ≤ p)) ≤ keys.length := countP_le_length
  have hequal : ∀ i (h : i < keys.length), keys.countP (fun k => decide (k < p)) ≤ i ∧
      i < keys.countP (fun k => decide (k ≤ p)) ↔ keys[i] = p := by
    intro i hi
    rw [← not_lt, ← count_lt hsorted p hi, ← count_le hsorted p hi, not_lt, and_comm,
      le_antisymm_iff]
  constructor
  · rintro ⟨lo, hi, hans, hin⟩ k hk hp
    obtain ⟨i, hi, rfl⟩ := mem_iff_getElem.mp hk
    obtain ⟨rfl, rfl⟩ := Prod.mk.inj (mem_unique hrange hans)
    exact (hequal i hi).mp ((hin i).mpr ⟨hi, hp⟩)
  · intro hnone
    refine ⟨_, _, hrange, fun i => ⟨fun h => ?_, fun ⟨hi, hp⟩ => ?_⟩⟩
    · have hi : i < keys.length := by omega
      exact ⟨hi, (hequal i hi).mp h ▸ prefix_rfl⟩
    · exact (hequal i hi).mpr (hnone _ (getElem_mem hi) hp)

/-- The keys "a" and "b", and the prefix "b". -/
theorem prefix_range_two : PrefixRange
    { nNodes := 2, offset := [0, 4, 8], strpool := [97, 0, 0, 2, 98, 0, 0, 2], sortByKey := true }
    [[97], [98]] [98] := by
  refine (prefix_range_iff ⟨rfl, rfl, fun i hi => ?_⟩ (by decide) ?_).mpr (by decide)
  · match i, hi with
    | 0, _ => rfl
    | 1, _ => rfl
  · simp [LengthsFit]

/-- The key "ab" starts with "a", and the range is empty. -/
theorem prefix_range_ab_fails :
    let m : Map := { nNodes := 1, offset := [0, 4], strpool := [97, 98, 0, 1], sortByKey := true }
    m.key 0 = some [97, 98] ∧ m.equalRange3Of [97] = some (0, 0) ∧
      ¬ PrefixRange m [[97, 98]] [97] := by
  intro m
  have hrun : m.equalRange3Of [97] = some (0, 0) := by decide
  refine ⟨by decide, hrun, ?_⟩
  rintro ⟨lo, hi, hans, hin⟩
  obtain ⟨rfl, rfl⟩ := Prod.mk.inj (mem_unique hrun hans)
  have := (hin 0).mpr ⟨Nat.one_pos, by decide⟩
  omega

end Range

end HashStrMap
