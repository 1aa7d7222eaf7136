import Mathlib.Data.Nat.Count
import Mathlib.Tactic.Ring

/-! # Searching a sorted table — halving, scanning and slot hints

    A search over an index range asks one question per index: is it BEFORE the
    boundary?  `halve` asks it in the middle of the range, `scan` from the low
    end on.  When the answers come from a threshold `t` (indices below `t` are
    before the boundary) both find `t`, clamped to the range searched.  A
    question may be unanswerable (a read outside the table): then the search is
    undefined.

    `firstGe` is the place where an increasing table reaches a level, and
    `hints` tabulates these places for a series of levels. -/

namespace Search

open List Option Nat

/-- Halve the range `[lo, hi)` until it is empty. -/
def halve (before : Nat → Option Bool) : Nat → Nat → Nat → Option Nat
  | 0, lo, hi => if lo < hi then none else some lo
  | fuel + 1, lo, hi =>
    if lo < hi then
      match before ((lo + hi) / 2) with
      | none => none
      | some true => halve before fuel ((lo + hi) / 2 + 1) hi
      | some false => halve before fuel lo ((lo + hi) / 2)
    else some lo

variable (before : Nat → Option Bool) {i slots last : Nat}
  {below : List Nat → Nat → Nat → Option Bool} {e : Nat → Nat}

/-- The binary search of `[lo, hi)`: the range halves at every step, so its
    length is fuel enough. -/
def upperBound (lo hi : Nat) : Option Nat :=
  halve before (hi - lo) lo hi

variable {fuel hi lo t : Nat}

theorem halve_empty (fuel : Nat) (h : hi ≤ lo) : halve before fuel lo hi = some lo := by
  cases fuel with
  | zero => exact if_neg (by omega)
  | succ fuel => exact if_neg (by omega)

theorem upperBound_empty (h : hi ≤ lo) : upperBound before lo hi = some lo :=
  halve_empty before _ h

/-- A search whose first question has no answer has none. -/
theorem upperBound_none {before : Nat → Option Bool} (hlt : lo < hi)
    (h : before ((lo + hi) / 2) = none) : upperBound before lo hi = none := by
  obtain ⟨fuel, hfuel⟩ : ∃ fuel, hi - lo = fuel + 1 := ⟨hi - lo - 1, by omega⟩
  rw [upperBound, hfuel, halve, if_pos hlt, h]

/-- Halving `[lo, hi)` towards the threshold `t` asks about `k`. -/
def asks (t k : Nat) : Nat → Nat → Nat → Bool
  | 0, _, _ => false
  | fuel + 1, lo, hi =>
    decide (lo < hi) && (decide ((lo + hi) / 2 = k) ||
      (if (lo + hi) / 2 < t then asks t k fuel ((lo + hi) / 2 + 1) hi
      else asks t k fuel lo ((lo + hi) / 2)))

/-- **SOME ANSWERS MISSING**: halving finds the threshold exactly when it asks for none of them. -/
theorem halve_known (Known : Nat → Prop) :
    ∀ fuel lo hi, lo ≤ hi → hi - lo ≤ fuel →
      (∀ k, lo ≤ k → k < hi → Known k ∧ before k = some (decide (k < t)) ∨
        ¬ Known k ∧ before k = none) →
      (∀ k, asks t k fuel lo hi = true → Known k) ∧
          halve before fuel lo hi = some (max lo (min t hi)) ∨
        (¬ ∀ k, asks t k fuel lo hi = true → Known k) ∧ halve before fuel lo hi = none := by
  intro fuel
  induction fuel with
  | zero =>
    intro lo hi hle hf _
    refine .inl ⟨fun k hk => absurd hk Bool.false_ne_true, ?_⟩
    rw [halve_empty before 0 (by omega)]
    congr 1
    omega
  | succ fuel ih =>
    intro lo hi hle hf h
    by_cases hlt : lo < hi
    · -- the middle is asked for first
      have hasks : ∀ k, asks t k (fuel + 1) lo hi = true ↔ (lo + hi) / 2 = k ∨
          (if (lo + hi) / 2 < t then asks t k fuel ((lo + hi) / 2 + 1) hi
            else asks t k fuel lo ((lo + hi) / 2)) = true := by
        intro k
        rw [asks, decide_eq_true hlt, Bool.true_and, Bool.or_eq_true, decide_eq_true_iff]
      rw [halve, if_pos hlt]
      rcases h ((lo + hi) / 2) (by omega) (by omega) with ⟨hknown, hmid⟩ | ⟨hmissing, hmid⟩
      · rw [hmid]
        have hall : ∀ b : Nat → Bool, (∀ k, asks t k (fuel + 1) lo hi = true ↔
            (lo + hi) / 2 = k ∨ b k = true) →
            ((∀ k, asks t k (fuel + 1) lo hi = true → Known k) ↔ ∀ k, b k = true → Known k) := by
          refine fun b hb => ⟨fun hk k hbk => hk k ((hb k).mpr (.inr hbk)), fun hk k hak => ?_⟩
          exact ((hb k).mp hak).elim (fun heq => heq ▸ hknown) (hk k)
        by_cases ht : (lo + hi) / 2 < t
        · simp only [if_pos ht] at hasks
          rw [hall _ hasks, decide_eq_true ht,
            show max lo (min t hi) = max ((lo + hi) / 2 + 1) (min t hi) by omega]
          exact ih _ _ (by omega) (by omega) (fun k h1 h2 => h k (by omega) h2)
        · simp only [if_neg ht] at hasks
          rw [hall _ hasks, decide_eq_false ht,
            show max lo (min t hi) = max lo (min t ((lo + hi) / 2)) by omega]
          exact ih _ _ (by omega) (by omega) (fun k h1 h2 => h k h1 (by omega))
      · rw [hmid]
        exact .inr ⟨fun hk => hmissing (hk _ ((hasks _).mpr (.inl rfl))), rfl⟩
    -- an empty range asks nothing
    · refine .inl ⟨fun k hk => ?_, ?_⟩
      · rw [asks, decide_eq_false hlt, Bool.false_and] at hk
        cases hk
      · rw [halve_empty before _ (by omega)]
        congr 1
        omega

/-- **ONE ANSWER MISSING**: halving fails exactly when it asks for it. -/
theorem halve_missing (x fuel lo hi : Nat) (hle : lo ≤ hi) (hf : hi - lo ≤ fuel)
    (h : ∀ k, lo ≤ k → k < hi → before k = if k = x then none else some (decide (k < t))) :
    halve before fuel lo hi =
      if asks t x fuel lo hi = true then none else some (max lo (min t hi)) := by
  rcases halve_known before (t := t) (· ≠ x) fuel lo hi hle hf (fun k h1 h2 => by
      rw [h k h1 h2]
      by_cases hk : k = x
      · exact .inr ⟨fun hne => hne hk, if_pos hk⟩
      · exact .inl ⟨hk, if_neg hk⟩) with ⟨hall, heq⟩ | ⟨hsome, heq⟩
  · rw [heq, if_neg (fun hx => hall x hx rfl)]
  · push Not at hsome
    obtain ⟨k, hk, rfl⟩ := hsome
    rw [heq, if_pos hk]

/-- A search never asks behind its range. -/
theorem asks_of_le {x : Nat} : ∀ fuel lo hi, hi ≤ x → asks t x fuel lo hi = false
  | 0, _, _, _ => rfl
  | fuel + 1, lo, hi, h => by
    by_cases hlt : lo < hi
    · rw [asks, decide_eq_false (show (lo + hi) / 2 ≠ x by omega), asks_of_le _ _ _ h,
        asks_of_le fuel lo _ (by omega), ite_self]
      simp
    · rw [asks, decide_eq_false hlt, Bool.false_and]

/-- Halving a range whose answers follow the threshold `t` ends at `t`, clamped
    to the range. -/
theorem upperBound_clamp {before : Nat → Option Bool} (hle : lo ≤ hi)
    (h : ∀ k, lo ≤ k → k < hi → before k = some (decide (k < t))) :
    upperBound before lo hi = some (max lo (min t hi)) := by
  rw [upperBound, halve_missing before hi _ lo hi hle le_rfl
    (fun k h1 h2 => by rw [h k h1 h2, if_neg h2.ne]), asks_of_le _ _ _ le_rfl]
  rfl

/-- A range that encloses the threshold is searched down to it. -/
theorem upperBound_eq {before : Nat → Option Bool} (hlo : lo ≤ t) (hhi : t ≤ hi)
    (h : ∀ k, lo ≤ k → k < hi → before k = some (decide (k < t))) :
    upperBound before lo hi = some t := by
  rw [upperBound_clamp (by omega) h]
  congr 1
  omega

/-- A search only asks about indices below its bound and ends at none behind it. -/
theorem upperBound_bind_congr {β : Type} {before before' : Nat → Option Bool}
    {g g' : Nat → Option β} (hle : lo ≤ hi) (h : ∀ k < hi, before k = before' k)
    (hg : ∀ k ≤ hi, g k = g' k) :
    (upperBound before lo hi).bind g = (upperBound before' lo hi).bind g' := by
  unfold upperBound
  generalize hi - lo = fuel
  induction fuel generalizing lo hi with
  | zero =>
    unfold halve
    split
    · rfl
    · exact hg lo hle
  | succ fuel ih =>
    unfold halve
    by_cases hlt : lo < hi
    · rw [if_pos hlt, if_pos hlt, h _ (by omega)]
      cases before' ((lo + hi) / 2) with
      | none => rfl
      | some b =>
        cases b with
        | true => exact ih (by omega) h hg
        | false =>
          exact ih (by omega) (fun k hk => h k (by omega)) (fun k hk => hg k (by omega))
    · rw [if_neg hlt, if_neg hlt]
      exact hg lo hle

/-- `t` is the first index of `[lo, hi)` with the property, or `hi` if there is none. -/
structure FirstIn (p : Nat → Prop) (lo hi t : Nat) : Prop where
  lo_le : lo ≤ t
  le_hi : t ≤ hi
  before : ∀ k, lo ≤ k → k < t → ¬ p k
  holds : t < hi → p t

section First

variable {p q : Nat → Prop} {lo mid hi t : Nat}

/-- There is one first place. -/
theorem FirstIn.unique {t' : Nat} (h : FirstIn p lo hi t) (h' : FirstIn p lo hi t') : t = t' := by
  rcases lt_trichotomy t t' with hlt | heq | hgt
  · exact absurd (h.holds (hlt.trans_le h'.le_hi)) (h'.before t h.lo_le hlt)
  · exact heq
  · exact absurd (h'.holds (hgt.trans_le h.le_hi)) (h.before t' h'.lo_le hgt)

theorem FirstIn.congr (h : FirstIn p lo hi t) (hpq : ∀ k, lo ≤ k → k < hi → (p k ↔ q k)) :
    FirstIn q lo hi t :=
  ⟨h.lo_le, h.le_hi, fun k h1 h2 => mt (hpq k h1 (h2.trans_le h.le_hi)).mpr (h.before k h1 h2),
    fun hlt => (hpq t h.lo_le hlt).mp (h.holds hlt)⟩

/-- Indices without the property can be put before the range. -/
theorem FirstIn.extend_low (h : FirstIn p mid hi t) (hle : lo ≤ mid)
    (hlow : ∀ k, lo ≤ k → k < mid → ¬ p k) : FirstIn p lo hi t where
  lo_le := hle.trans h.lo_le
  le_hi := h.le_hi
  before := fun k h1 h2 => (lt_or_ge k mid).elim (hlow k h1) (fun h3 => h.before k h3 h2)
  holds := h.holds

/-- An index with the property can be put behind the range, and any others behind that. -/
theorem FirstIn.extend_high (h : FirstIn p lo mid t) (hle : mid ≤ hi) (hmid : mid < hi → p mid) :
    FirstIn p lo hi t where
  lo_le := h.lo_le
  le_hi := h.le_hi.trans hle
  before := h.before
  holds := fun hlt => by
    rcases lt_or_eq_of_le h.le_hi with h1 | rfl
    · exact h.holds h1
    · exact hmid hlt

/-- A range whose low end has the property, or is its high end. -/
theorem firstIn_lo (hle : lo ≤ hi) (h : lo < hi → p lo) : FirstIn p lo hi lo where
  lo_le := le_refl lo
  le_hi := hle
  before := fun _ h1 h2 => absurd h1 h2.not_ge
  holds := h

open Classical in
/-- There is a first place. -/
theorem exists_firstIn (p : Nat → Prop) (hle : lo ≤ hi) : ∃ t, FirstIn p lo hi t := by
  have hex : ∃ t, lo ≤ t ∧ (t < hi → p t) := ⟨hi, hle, fun h => absurd h (lt_irrefl hi)⟩
  have hspec := Nat.find_spec hex
  have hhi : Nat.find hex ≤ hi := Nat.find_min' hex ⟨hle, fun h => absurd h (lt_irrefl hi)⟩
  refine ⟨Nat.find hex, hspec.1, hhi, fun k h1 h2 hp => ?_, hspec.2⟩
  exact Nat.find_min hex h2 ⟨h1, fun _ => hp⟩

/-- **FIRST INDEX**: when the property, once met, stays, halving finds where it starts. -/
theorem upperBound_first {before : Nat → Option Bool} [DecidablePred p] (hle : lo ≤ hi)
    (hmono : ∀ i j, lo ≤ i → i ≤ j → j < hi → p i → p j)
    (h : ∀ k, lo ≤ k → k < hi → before k = some (decide (¬ p k))) :
    ∃ t, upperBound before lo hi = some t ∧ FirstIn p lo hi t := by
  obtain ⟨t, ht⟩ := exists_firstIn p hle
  refine ⟨t, upperBound_eq ht.lo_le ht.le_hi (fun k h1 h2 => ?_), ht⟩
  rw [h k h1 h2]
  refine congrArg some (decide_eq_decide.mpr ⟨fun hk => ?_, fun hk => ht.before k h1 hk⟩)
  by_contra hge
  have hlt : t < hi := by omega
  exact hk (hmono t k ht.lo_le (by omega) h2 (ht.holds hlt))

end First

/-- In a sorted list the entries that count are the first ones. -/
theorem count_eq_of_sorted {α : Type} {l : List α} {p : α → Bool}
    (h : l.Pairwise (fun a b => p b = true → p a = true)) :
    ∀ i (hi : i < l.length), p l[i] = decide (i < l.countP p) := by
  induction l with
  | nil => exact fun i hi => absurd hi (not_lt_zero i)
  | cons a l ih =>
    obtain ⟨hhead, htail⟩ := pairwise_cons.mp h
    intro i hi
    cases hp : p a with
    | true =>
      rw [countP_cons_of_pos hp]
      cases i with
      | zero => rw [getElem_cons_zero, hp, decide_eq_true (succ_pos _)]
      | succ i =>
        rw [getElem_cons_succ, ih htail i (lt_of_succ_lt_succ hi)]
        exact decide_eq_decide.mpr succ_lt_succ_iff.symm
    | false =>
      -- no later entry counts
      have hnone : (a :: l).countP p = 0 := by
        refine countP_eq_zero.mpr (fun b hb hpb => ?_)
        rcases mem_cons.mp hb with rfl | hb
        · exact Bool.false_ne_true (hp.symm.trans hpb)
        · exact Bool.false_ne_true (hp.symm.trans (hhead b hb hpb))
      rw [hnone, decide_eq_false (not_lt_zero i), ← Bool.not_eq_true]
      exact fun hpi => (countP_eq_zero.mp hnone) _ (getElem_mem hi) hpi

section Sorted

variable {α : Type} [Preorder α] {l : List α} (h : l.Pairwise (· ≤ ·)) (key : α)

include h

/-- The elements below a key come first. -/
theorem count_lt [DecidableLT α] (hi : i < l.length) :
    l[i] < key ↔ i < l.countP (fun x => decide (x < key)) :=
  decide_eq_decide.mp (count_eq_of_sorted (p := fun x => decide (x < key)) (h.imp (fun hab hb =>
    decide_eq_true (hab.trans_lt (of_decide_eq_true hb)))) i hi)

theorem count_le [DecidableLE α] (hi : i < l.length) :
    l[i] ≤ key ↔ i < l.countP (fun x => decide (x ≤ key)) :=
  decide_eq_decide.mp (count_eq_of_sorted (p := fun x => decide (x ≤ key)) (h.imp (fun hab hb =>
    decide_eq_true (hab.trans (of_decide_eq_true hb)))) i hi)

end Sorted

/-! ## Scanning up to the boundary -/

/-- Move up from `lo` while the index is before the boundary. -/
def scan (before : Nat → Option Bool) : Nat → Nat → Option Nat
  | 0, _ => none
  | fuel + 1, lo =>
    match before lo with
    | none => none
    | some true => scan before fuel (lo + 1)
    | some false => some lo

/-- Scanning answers that follow the threshold `t` ends at `t`. -/
theorem scan_eq {before : Nat → Option Bool} :
    ∀ fuel lo, lo ≤ t → t - lo < fuel →
      (∀ k, lo ≤ k → k ≤ t → before k = some (decide (k < t))) →
      scan before fuel lo = some t := by
  intro fuel
  induction fuel with
  | zero => intro lo _ hf; omega
  | succ fuel ih =>
    intro lo hlo hf h
    have h0 := h lo le_rfl hlo
    rw [scan, h0]
    by_cases hlt : lo < t
    · rw [decide_eq_true hlt]
      exact ih (lo + 1) (by omega) (by omega) (fun k h1 h2 => h k (by omega) h2)
    · rw [decide_eq_false hlt]
      show some lo = some t
      congr 1
      omega

/-! ## Levels of an increasing table -/

/-- The first of the indices `0 .. K` at which the table `c` has reached `v`,
    or `K + 1` if it never does. -/
def firstGe (c : Nat → Nat) (K v : Nat) : Nat :=
  count (fun k => c k < v) (K + 1)

theorem firstGe_le (c : Nat → Nat) (K v : Nat) : firstGe c K v ≤ K + 1 := Nat.count_le _

section Levels

variable {c : Nat → Nat} {K v R : Nat}

/-- In an increasing table the indices below `firstGe` are those that have not
    reached the level. -/
theorem lt_firstGe_iff (hc : ∀ i j, i ≤ j → j ≤ K → c i ≤ c j) {k : Nat} (hk : k ≤ K) :
    k < firstGe c K v ↔ c k < v := by
  have hsorted := count_eq_of_sorted (l := range (K + 1)) (p := fun k => decide (c k < v))
    (pairwise_le_range.imp_of_mem (fun _ hj hij hlt => decide_eq_true
      ((hc _ _ hij (le_of_lt_succ (mem_range.mp hj))).trans_lt (of_decide_eq_true hlt))))
    k (by rw [length_range]; omega)
  rw [getElem_range] at hsorted
  exact (decide_eq_decide.mp hsorted).symm

/-- A greater value is reached no earlier. -/
theorem firstGe_mono {v' : Nat} (h : v ≤ v') : firstGe c K v ≤ firstGe c K v' :=
  count_mono_left (fun k hk => by omega)

/-- **HINTS ENCLOSE**: for a level `R + 1` reached inside the table, the place
    where it is reached lies between the places of the two neighbouring
    multiples of `q`, the upper one replaced by the end of the table when it is
    not tabulated. -/
theorem firstGe_bracket (hc : ∀ i j, i ≤ j → j ≤ K → c i ≤ c j) {q : Nat} (slots : Nat) (hq : 0 < q)
    (hR : R < c K) :
    firstGe c K (q * (R / q)) ≤ firstGe c K (R + 1) ∧
    firstGe c K (R + 1) ≤
      (if R / q + 1 < slots then firstGe c K (q * (R / q + 1)) else K) ∧
    firstGe c K (R + 1) ≤ K := by
  have hend : firstGe c K (R + 1) ≤ K := by
    by_contra h
    have : c K < R + 1 := (lt_firstGe_iff hc le_rfl).mp (by omega)
    omega
  have hlo : q * (R / q) ≤ R := mul_div_le R q
  have hhi : R < q * (R / q + 1) := by
    rw [mul_comm]
    exact lt_mul_of_div_lt (lt_succ_self _) hq
  refine ⟨firstGe_mono (by omega), ?_, hend⟩
  split
  · exact firstGe_mono hhi
  · exact hend

/-- Around the place where a level is reached the table steps over it. -/
theorem firstGe_step (hc : ∀ i j, i ≤ j → j ≤ K → c i ≤ c j) (h0 : c 0 = 0)
    (hle : firstGe c K (R + 1) ≤ K) :
    0 < firstGe c K (R + 1) ∧ c (firstGe c K (R + 1) - 1) ≤ R ∧
      R < c (firstGe c K (R + 1)) := by
  have hpos : 0 < firstGe c K (R + 1) := (lt_firstGe_iff hc (zero_le K)).mpr (by omega)
  have hbelow : c (firstGe c K (R + 1) - 1) < R + 1 :=
    (lt_firstGe_iff hc (by omega)).mp (by omega)
  have hat : ¬ c (firstGe c K (R + 1)) < R + 1 := by
    intro h
    exact lt_irrefl _ ((lt_firstGe_iff hc hle).mpr h)
  exact ⟨hpos, by omega, by omega⟩

end Levels

/-! ## Slot hints -/

/-- Tabulate, one slot after another, where each level is reached: slot `j`
    scans on from slot `j - 1`.  The question asked may depend on the slots
    already written. -/
def hintLoop (below : List Nat → Nat → Nat → Option Bool) (fuel : Nat) :
    Nat → Nat → List Nat → Option (List Nat)
  | 0, _, acc => some acc
  | n + 1, j, acc =>
    match scan (below acc j) fuel (acc.getLastD 0) with
    | none => none
    | some k => hintLoop below fuel n (j + 1) (acc ++ [k])

/-- The hinted searches find all places in turn. -/
theorem hintLoop_eq (hmono : ∀ j, e j ≤ e (j + 1)) (m : Nat) (hfuel : ∀ j, j < m → e j < fuel)
    (h : ∀ j, 0 < j → j < m → ∀ k, e (j - 1) ≤ k → k ≤ e j →
      below ((range j).map e) j k = some (decide (k < e j))) :
    ∀ n j, 0 < j → j + n = m →
      hintLoop below fuel n j ((range j).map e) = some ((range m).map e) := by
  intro n
  induction n with
  | zero =>
    intro j _ hj
    rw [show m = j by omega]
    rfl
  | succ n ih =>
    intro j hj0 hj
    have hlast : ((range j).map e).getLastD 0 = e (j - 1) := by
      obtain ⟨i, rfl⟩ : ∃ i, j = i + 1 := ⟨j - 1, by omega⟩
      rw [range_succ, map_append, map_singleton, getLastD_concat]
      rfl
    have hle : e (j - 1) ≤ e j := by
      have := hmono (j - 1)
      rwa [Nat.sub_add_cancel hj0] at this
    have hscan : scan (below ((range j).map e) j) fuel (e (j - 1)) = some (e j) :=
      scan_eq fuel _ hle (by have := hfuel j (by omega); omega) (h j hj0 (by omega))
    rw [hintLoop, hlast, hscan]
    have := ih (j + 1) (by omega) (by omega)
    rwa [range_succ, map_append] at this

/-- The whole hint table: slot `0` is `0`, the slots in between are scanned, and
    the slot after the last one holds `last` (it overwrites slot `0` when there
    are no others). -/
def hints (below : List Nat → Nat → Nat → Option Bool) (fuel slots last : Nat) :
    Option (List Nat) :=
  match slots with
  | 0 => some [last]
  | n + 1 => (hintLoop below fuel n 1 [0]).map (· ++ [last])

/-- **THE HINT TABLE**: when every slot's question is answered by a threshold,
    the table lists the thresholds and ends in `last`. -/
theorem hints_eq (h0 : e 0 = 0) (hmono : ∀ j, e j ≤ e (j + 1)) (hfuel : ∀ j, j < slots → e j < fuel)
    (h : ∀ j, 0 < j → j < slots → ∀ k, e (j - 1) ≤ k → k ≤ e j →
      below ((range j).map e) j k = some (decide (k < e j))) :
    hints below fuel slots last = some ((range slots).map e ++ [last]) := by
  cases slots with
  | zero => rfl
  | succ n =>
    have hloop := hintLoop_eq hmono (n + 1) hfuel h n 1 (by omega) (by omega)
    have hone : (range 1).map e = [0] := by
      rw [range_one, map_singleton, h0]
    rw [hone] at hloop
    show (hintLoop below fuel n 1 [0]).map (· ++ [last]) = _
    rw [hloop]
    rfl

theorem hintLoop_length :
    ∀ n j acc l, hintLoop below fuel n j acc = some l → l.length = acc.length + n := by
  intro n
  induction n with
  | zero =>
    intro j acc l h
    rw [← some.inj h, add_zero]
  | succ n ih =>
    intro j acc l h
    rw [hintLoop] at h
    cases hs : scan (below acc j) fuel (acc.getLastD 0) with
    | none => rw [hs] at h; exact nomatch h
    | some k =>
      rw [hs] at h
      have := ih (j + 1) (acc ++ [k]) l h
      rw [length_append, length_singleton] at this
      omega

/-- The table has one entry more than slots. -/
theorem hints_length {l : List Nat} (h : hints below fuel slots last = some l) :
    l.length = slots + 1 := by
  cases slots with
  | zero => rw [← some.inj h]; rfl
  | succ n =>
    obtain ⟨l', hl', rfl⟩ := map_eq_some_iff.mp h
    rw [length_append, hintLoop_length _ _ _ _ hl', length_singleton,
      length_singleton, add_comm 1 n]

/-- Reading a slot of a table of thresholds. -/
theorem hints_slot (e : Nat → Nat) (slots last : Nat) (hi : i ≤ slots) :
    ((range slots).map e ++ [last])[i]? = some (if i < slots then e i else last) := by
  by_cases hlt : i < slots
  · rw [getElem?_append_left (by simpa using hlt)]
    simp [hlt]
  · have : i = slots := by omega
    rw [this]
    simp

end Search
